import BranchingDialogue.Document.Load
import BranchingDialogue.Document.Read
import BranchingDialogue.Markup.Registry
import BranchingDialogue.Settings.Basic

/-!
# Runtimes

What loading and walking share: the settings and the registries of binders and tags.
-/

namespace BranchingDialogue

/-- Settings and registries. -/
structure Runtime (α : Type) where
  settings : Settings α
  kinds : NodeRegistry
  tags : TagRegistry

namespace Runtime

variable {α : Type}

/-- A runtime with the built-in kinds and tags. -/
def new (settings : Settings α) : Runtime α := ⟨settings, .builtin, .builtin⟩

/-- The graph of a document. -/
def load (r : Runtime α) (d : Document) : Except DocumentError Graph := Graph.ofDocument r.kinds d

/-- The document in a text, within the limits. -/
def readDocument (r : Runtime α) (text : String) : Except DocumentError Document :=
  Document.read text r.settings.limits.documentBytes

/-- The graph of a document in a text. -/
def loadText (r : Runtime α) (text : String) : Except DocumentError Graph :=
  match r.readDocument text with
  | .error e => .error e
  | .ok d => r.load d

end Runtime

end BranchingDialogue
