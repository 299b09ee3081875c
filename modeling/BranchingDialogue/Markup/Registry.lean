import BranchingDialogue.Markup.Error
import BranchingDialogue.Text.Utf8

/-!
# Tag registries

Which tags are the library's own. Names are compared without regard to the case of ASCII letters.
The names of the text renderer are not available, so markup meant for the renderer is never taken
away from it.
-/

namespace BranchingDialogue

/-- What happens with a tag of the library's own. -/
inductive TagBehavior where
  /-- It puts a pause into the reveal. -/
  | wait
  /-- It colors the text it covers. -/
  | gradient
  /-- It is taken out and left to whoever asks for it. -/
  | host
  deriving DecidableEq, Repr

/-- The name of a behavior. -/
def TagBehavior.name : TagBehavior → String
  | .wait => "wait"
  | .gradient => "gradient"
  | .host => "host"

/-- Whose a tag is. -/
inductive TagFamily where
  /-- The text renderer's. -/
  | native
  /-- The library's own. -/
  | custom
  deriving DecidableEq, Repr

/-- The name of a family. -/
def TagFamily.name : TagFamily → String
  | .native => "native"
  | .custom => "custom"

/-- A tag of the library's own. -/
structure TagDefinition where
  name : String
  shape : TagShape
  behavior : TagBehavior
  deriving DecidableEq, Repr

/-- The tags of the text renderer. -/
def nativeTags : List String :=
  ["align", "alpha", "b", "color", "cspace", "font", "font-weight", "i", "indent", "line-height",
    "line-indent", "link", "lowercase", "margin", "mark", "mspace", "nobr", "noparse", "page", "pos",
    "rotate", "s", "size", "smallcaps", "space", "sprite", "strikethrough", "style", "sub", "sup",
    "u", "uppercase", "voffset", "width"]

/-- Whether a name is one of the text renderer's. -/
def isNative (name : String) : Bool := nativeTags.any (sameName · name)

/-- The tags of the library's own, in the order in which they were registered. -/
structure TagRegistry where
  definitions : List TagDefinition
  deriving DecidableEq, Repr

namespace TagRegistry

/-- A registry without tags. -/
def empty : TagRegistry := ⟨[]⟩

/-- The registry with pauses and gradients. -/
def builtin : TagRegistry := ⟨[⟨"wait", .single, .wait⟩, ⟨"gradient", .span, .gradient⟩]⟩

/-- The tag with a name. -/
def custom? (r : TagRegistry) (name : String) : Option TagDefinition :=
  r.definitions.find? fun d => sameName d.name name

/-- Puts a definition in the place of the first one of its name, or at the end. -/
def place (d : TagDefinition) : List TagDefinition → List TagDefinition
  | [] => [d]
  | e :: es => if sameName e.name d.name then d :: es else e :: place d es

/-- Registers a tag; the names of the text renderer are reserved. -/
def register (r : TagRegistry) (d : TagDefinition) : Except MarkupError TagRegistry :=
  if isNative d.name then .error (.reservedName d.name) else .ok ⟨place d r.definitions⟩

/-- Whose the tag with a name is. -/
def classify? (r : TagRegistry) (name : String) : Option TagFamily :=
  if isNative name then some .native
  else if (r.custom? name).isSome then some .custom
  else none

end TagRegistry

end BranchingDialogue
