import BranchingDialogue.Graph.Reachable

/-!
# Drawing graphs

The text of a graph in the DOT language. Entries are green and unreachable nodes red; edges that
carry data are dashed. Labels stand in quotes, so quotes and backslashes in them are escaped.
-/

namespace BranchingDialogue

namespace Graph

/-- How many characters of a line of dialogue a label shows. -/
def previewLength : Nat := 40

/-- A text cut to the length of a preview. -/
def preview (s : String) : String :=
  let cs := s.toList
  if previewLength < cs.length then String.ofList (cs.take (previewLength - 3)) ++ "..." else s

/-- A character as it stands inside a label. -/
def labelChar (c : Char) : List Char :=
  if c = '\\' then ['\\', '\\'] else if c = '"' then ['\\', '"'] else [c]

/-- A text as it stands inside a label. -/
def labelText (s : String) : String := String.ofList (s.toList.flatMap labelChar)

/-- What the label of a node says below the name of its kind. -/
def detail? (n : Node) : Option String :=
  match n.kind with
  | .input => n.payload.text? "inputName"
  | .dialogue =>
    some ((n.payload.text? "actorID").getD "?" ++ ": " ++
      preview ((n.payload.text? "text").getD ""))
  | .choice => (n.payload.texts? "choices").map (String.intercalate " | ")
  | .action => (n.payload.texts? "actions").map (String.intercalate " | ")
  | .set | .property => n.payload.text? "property"
  | .marker => n.payload.text? "marker"
  | .blend => n.payload.text? "target"
  | .value => (n.payload.get? "value").map Value.display
  | .compare => (n.payload.get? "comparison").map Value.display
  | .condition | .not | .and | .or => none

/-- The label of a node: its kind and, after an escaped line break, the detail. -/
def label (n : Node) : String :=
  match detail? n with
  | some d => n.kind.name ++ "\\n" ++ labelText d
  | none => n.kind.name

/-- The shape of a node. -/
def shape (kind : NodeKind) : String :=
  if kind.isBranching || kind == .condition then "diamond"
  else if kind.isProcessor then "ellipse"
  else "box"

/-- The color of a node. -/
def color (reachable entries : List Nat) (i : Nat) : String :=
  if !reachable.contains i then "red" else if entries.contains i then "green" else "black"

/-- The statement for a node. -/
def nodeStatement (reachable entries : List Nat) (i : Nat) (n : Node) : String :=
  "    n" ++ toString i ++ " [label=\"" ++ label n ++ "\" shape=" ++ shape n.kind ++ " color="
    ++ color reachable entries i ++ "];\n"

/-- Whether an edge carries data. -/
def carriesData (g : Graph) (e : Edge) : Bool :=
  (PortSlot.ofNumber e.input.number).isSecondary
    || match g.node? e.output.node with
      | some n => n.kind.isProcessor
      | none => false

/-- The statement for an edge. -/
def edgeStatement (g : Graph) (e : Edge) : String :=
  "    n" ++ toString e.output.node ++ " -> n" ++ toString e.input.node ++ " [style="
    ++ (if g.carriesData e then "dashed" else "solid") ++ " label=\"" ++ toString e.output.number
    ++ "\"];\n"

/-- The lines before the statements. -/
def dotHeader : String := "digraph DialogueGraph \x7b\n    rankdir=LR;\n    node [shape=box];\n\n"

/-- A graph in the DOT language. -/
def dot (g : Graph) : String :=
  let reachable := g.reachable
  let entries := g.entries.values
  dotHeader
    ++ String.join (g.nodes.toList.mapIdx (nodeStatement reachable entries))
    ++ "\n" ++ String.join (g.edges.toList.map g.edgeStatement) ++ "\x7d\n"

end Graph

end BranchingDialogue
