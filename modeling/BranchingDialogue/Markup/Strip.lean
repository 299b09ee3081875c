import BranchingDialogue.Markup.Attribute
import BranchingDialogue.Markup.Registry
import BranchingDialogue.Report.Basic

/-!
# Taking tags out of a text

The tags of the library's own are taken out of a text and listed with the place they have in what
remains, which is shown. All else, tags of the text renderer and unknown ones included, is shown as
it is. A closing tag closes the innermost open tag of its name; what is never closed reaches to the
end.
-/

namespace BranchingDialogue

/-- A tag that was taken out of a text. Places count the characters that are shown. -/
structure PlacedTag where
  name : String
  shape : TagShape
  behavior : TagBehavior
  /-- The first character it covers, or the one it stands before. -/
  start : Nat
  /-- How many characters it covers; none if it stands alone. -/
  length : Nat
  /-- The tag's own value. -/
  parameter : Option String
  /-- The other attributes in order. -/
  attributes : List (String × String)
  deriving DecidableEq, Repr

namespace PlacedTag

/-- The place after the last character it covers. -/
def stop (t : PlacedTag) : Nat := t.start + t.length

/-- The first attribute with a name. -/
def attribute? (t : PlacedTag) (name : String) : Option String :=
  (t.attributes.find? fun a => sameName a.1 name).map (·.2)

/-- A tag in a report. -/
def report (t : PlacedTag) : Report :=
  .record <|
    [("name", .text t.name), ("variant", .text TagFamily.custom.name),
      ("shape", .text t.shape.name), ("behavior", .text t.behavior.name),
      ("start", .nat t.start), ("length", .nat t.length)]
    ++ (match t.parameter with | some p => [("parameter", .text p)] | none => [])
    ++ Report.omitIf t.attributes.isEmpty "attributes"
      (.list (t.attributes.map fun (name, value) => .texts [name, value]))

end PlacedTag

/-- A text without the tags of the library's own, and these. -/
structure StrippedText where
  text : String
  tags : List PlacedTag
  deriving DecidableEq, Repr

namespace StrippedText

/-- How many characters are shown. -/
def charCount (s : StrippedText) : Nat := s.text.length

/-- The text and its tags as fields of a report. -/
def fields (s : StrippedText) : List (String × Report) :=
  [("text", .text s.text), ("tags", .list (s.tags.map PlacedTag.report))]

end StrippedText

/-- A text being stripped. -/
structure Stripping where
  /-- The characters that are shown, last one first. -/
  shown : List Char
  /-- How many they are. -/
  count : Nat
  /-- The tags taken out so far. -/
  tags : Array PlacedTag
  /-- The positions of those not yet closed, innermost first. -/
  unclosed : List Nat

namespace Stripping

/-- Nothing stripped yet. -/
def start : Stripping := ⟨[], 0, #[], []⟩

/-- Shows characters. -/
def display (s : Stripping) (cs : List Char) : Stripping :=
  { s with shown := cs.reverse ++ s.shown, count := s.count + cs.length }

/-- Makes a tag reach up to here. -/
def close (s : Stripping) (i : Nat) : Stripping :=
  { s with tags := s.tags.modify i fun t => { t with length := s.count - t.start } }

/-- Closes the innermost open tag of a name. -/
def closeInnermost (s : Stripping) (d : TagDefinition) (t : Tag) : Except MarkupError Stripping :=
  match s.unclosed.find? fun i => (s.tags[i]?.map (·.name)) = some d.name with
  | some i => .ok { s.close i with unclosed := s.unclosed.erase i }
  | none => .error (.unmatchedEnd t.name t.start)

/-- The tag's own value: the last attribute without a name. -/
def ownValue (as : List Attribute) : Option String :=
  (as.filter fun a => a.name.isNone).getLast?.map (·.value)

/-- The attributes with a name. -/
def named (as : List Attribute) : List (String × String) :=
  as.filterMap fun a => a.name.map fun name => (name, a.value)

/-- Takes out a tag that begins something or stands alone. -/
def takeOut (s : Stripping) (d : TagDefinition) (t : Tag) : Except MarkupError Stripping :=
  match t.attributes with
  | .error e => .error e
  | .ok as =>
    .ok
      { s with
        tags := s.tags.push
          { name := d.name, shape := d.shape, behavior := d.behavior, start := s.count,
            length := 0, parameter := ownValue as, attributes := named as }
        unclosed := if t.boundary = .start then s.tags.size :: s.unclosed else s.unclosed }

/-- The shape that a tag is written in. -/
def writtenShape : Boundary → TagShape
  | .start | .stop => .span
  | .marker => .single

/-- Takes out a tag of the library's own. -/
def custom (s : Stripping) (d : TagDefinition) (t : Tag) : Except MarkupError Stripping :=
  if writtenShape t.boundary ≠ d.shape then .error (.shapeMismatch t.name d.shape t.start)
  else if t.boundary = .stop then s.closeInnermost d t
  else s.takeOut d t

/-- Strips one token. -/
def token (r : TagRegistry) (s : Stripping) : Token → Except MarkupError Stripping
  | .tag t =>
    match r.custom? t.name with
    | some d => s.custom d t
    | none => .ok (s.display t.source.toList)
  | .openQuote name offset =>
    if (r.custom? name).isSome then .error (.unterminatedQuote name offset)
    else .ok (s.display ['<'])
  | .char c => .ok (s.display [c])

/-- Strips tokens up to the first error. -/
def tokens (r : TagRegistry) (s : Stripping) : List Token → Except MarkupError Stripping
  | [] => .ok s
  | t :: ts =>
    match s.token r t with
    | .error e => .error e
    | .ok s => tokens r s ts

/-- Closes at the end what was never closed. -/
def finish (s : Stripping) : StrippedText :=
  { text := String.ofList s.shown.reverse, tags := (s.unclosed.foldl close s).tags.toList }

end Stripping

/-- Takes the tags of the library's own out of a text; the first malformed one is an error. -/
def TagRegistry.strip (r : TagRegistry) (text : String) : Except MarkupError StrippedText :=
  (Stripping.start.tokens r (Token.cut text)).map Stripping.finish

end BranchingDialogue
