import BranchingDialogue.Markup.Tag

/-!
# Attributes of a tag

The body of a tag may begin with `=` and the tag's own value; then attributes follow, each a name, `=`
and a value. A value stands in quotes or reaches to the next blank; it is never empty.
-/

namespace BranchingDialogue

/-- An attribute; the tag's own value has no name. -/
structure Attribute where
  name : Option String
  value : String
  deriving DecidableEq, Repr

namespace Attribute

/-- An attribute with the position and the characters after it. -/
abbrev Step := Except MarkupError (Attribute × Nat × List Char)

/-- Reads a value at a byte position. -/
def readValue (tag : String) (name : Option String) (position : Nat) (cs : List Char) : Step :=
  let finish (value : List Char) (next : Nat) (rest : List Char) : Step :=
    if value.isEmpty then .error (.emptyAttributeValue tag position)
    else .ok (⟨name, String.ofList value⟩, next, rest)
  let bare : Step :=
    let value := cs.takeWhile (!isBlank ·)
    finish value (position + utf8Length value) (cs.dropWhile (!isBlank ·))
  match cs with
  | q :: inner =>
    if isQuote q then
      let value := inner.takeWhile (· != q)
      match inner.dropWhile (· != q) with
      | _ :: rest => finish value (position + utf8Length value + 2) rest
      | [] => .error (.unterminatedQuote tag position)
    else bare
  | [] => bare

/-- Reads a named attribute at a byte position. -/
def readNamed (tag : String) (position : Nat) (cs : List Char) : Step :=
  let isNamePart (c : Char) : Bool := c != '=' && !isBlank c
  let name := cs.takeWhile isNamePart
  let next := position + utf8Length name
  if name.isEmpty || !name.all isNameChar then
    .error (.invalidAttributeName tag (String.ofList name) position)
  else
    match cs.dropWhile isNamePart with
    | '=' :: rest => readValue tag (some (String.ofList name)) (next + 1) rest
    | _ => .error (.emptyAttributeValue tag next)

/-- Reads named attributes up to the end of the body or the first error, at most `fuel` of them. -/
def readNames (tag : String) : Nat → Nat → List Char → List (Except MarkupError Attribute)
  | 0, _, _ => []
  | fuel + 1, position, cs =>
    let blanks := cs.takeWhile isBlank
    match cs.dropWhile isBlank with
    | [] => []
    | rest =>
      match readNamed tag (position + utf8Length blanks) rest with
      | .error e => [.error e]
      | .ok (a, next, rest) => .ok a :: readNames tag fuel next rest

/-- Reads the attributes in the body of a tag. Only the last result can be an error. -/
def readAll (tag : String) (position : Nat) (body : List Char) :
    List (Except MarkupError Attribute) :=
  match body with
  | '=' :: rest =>
    match readValue tag none (position + 1) rest with
    | .error e => [.error e]
    | .ok (a, next, rest) => .ok a :: readNames tag (rest.length + 1) next rest
  | _ => readNames tag (body.length + 1) position body

end Attribute

/-- The attributes of a tag, up to the first error. -/
def Tag.attributeResults (t : Tag) : List (Except MarkupError Attribute) :=
  Attribute.readAll t.name t.bodyStart t.body.toList

/-- The attributes of a tag, if all can be read. -/
def Tag.attributes (t : Tag) : Except MarkupError (List Attribute) := t.attributeResults.mapM id

end BranchingDialogue
