import BranchingDialogue.Decimal.Layout
import BranchingDialogue.Text.Quoted
import BranchingDialogue.Text.Utf8

/-!
# Faults of a JSON text

What can be wrong with a text that should hold a JSON value of some shape, and where. A fault is
placed by the number of bytes that are left after it, which readers know without counting what they
have read; `Fault.place` turns that into a line and a column.
-/

namespace BranchingDialogue.Json

/-- What a reader met in place of what it wanted. -/
inductive Found where
  | null
  | bool (b : Bool)
  | integer (n : Int)
  | float (x : Float)
  | text (s : String)
  | sequence
  | map

/-- What is wrong with a JSON text. -/
inductive Cause where
  | eofInList
  | eofInObject
  | eofInString
  | eofInValue
  | expectedColon
  | expectedListCommaOrEnd
  | expectedObjectCommaOrEnd
  | expectedIdent
  | expectedValue
  | invalidEscape
  | invalidNumber
  | numberOutOfRange
  | controlCharacter
  | keyNotText
  | loneSurrogate
  | trailingComma
  | trailingCharacters
  | unfinishedSurrogate
  | tooDeep
  | invalidType (found : Found) (expected : String)
  | invalidValue (found : Found) (expected : String)
  | invalidLength (length : Nat) (expected : String)
  | missingField (name : String)
  | duplicateField (name : String)

/-- A fault and the number of bytes of the text that are left after it. -/
structure Fault where
  cause : Cause
  left : Nat

/-- A line and a column, both counted from one; the column counts bytes. -/
structure Place where
  line : Nat
  column : Nat
  deriving DecidableEq, Repr

namespace Found

/-- What was found, as it stands in a message. -/
def describe : Found → String
  | .null => "null"
  | .bool b => "boolean `" ++ (if b then "true" else "false") ++ "`"
  | .integer n => "integer `" ++ toString n ++ "`"
  | .float x => "floating point `" ++ (doubleDatum? .signed x).getD "null" ++ "`"
  | .text s => "string " ++ quoted s
  | .sequence => "sequence"
  | .map => "map"

end Found

namespace Cause

/-- The message of a cause. -/
def message : Cause → String
  | .eofInList => "EOF while parsing a list"
  | .eofInObject => "EOF while parsing an object"
  | .eofInString => "EOF while parsing a string"
  | .eofInValue => "EOF while parsing a value"
  | .expectedColon => "expected `:`"
  | .expectedListCommaOrEnd => "expected `,` or `]`"
  | .expectedObjectCommaOrEnd => "expected `,` or `\x7d`"
  | .expectedIdent => "expected ident"
  | .expectedValue => "expected value"
  | .invalidEscape => "invalid escape"
  | .invalidNumber => "invalid number"
  | .numberOutOfRange => "number out of range"
  | .controlCharacter => "control character (\\u0000-\\u001F) found while parsing a string"
  | .keyNotText => "key must be a string"
  | .loneSurrogate => "lone leading surrogate in hex escape"
  | .trailingComma => "trailing comma"
  | .trailingCharacters => "trailing characters"
  | .unfinishedSurrogate => "unexpected end of hex escape"
  | .tooDeep => "recursion limit exceeded"
  | .invalidType found expected =>
    "invalid type: " ++ found.describe ++ ", expected " ++ expected
  | .invalidValue found expected =>
    "invalid value: " ++ found.describe ++ ", expected " ++ expected
  | .invalidLength length expected =>
    "invalid length " ++ toString length ++ ", expected " ++ expected
  | .missingField name => "missing field `" ++ name ++ "`"
  | .duplicateField name => "duplicate field `" ++ name ++ "`"

end Cause

/-- The place after so many bytes of a text: lines end after a line feed. -/
def placeAfter : Nat → Place → List Char → Place
  | _, p, [] => p
  | n, p, c :: cs =>
    if n = 0 then p
    else if c = '\n' then placeAfter (n - 1) ⟨p.line + 1, 0⟩ cs
    else if c.utf8Size ≤ n then placeAfter (n - c.utf8Size) ⟨p.line, p.column + c.utf8Size⟩ cs
    else ⟨p.line, p.column + n⟩

namespace Fault

/-- Where a fault of a text is. -/
def place (f : Fault) (text : String) : Place :=
  placeAfter (text.utf8ByteSize - f.left) ⟨1, 0⟩ text.toList

/-- The message of a fault of a text. -/
def message (f : Fault) (text : String) : String :=
  let p := f.place text
  f.cause.message ++ " at line " ++ toString p.line ++ " column " ++ toString p.column

/-- A fault of what was just read. -/
def here (cause : Cause) (rest : List Char) : Fault := ⟨cause, utf8Length rest⟩

/-- A fault of the byte that comes next, or of the end of the text. -/
def next (cause : Cause) (rest : List Char) : Fault := ⟨cause, utf8Length rest - 1⟩

end Fault

/-- The result of reading from the front of some characters: a value and the characters after it. -/
abbrev Reading (α : Type) := Except Fault (α × List Char)

/-- Drops the white space of JSON from the front. -/
def skipSpace (cs : List Char) : List Char :=
  cs.dropWhile fun c => c == ' ' || c == '\n' || c == '\t' || c == '\r'

end BranchingDialogue.Json
