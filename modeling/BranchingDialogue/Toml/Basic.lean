import BranchingDialogue.Decimal.Layout
import BranchingDialogue.Text.Quoted

/-!
# TOML values

The values that a settings file holds. Tables keep the order in which their keys were written.
-/

namespace BranchingDialogue

/-- A TOML value. -/
inductive Toml where
  | bool (b : Bool)
  /-- A whole number of 64 bits with a sign. -/
  | integer (n : Int)
  | float (x : Float)
  | text (s : String)
  /-- A date, a time or both, which no setting wants. -/
  | date
  | array (items : List Toml)
  | table (members : List (String × Toml))

namespace Toml

/-- A value as it stands in messages. -/
def describe : Toml → String
  | .bool b => "boolean `" ++ (if b then "true" else "false") ++ "`"
  | .integer n => "integer `" ++ toString n ++ "`"
  | .float x => "floating point `" ++ (WrittenFloat.ofDouble x).pointed ++ "`"
  | .text s => "string " ++ quoted s
  | .date | .table _ => "map"
  | .array _ => "sequence"

/-- The result of reading from the front of some characters: a value and the characters after it. -/
abbrev Reading (α : Type) := Option (α × List Char)

/-- Spaces and tabs. -/
def isGap (c : Char) : Bool := c == ' ' || c == '\t'

/-- Drops spaces and tabs from the front. -/
def skipGap (cs : List Char) : List Char := cs.dropWhile isGap

/-- Characters that may stand for themselves in texts and comments: no control characters but the
tab. -/
def isPlain (c : Char) : Bool := c == '\t' || (32 ≤ c.toNat && c.toNat != 127)

/-- The characters after the end of a line, if they begin with one. -/
def newline? : List Char → Option (List Char)
  | '\n' :: cs => some cs
  | '\r' :: '\n' :: cs => some cs
  | _ => none

/-- The characters after a comment, if they begin with one. -/
def skipComment : List Char → List Char
  | '#' :: cs => cs.dropWhile isPlain
  | cs => cs

/-- Ends a line, of which a comment may be left. -/
def endLine? (cs : List Char) : Option (List Char) :=
  match skipComment (skipGap cs) with
  | [] => some []
  | rest => newline? rest

end Toml

end BranchingDialogue
