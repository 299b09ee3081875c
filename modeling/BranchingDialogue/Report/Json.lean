import BranchingDialogue.Decimal.Layout
import BranchingDialogue.Json.Text
import BranchingDialogue.Report.Basic

/-!
# Reports as JSON

One element or field a line, two spaces further in than the brackets around it; empty brackets stay
on their line. Numbers without a JSON form are written as `null`.
-/

namespace BranchingDialogue.Report

/-- The start of a line at some depth. -/
def newline (depth : Nat) : String := "\n" ++ String.ofList (List.replicate (2 * depth) ' ')

/-- Lines in brackets; empty brackets if there are none. -/
def bracketed (opening closing : String) (depth : Nat) (lines : List String) : String :=
  if lines.isEmpty then opening ++ closing
  else
    opening ++ newline (depth + 1) ++ String.intercalate ("," ++ newline (depth + 1)) lines
      ++ newline depth ++ closing

mutual

/-- A report as JSON, its brackets at some depth. -/
def jsonAt (depth : Nat) : Report → String
  | .null => "null"
  | .bool b => if b then "true" else "false"
  | .integer n => toString n
  | .single x => (singleDatum? .signed x).getD "null"
  | .double x => (doubleDatum? .signed x).getD "null"
  | .text s => Json.writtenText s
  | .list items => bracketed "[" "]" depth (jsonItems (depth + 1) items)
  | .record fields => bracketed "\x7b" "\x7d" depth (jsonFields (depth + 1) fields)

/-- Elements as JSON. -/
def jsonItems (depth : Nat) : List Report → List String
  | [] => []
  | x :: xs => jsonAt depth x :: jsonItems depth xs

/-- Fields as JSON. -/
def jsonFields (depth : Nat) : List (String × Report) → List String
  | [] => []
  | (name, x) :: rest => (Json.writtenText name ++ ": " ++ jsonAt depth x) :: jsonFields depth rest

end

/-- A report as JSON, readable by people. -/
def json (r : Report) : String := jsonAt 0 r

end BranchingDialogue.Report
