import BranchingDialogue.Json.Basic

/-!
# Reports

What the library writes out: a tree of values whose records keep the order of their fields. The same
report can be written as JSON or as YAML.
-/

namespace BranchingDialogue

/-- A tree of values to be written. -/
inductive Report where
  /-- The absent value. -/
  | null
  /-- A truth value. -/
  | bool (b : Bool)
  /-- A whole number. -/
  | integer (n : Int)
  /-- A single-precision number. -/
  | single (x : Float32)
  /-- A double-precision number. -/
  | double (x : Float)
  /-- A text. -/
  | text (s : String)
  /-- A list. -/
  | list (items : List Report)
  /-- A record with its fields in order. -/
  | record (fields : List (String × Report))

namespace Report

instance : Inhabited Report := ⟨.null⟩

/-- A natural number. -/
def nat (n : Nat) : Report := .integer n

/-- A list of texts. -/
def texts (ss : List String) : Report := .list (ss.map .text)

/-- A value that may be absent. -/
def option {α : Type} (f : α → Report) : Option α → Report
  | none => .null
  | some x => f x

/-- A field that is left out when its value is void. -/
def omitIf (void : Bool) (name : String) (value : Report) : List (String × Report) :=
  if void then [] else [(name, value)]

mutual

/-- A JSON value as a report. -/
def ofJson : Json → Report
  | .null => .null
  | .bool b => .bool b
  | .integer n => .integer n.1
  | .float x => .double x.1
  | .text s => .text s
  | .array items => .list (ofItems items)
  | .object members => .record (ofMembers members)

/-- The elements of a JSON array as reports. -/
def ofItems : List Json → List Report
  | [] => []
  | x :: xs => ofJson x :: ofItems xs

/-- The members of a JSON object as fields of a report. -/
def ofMembers : List (String × Json) → List (String × Report)
  | [] => []
  | (name, x) :: rest => (name, ofJson x) :: ofMembers rest

end

end Report

end BranchingDialogue
