/-!
# JSON values

The values a JSON text stands for. Numbers keep the difference between whole numbers and floats,
since the values of a dialogue do. Members of an object are listed as they were read.
-/

namespace BranchingDialogue

/-- A whole number that a JSON number can hold: signed or unsigned, in 64 bits. -/
abbrev WideInteger := { n : Int // -0x8000000000000000 ≤ n ∧ n < 0x10000000000000000 }

/-- A double that is an ordinary number. -/
abbrev FiniteFloat := { x : Float // x.isFinite = true }

/-- A JSON value. -/
inductive Json where
  /-- The absent value. -/
  | null
  /-- A truth value. -/
  | bool (b : Bool)
  /-- A whole number. -/
  | integer (n : WideInteger)
  /-- A number with a fraction or an exponent, or too large for a whole number. -/
  | float (x : FiniteFloat)
  /-- A text. -/
  | text (s : String)
  /-- An array. -/
  | array (items : List Json)
  /-- An object with its members. -/
  | object (members : List (String × Json))

namespace Json

instance : Inhabited Json := ⟨.null⟩

/-- Puts a member at its place among members sorted by name; a later member of the same name takes
the place of an earlier one. -/
def insertMember (name : String) (value : Json) : List (String × Json) → List (String × Json)
  | [] => [(name, value)]
  | (n, v) :: rest =>
    if name < n then (name, value) :: (n, v) :: rest
    else if name = n then (name, value) :: rest
    else (n, v) :: insertMember name value rest

end Json

end BranchingDialogue
