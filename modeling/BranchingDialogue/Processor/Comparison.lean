import BranchingDialogue.Value

/-!
# Comparisons

The six ways in which two numbers are compared. A payload names one by its position, its name or
its symbol.
-/

namespace BranchingDialogue

/-- A way to compare two numbers. -/
inductive Comparison where
  | equal
  | notEqual
  | less
  | lessOrEqual
  | greater
  | greaterOrEqual
  deriving DecidableEq, Repr

namespace Comparison

/-- All comparisons, in the order of their positions. -/
def all : List Comparison := [.equal, .notEqual, .less, .lessOrEqual, .greater, .greaterOrEqual]

/-- The name of a comparison. -/
def name : Comparison → String
  | .equal => "Equal"
  | .notEqual => "NotEqual"
  | .less => "Less"
  | .lessOrEqual => "LessOrEqual"
  | .greater => "Greater"
  | .greaterOrEqual => "GreaterOrEqual"

/-- The symbol of a comparison. -/
def symbol : Comparison → String
  | .equal => "=="
  | .notEqual => "!="
  | .less => "<"
  | .lessOrEqual => "<="
  | .greater => ">"
  | .greaterOrEqual => ">="

/-- The comparison with a name or symbol. -/
def ofName? (s : String) : Option Comparison := all.find? fun c => c.name = s || c.symbol = s

/-- The comparison that a value stands for; a value that stands for none is given back as it stands
in messages. -/
def ofValue : Value → Except String Comparison
  | .int n =>
    match if n.toInt < 0 then none else all[n.toInt.toNat]? with
    | some c => .ok c
    | none => .error (toString n.toInt)
  | .text s =>
    match ofName? s with
    | some c => .ok c
    | none => .error s
  | v => .error v.display

/-- Compares two numbers; an undefined number differs from every number. -/
def holds (c : Comparison) (x y : Float) : Bool :=
  match c with
  | .equal => x == y
  | .notEqual => !(x == y)
  | .less => decide (x < y)
  | .lessOrEqual => decide (x ≤ y)
  | .greater => decide (y < x)
  | .greaterOrEqual => decide (y ≤ x)

end Comparison

end BranchingDialogue
