import BranchingDialogue.Decimal.Layout
import BranchingDialogue.Json.Basic
import BranchingDialogue.Report.Basic
import BranchingDialogue.Text.Quoted

/-!
# Values

What a node carries and what a variable holds: a truth value, a number, a text or a sequence of
values. Whole numbers and floats stay apart. Values are read from JSON in two ways, by the kind of
the JSON value (`ofJson`) and by trying one reading after the other (`ofJsonByTrial?`); neither
takes nulls or objects.
-/

namespace BranchingDialogue

/-- A value. -/
inductive Value where
  /-- A truth value. -/
  | bool (b : Bool)
  /-- A whole number of 64 bits. -/
  | int (n : Int64)
  /-- A double. -/
  | float (x : Float)
  /-- A text. -/
  | text (s : String)
  /-- Values in order. -/
  | sequence (items : List Value)

/-- Why a JSON value is no value. -/
inductive ShapeError where
  /-- It holds a null. -/
  | null
  /-- It holds an object. -/
  | object
  deriving DecidableEq, Repr

/-- The message of a shape error. -/
def ShapeError.message : ShapeError → String
  | .null => "null is not a payload value"
  | .object => "objects are not payload values"

namespace Value

instance : Inhabited Value := ⟨.bool false⟩

mutual

/-- Decides equality of values; floats are equal when they are the same float. -/
def decideEq (a b : Value) : Decidable (a = b) :=
  match a, b with
  | .bool x, .bool y => decidable_of_iff (x = y) (by simp)
  | .int x, .int y => decidable_of_iff (x = y) (by simp)
  | .float x, .float y => decidable_of_iff (x = y) (by simp)
  | .text x, .text y => decidable_of_iff (x = y) (by simp)
  | .sequence xs, .sequence ys =>
    match decideItemsEq xs ys with
    | .isTrue h => .isTrue (by rw [h])
    | .isFalse h => .isFalse (by simpa using h)
  | .bool _, .int _ | .bool _, .float _ | .bool _, .text _ | .bool _, .sequence _
  | .int _, .bool _ | .int _, .float _ | .int _, .text _ | .int _, .sequence _
  | .float _, .bool _ | .float _, .int _ | .float _, .text _ | .float _, .sequence _
  | .text _, .bool _ | .text _, .int _ | .text _, .float _ | .text _, .sequence _
  | .sequence _, .bool _ | .sequence _, .int _ | .sequence _, .float _ | .sequence _, .text _ =>
    .isFalse nofun

/-- Decides equality of lists of values. -/
def decideItemsEq (xs ys : List Value) : Decidable (xs = ys) :=
  match xs, ys with
  | [], [] => .isTrue rfl
  | [], _ :: _ | _ :: _, [] => .isFalse nofun
  | x :: xs, y :: ys =>
    match decideEq x y, decideItemsEq xs ys with
    | .isTrue h, .isTrue h' => .isTrue (by rw [h, h'])
    | .isFalse h, _ => .isFalse (by simp [h])
    | _, .isFalse h => .isFalse (by simp [h])

end

instance : DecidableEq Value := decideEq

/-- A whole number as a value: a float where 64 bits with a sign cannot hold it. -/
def ofInteger (n : WideInteger) : Value :=
  if n.1 < 0x8000000000000000 then .int (Int64.ofInt n.1) else .float n.1.toNat.toUInt64.toFloat

mutual

/-- The value of a JSON value, by its kind. -/
def ofJson : Json → Except ShapeError Value
  | .null => .error .null
  | .bool b => .ok (.bool b)
  | .integer n => .ok (ofInteger n)
  | .float x => .ok (.float x.1)
  | .text s => .ok (.text s)
  | .array items =>
    match ofItems items with
    | .error e => .error e
    | .ok vs => .ok (.sequence vs)
  | .object _ => .error .object

/-- The values of JSON values; the first that is no value counts. -/
def ofItems : List Json → Except ShapeError (List Value)
  | [] => .ok []
  | x :: xs =>
    match ofJson x with
    | .error e => .error e
    | .ok v =>
      match ofItems xs with
      | .error e => .error e
      | .ok vs => .ok (v :: vs)

end

mutual

/-- A value as JSON; an infinite or undefined float becomes null. -/
def toJson : Value → Json
  | .bool b => .bool b
  | .int n => .integer ⟨n.toInt, by have := n.le_toInt; have := n.toInt_lt; omega⟩
  | .float x => if h : x.isFinite = true then .float ⟨x, h⟩ else .null
  | .text s => .text s
  | .sequence items => .array (toItems items)

/-- Values as elements of a JSON array. -/
def toItems : List Value → List Json
  | [] => []
  | v :: vs => toJson v :: toItems vs

end

/-! ## Reading by trial -/

/-- A truth value, if it is one. -/
def bool? : Json → Option Bool
  | .bool b => some b
  | _ => none

/-- A whole number of 64 bits, if it is one. -/
def int? : Json → Option Int64
  | .integer n => if n.1 < 0x8000000000000000 then some (Int64.ofInt n.1) else none
  | _ => none

/-- A number as a double. -/
def float? : Json → Option Float
  | .integer n => some (if 0 ≤ n.1 then n.1.toNat.toUInt64.toFloat else (Int64.ofInt n.1).toFloat)
  | .float x => some x.1
  | _ => none

/-- A text, if it is one. -/
def text? : Json → Option String
  | .text s => some s
  | _ => none

mutual

/-- Tries to read a truth value, a whole number, a float, a text and a sequence, in this order. -/
def ofJsonByTrial? (j : Json) : Option Value :=
  (bool? j).map .bool
    <|> (int? j).map .int
    <|> (float? j).map .float
    <|> (text? j).map .text
    <|> match j with
      | .array items => (ofItemsByTrial? items).map .sequence
      | _ => none

/-- Tries to read every element. -/
def ofItemsByTrial? : List Json → Option (List Value)
  | [] => some []
  | x :: xs =>
    match ofJsonByTrial? x with
    | none => none
    | some v => (ofItemsByTrial? xs).map (v :: ·)

end

/-! ## Views -/

/-- The name of a value's kind in messages. -/
def kindName : Value → String
  | .bool _ => "bool"
  | .int _ => "int"
  | .float _ => "float"
  | .text _ => "string"
  | .sequence _ => "sequence"

/-- The truth value. -/
def asBool? : Value → Option Bool
  | .bool b => some b
  | _ => none

/-- The number; whole numbers become doubles. -/
def asDouble? : Value → Option Float
  | .int n => some n.toFloat
  | .float x => some x
  | _ => none

/-- The whole number. -/
def asInt? : Value → Option Int64
  | .int n => some n
  | _ => none

/-- The text. -/
def asText? : Value → Option String
  | .text s => some s
  | _ => none

/-- The elements. -/
def asSequence? : Value → Option (List Value)
  | .sequence items => some items
  | _ => none

mutual

/-- A value as it stands in messages. -/
def display : Value → String
  | .bool b => if b then "true" else "false"
  | .int n => toString n.toInt
  | .float x => doubleText x
  | .text s => quoted s
  | .sequence items => "[" ++ String.intercalate ", " (displayItems items) ++ "]"

/-- Values as they stand in messages. -/
def displayItems : List Value → List String
  | [] => []
  | v :: vs => display v :: displayItems vs

end

/-- A value in a report. -/
def report (v : Value) : Report := .ofJson v.toJson

end Value

end BranchingDialogue
