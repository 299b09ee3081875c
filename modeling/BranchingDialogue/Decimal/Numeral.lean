/-!
# Written decimals

Reading a decimal as people write it: an optional sign, digits with an optional point, an optional
exponent, or a word for an infinite or undefined value. The result is exact; the scalar that takes
it does the rounding.
-/

namespace BranchingDialogue

/-- A decimal as read, before it is rounded to a scalar. -/
inductive Numeral where
  /-- The number `± digits * 10 ^ exponent`. -/
  | number (negative : Bool) (digits : Nat) (exponent : Int)
  /-- An infinite value. -/
  | infinite (negative : Bool)
  /-- An undefined value. -/
  | undefined
  deriving DecidableEq, Repr

namespace Numeral

/-- The value of a decimal digit. -/
def digitValue (c : Char) : Nat := c.toNat - '0'.toNat

/-- The value of a run of decimal digits after the digits already read. -/
def natValue (start : Nat) (ds : List Char) : Nat :=
  ds.foldl (fun n c => 10 * n + digitValue c) start

/-- Splits off the digits at the front. -/
def spanDigits (cs : List Char) : List Char × List Char := cs.span Char.isDigit

/-- Splits off a sign at the front; without one the number is positive. -/
def spanSign : List Char → Bool × List Char
  | '-' :: cs => (true, cs)
  | '+' :: cs => (false, cs)
  | cs => (false, cs)

/-- Reads an exponent, which fills the rest of the text; no exponent is an exponent of zero. -/
def exponent? : List Char → Option Int
  | [] => some 0
  | c :: cs =>
    if c == 'e' || c == 'E' then
      let (negative, ds) := spanSign cs
      if ds.isEmpty || !ds.all Char.isDigit then none
      else some (if negative then -(natValue 0 ds : Int) else (natValue 0 ds : Int))
    else none

/-- Reads an unsigned number: digits before or after the point, or on both sides. -/
def unsigned? (negative : Bool) (cs : List Char) : Option Numeral :=
  let (whole, rest) := spanDigits cs
  let (fraction, rest) :=
    match rest with
    | '.' :: rest => spanDigits rest
    | rest => ([], rest)
  if whole.isEmpty && fraction.isEmpty then none
  else
    (exponent? rest).map fun e =>
      .number negative (natValue (natValue 0 whole) fraction) (e - fraction.length)

/-- Reads a whole text as a number or a special value; words are read in either case. -/
def read? (cs : List Char) : Option Numeral :=
  let (negative, cs) := spanSign cs
  let word := cs.map Char.toLower
  if word = "inf".toList ∨ word = "infinity".toList then some (.infinite negative)
  else if word = "nan".toList then some .undefined
  else unsigned? negative cs

/-- The double nearest to `m * 10 ^ e`. -/
def toDouble (m : Nat) (e : Int) : Float := .ofModel (.ofScientific m e)

end Numeral

end BranchingDialogue
