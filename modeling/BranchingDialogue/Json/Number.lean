import BranchingDialogue.Decimal.Numeral
import BranchingDialogue.Json.Basic
import BranchingDialogue.Json.Fault

/-!
# JSON numbers

A number without fraction and exponent is a whole number if 64 bits can hold it. Every other number
is a float: its leading digits are taken as one 64-bit significand, further digits of the whole
part only raise the exponent, further digits of the fraction are dropped, and the significand is
rounded to a double before one multiplication or division by a power of ten. The value may
therefore differ from the nearest double in its last bits.
-/

namespace BranchingDialogue.Json

/-- A number as read. -/
inductive Number where
  | integer (n : WideInteger)
  | float (x : FiniteFloat)

/-- The largest significand. -/
def significandLimit : Nat := 0xFFFFFFFFFFFFFFFF

/-- The largest exponent. -/
def exponentLimit : Nat := 0x7FFFFFFF

/-- Appends digits to a number while it stays within a limit; returns it with the digits from the
first that does not fit. -/
def absorb (limit : Nat) : Nat → List Char → Nat × List Char
  | n, [] => (n, [])
  | n, c :: cs =>
    let m := 10 * n + Numeral.digitValue c
    if m ≤ limit then absorb limit m cs else (n, c :: cs)

/-- The power of ten as a double, for exponents that a double can reach. -/
def powerOfTen (e : Nat) : Float := Float.ofScientific 1 false e

/-- Scales a double by a power of ten; nothing if the result is infinite. Large negative exponents
are applied in portions, of which four bring every significand to zero. -/
def scale : Nat → Float → Int → Option Float
  | fuel, x, e =>
    if e.natAbs ≤ 308 then
      if 0 ≤ e then
        let y := x * powerOfTen e.toNat
        if y.isInf then none else some y
      else some (x / powerOfTen e.natAbs)
    else if x == 0 then some x
    else if 0 ≤ e then none
    else match fuel with
      | 0 => some x
      | fuel + 1 => scale fuel (x / powerOfTen 308) (e + 308)

/-- The float of a significand and an exponent, as a number; a value without a double is out of
range. -/
def floatNumber (negative : Bool) (significand : Nat) (e : Int) (rest : List Char) :
    Reading Number :=
  match scale 4 significand.toUInt64.toFloat e with
  | none => .error (.here .numberOutOfRange rest)
  | some x =>
    let y := if negative then -x else x
    if h : y.isFinite = true then .ok (.float ⟨y, h⟩, rest)
    else .error (.here .numberOutOfRange rest)

/-- Reads the digits of an exponent, after its letter and sign. -/
def exponentDigits (negative : Bool) (significand : Nat) (start : Int) (negativeExponent : Bool)
    (cs : List Char) : Reading Number :=
  match cs with
  | [] => .error (.here .eofInValue [])
  | c :: rest =>
    if !c.isDigit then .error (.next .invalidNumber cs)
    else
      let (digits, after) := Numeral.spanDigits (c :: rest)
      match absorb exponentLimit 0 digits with
      | (e, []) => floatNumber negative significand (if negativeExponent then start - e else start + e) after
      | (_, _ :: excess) =>
        if significand != 0 && !negativeExponent then
          .error (.here .numberOutOfRange (excess ++ after))
        else floatNumber negative 0 0 after

/-- Reads an exponent if there is one, else ends the number. -/
def exponentPart (negative : Bool) (significand : Nat) (start : Int) (cs : List Char) :
    Reading Number :=
  match cs with
  | c :: rest =>
    if c == 'e' || c == 'E' then
      match rest with
      | '+' :: rest => exponentDigits negative significand start false rest
      | '-' :: rest => exponentDigits negative significand start true rest
      | rest => exponentDigits negative significand start false rest
    else floatNumber negative significand start cs
  | [] => floatNumber negative significand start []

/-- Reads the digits after the point, at least one, and what follows them. -/
def fractionPart (negative : Bool) (significand : Nat) (start : Int) (cs : List Char) :
    Reading Number :=
  let (digits, after) := Numeral.spanDigits cs
  match digits with
  | [] =>
    .error (.next (match after with | [] => .eofInValue | _ :: _ => .invalidNumber) after)
  | digits =>
    let (s, dropped) := absorb significandLimit significand digits
    exponentPart negative s (start - (digits.length - dropped.length : Nat)) after

/-- A number without fraction and exponent: whole where 64 bits can hold it; minus zero is a
float. -/
def wholeNumber (negative : Bool) (significand : Nat) (rest : List Char) : Reading Number :=
  let n : Int := if negative then -(significand : Int) else significand
  if h : (-0x8000000000000000 ≤ n ∧ n < 0x10000000000000000) ∧ ¬ (negative = true ∧ n = 0) then
    .ok (.integer ⟨n, h.1⟩, rest)
  else floatNumber negative significand 0 rest

/-- Reads a number after its sign. -/
def readNumber (negative : Bool) (cs : List Char) : Reading Number :=
  match cs with
  | [] => .error (.here .eofInValue [])
  | c :: rest =>
    if !c.isDigit then .error (.next .invalidNumber cs)
    else if c == '0' && (match rest with | d :: _ => d.isDigit | [] => false) then
      .error (.next .invalidNumber rest)
    else
      let (digits, after) := Numeral.spanDigits (c :: rest)
      let (s, excess) := absorb significandLimit 0 digits
      match after with
      | '.' :: after => fractionPart negative s excess.length after
      | d :: after' =>
        if d == 'e' || d == 'E' || !excess.isEmpty then exponentPart negative s excess.length (d :: after')
        else wholeNumber negative s (d :: after')
      | [] => if excess.isEmpty then wholeNumber negative s [] else floatNumber negative s excess.length []

end BranchingDialogue.Json
