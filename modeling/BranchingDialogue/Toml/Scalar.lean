import BranchingDialogue.Decimal.Numeral
import BranchingDialogue.Json.Text
import BranchingDialogue.Toml.Basic

/-!
# TOML numbers and dates

Underscores may stand between two digits of a number. A whole number has 64 bits with a sign; a float
may be infinite only if it says so or is negative. Of dates and times only the form is read.
-/

namespace BranchingDialogue.Toml

/-- The digits of a number without the underscores between them; none if there is no digit at either
side of an underscore or at either end. -/
def ungroup? (isDigit : Char → Bool) : List Char → Option (List Char)
  | [] => none
  | [c] => if isDigit c then some [c] else none
  | c :: '_' :: cs => if isDigit c then (ungroup? isDigit cs).map (c :: ·) else none
  | c :: cs => if isDigit c then (ungroup? isDigit cs).map (c :: ·) else none

/-- A whole number if 64 bits with a sign can hold it. -/
def bounded? (n : Int) : Option Toml :=
  if -0x8000000000000000 ≤ n ∧ n < 0x8000000000000000 then some (.integer n) else none

/-- Digits that may stand before the point: no needless zero in front. -/
def wholeDigits? (cs : List Char) : Option (List Char) :=
  match cs with
  | '0' :: _ :: _ => none
  | cs => ungroup? Char.isDigit cs

/-- The number of digits of some base. -/
def based? (base : Nat) (cs : List Char) : Option Toml :=
  let value? (c : Char) : Option Nat := (Json.hexValue? c).filter (· < base)
  (ungroup? (fun c => (value? c).isSome) cs).bind fun ds =>
    bounded? (ds.foldl (fun n c => base * n + (value? c).getD 0) 0 : Nat)

/-- A whole number after its sign. -/
def wholeNumber? (negative : Bool) (cs : List Char) : Option Toml :=
  (wholeDigits? cs).bind fun ds =>
    let n : Int := Numeral.natValue 0 ds
    bounded? (if negative then -n else n)

/-- An exponent without its letter. -/
def exponent? (cs : List Char) : Option Int :=
  let (negative, ds) := Numeral.spanSign cs
  (ungroup? Char.isDigit ds).map fun ds =>
    let n : Int := Numeral.natValue 0 ds
    if negative then -n else n

/-- A float after its sign: a whole part and a fraction, an exponent or both. -/
def float? (negative : Bool) (cs : List Char) : Option Toml :=
  let isMark (c : Char) : Bool := c == 'e' || c == 'E'
  let mantissa := cs.takeWhile (!isMark ·)
  let whole := mantissa.takeWhile (· != '.')
  let fraction? : Option (List Char) :=
    match mantissa.dropWhile (· != '.') with
    | [] => some []
    | _ :: ds => ungroup? Char.isDigit ds
  let e? : Option Int :=
    match cs.dropWhile (!isMark ·) with
    | [] => some 0
    | _ :: rest => exponent? rest
  match wholeDigits? whole, fraction?, e? with
  | some whole, some fraction, some e =>
    let x :=
      Numeral.toDouble (Numeral.natValue (Numeral.natValue 0 whole) fraction) (e - fraction.length)
    if negative then some (.float (-x)) else if x.isInf then none else some (.float x)
  | _, _, _ => none

/-- A word that is a float. -/
def floatWord? (negative : Bool) (cs : List Char) : Option Toml :=
  let sign (x : Float) : Toml := .float (if negative then -x else x)
  if cs = "inf".toList then some (sign (1.0 / 0.0))
  else if cs = "nan".toList then some (sign (0.0 / 0.0))
  else none

/-! ## Dates -/

/-- Reads a number of exactly so many digits between two bounds. -/
def fixed? (width low high : Nat) (cs : List Char) : Reading Nat :=
  let ds := cs.take width
  let n := Numeral.natValue 0 ds
  if ds.length = width ∧ ds.all Char.isDigit ∧ low ≤ n ∧ n ≤ high then some (n, cs.drop width)
  else none

/-- Reads one of some characters. -/
def mark? (allowed : List Char) : List Char → Option (List Char)
  | [] => none
  | c :: cs => if allowed.contains c then some cs else none

/-- How many days a month has. -/
def daysIn (year month : Nat) : Nat :=
  if month = 2 then
    if year % 4 = 0 ∧ (year % 100 ≠ 0 ∨ year % 400 = 0) then 29 else 28
  else if month = 4 ∨ month = 6 ∨ month = 9 ∨ month = 11 then 30
  else 31

/-- Reads a day of the calendar. -/
def day? (cs : List Char) : Option (List Char) := do
  let (year, cs) ← fixed? 4 0 9999 cs
  let (month, cs) ← fixed? 2 1 12 (← mark? ['-'] cs)
  let (_, cs) ← fixed? 2 1 (daysIn year month) (← mark? ['-'] cs)
  some cs

/-- Reads a time of day. -/
def time? (cs : List Char) : Option (List Char) := do
  let (_, cs) ← fixed? 2 0 23 cs
  let (_, cs) ← fixed? 2 0 59 (← mark? [':'] cs)
  let (_, cs) ← fixed? 2 0 60 (← mark? [':'] cs)
  match cs with
  | '.' :: c :: rest => if c.isDigit then some (rest.dropWhile Char.isDigit) else none
  | cs => some cs

/-- Reads the distance of a time zone, if there is one. -/
def zone? (cs : List Char) : Option (List Char) :=
  match cs with
  | c :: rest =>
    if c == 'Z' || c == 'z' then some rest
    else if c == '+' || c == '-' then do
      let (_, cs) ← fixed? 2 0 23 rest
      let (_, cs) ← fixed? 2 0 59 (← mark? [':'] cs)
      some cs
    else some (c :: rest)
  | [] => some []

/-- Reads a date, a time, or a date with a time after it. -/
def readDate (cs : List Char) : Option (List Char) :=
  match day? cs with
  | some rest =>
    match (mark? ['T', 't', ' '] rest).bind time? with
    | some rest => zone? rest
    | none => some rest
  | none => time? cs

/-! ## Both -/

/-- The characters of a number or a word. -/
def isTokenChar (c : Char) : Bool := c.isAlphanum || c == '_' || c == '+' || c == '-' || c == '.'

/-- The value of a number or a word. -/
def token? (cs : List Char) : Option Toml :=
  let signed := cs.head?.any fun c => c == '+' || c == '-'
  let (negative, rest) := Numeral.spanSign cs
  if cs = "true".toList then some (.bool true)
  else if cs = "false".toList then some (.bool false)
  else
    match if signed then none else some cs with
    | some ('0' :: 'x' :: ds) => based? 16 ds
    | some ('0' :: 'o' :: ds) => based? 8 ds
    | some ('0' :: 'b' :: ds) => based? 2 ds
    | _ => floatWord? negative rest <|> wholeNumber? negative rest <|>
      if rest.any fun c => c == '.' || c == 'e' || c == 'E' then float? negative rest else none

/-- Reads a number, a word or a date. -/
def readToken (cs : List Char) : Reading Toml :=
  match readDate cs with
  | some rest => some (.date, rest)
  | none => (token? (cs.takeWhile isTokenChar)).map (·, cs.dropWhile isTokenChar)

end BranchingDialogue.Toml
