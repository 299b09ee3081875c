import BranchingDialogue.Decimal.Shortest

/-!
# Written floats

Two ways to write a float by its shortest digits. `plain` never uses an exponent and writes whole
numbers without a point; it is the form of numbers inside messages. `marked` always shows that the
number is a float, by a point or an exponent; it is the form of numbers inside data files.
-/

namespace BranchingDialogue

/-- A float as its text is written: its sign and either a special value, zero or a shortest
decimal. -/
inductive WrittenFloat where
  /-- An undefined value. -/
  | undefined
  /-- An infinite value, negative or not. -/
  | infinite (negative : Bool)
  /-- Zero, which keeps its sign. -/
  | zero (negative : Bool)
  /-- A number with an interval of reals that read back as it. -/
  | number (negative : Bool) (interval : RoundingInterval)
  deriving DecidableEq, Repr

namespace WrittenFloat

open Float.Model (UnpackedFloat)

/-- Reads a float taken apart in a format whose mantissas have `precision` bits and whose smallest
power of two is `2 ^ least`. -/
def ofUnpacked (precision : Nat) (least : Int) : UnpackedFloat → WrittenFloat
  | .notANumber => .undefined
  | .infinity s => .infinite (s == .negative)
  | .zero s => .zero (s == .negative)
  | .finite s m e _ =>
    .number (s == .negative) ⟨m, e, m == Nat.pow 2 (precision - 1) && decide (least < e)⟩

/-- Reads a single-precision float. -/
def ofSingle (x : Float32) : WrittenFloat := ofUnpacked 24 (-149) x.toModel.unpack

/-- Reads a double-precision float. -/
def ofDouble (x : Float) : WrittenFloat := ofUnpacked 53 (-1074) x.toModel.unpack

end WrittenFloat

/-- How an exponent above zero is written. -/
inductive ExponentStyle where
  /-- With its sign, as in `1e+21`. -/
  | signed
  /-- Without a sign, as in `1e21`. -/
  | bare
  deriving DecidableEq, Repr

/-- An exponent. -/
def ExponentStyle.text (style : ExponentStyle) (e : Int) : String :=
  match style with
  | .signed => if 0 < e then "e+" ++ toString e else "e" ++ toString e
  | .bare => "e" ++ toString e

/-- How data files write a float: which point positions are written without an exponent, and how an
exponent looks. -/
structure MarkedLayout where
  /-- The leftmost point position: the digits may start after this many zeros, less one. -/
  firstPoint : Int
  /-- The rightmost point position: more digits before the point need an exponent. -/
  lastPoint : Int
  style : ExponentStyle
  deriving DecidableEq, Repr

/-- Doubles are written in place from `0.00001` up to sixteen digits before the point. -/
def MarkedLayout.double (style : ExponentStyle) : MarkedLayout := ⟨-4, 16, style⟩

/-- Singles are written in place from `0.000001` up to thirteen digits before the point. -/
def MarkedLayout.single (style : ExponentStyle) : MarkedLayout := ⟨-5, 13, style⟩

namespace Digits

/-- A run of zeros. -/
def zeros (n : Nat) : String := String.ofList (List.replicate n '0')

/-- The digits with a point after the first `point` of them. -/
def split (ds : List Char) (point : Nat) : String :=
  String.ofList (ds.take point) ++ "." ++ String.ofList (ds.drop point)

/-- Digits without an exponent; whole numbers have no point. -/
def plain (d : Digits) : String :=
  let ds := (toString d.digits).toList
  let point := ds.length + d.exponent
  if 0 ≤ d.exponent then String.ofList ds ++ zeros d.exponent.toNat
  else if 0 < point then split ds point.toNat
  else "0." ++ zeros (-point).toNat ++ String.ofList ds

/-- Digits with a point or an exponent, as the layout has it. -/
def marked (layout : MarkedLayout) (d : Digits) : String :=
  let ds := (toString d.digits).toList
  let point := ds.length + d.exponent
  if 0 ≤ d.exponent ∧ point ≤ layout.lastPoint then
    String.ofList ds ++ zeros d.exponent.toNat ++ ".0"
  else if 0 < point ∧ point ≤ layout.lastPoint then split ds point.toNat
  else if layout.firstPoint ≤ point ∧ point ≤ 0 then
    "0." ++ zeros (-point).toNat ++ String.ofList ds
  else if ds.length = 1 then String.ofList ds ++ layout.style.text (point - 1)
  else split ds 1 ++ layout.style.text (point - 1)

end Digits

namespace WrittenFloat

/-- The sign of a written number. -/
def sign (negative : Bool) : String := if negative then "-" else ""

/-- The form of numbers inside messages: fewest digits, no exponent, no point in whole numbers. -/
def plain : WrittenFloat → String
  | .undefined => "NaN"
  | .infinite negative => sign negative ++ "inf"
  | .zero negative => sign negative ++ "0"
  | .number negative r => sign negative ++ (Digits.shortest r .up).plain

/-- The form of numbers inside data files; none for values that are not numbers. -/
def marked (layout : MarkedLayout) : WrittenFloat → Option String
  | .undefined => none
  | .infinite _ => none
  | .zero negative => some (sign negative ++ "0.0")
  | .number negative r => some (sign negative ++ (Digits.shortest r .even).marked layout)

/-- The form of numbers inside messages about files: plain, with `.0` after a whole number. -/
def pointed (x : WrittenFloat) : String :=
  match x with
  | .zero _ | .number _ _ =>
    let text := x.plain
    if text.contains '.' then text else text ++ ".0"
  | special => special.plain

end WrittenFloat

/-- A single as it stands inside messages. -/
def singleText (x : Float32) : String := (WrittenFloat.ofSingle x).plain

/-- A double as it stands inside messages. -/
def doubleText (x : Float) : String := (WrittenFloat.ofDouble x).plain

/-- A single as it stands inside data files, unless it is infinite or undefined. -/
def singleDatum? (style : ExponentStyle) (x : Float32) : Option String :=
  (WrittenFloat.ofSingle x).marked (.single style)

/-- A double as it stands inside data files, unless it is infinite or undefined. -/
def doubleDatum? (style : ExponentStyle) (x : Float) : Option String :=
  (WrittenFloat.ofDouble x).marked (.double style)

end BranchingDialogue
