import BranchingDialogue.Json.Text
import BranchingDialogue.Report.Basic
import BranchingDialogue.Scalar
import BranchingDialogue.Text.Blank

/-!
# Colors

Colors of four channels, written as `#rgb`, `#rrggbb` or `#rrggbbaa`, and the ramp from one color to
another over some characters.
-/

namespace BranchingDialogue

/-- A color with its opacity. -/
structure Color where
  red : UInt8
  green : UInt8
  blue : UInt8
  alpha : UInt8
  deriving DecidableEq, Repr

namespace Color

/-- The channels written by hexadecimal digits: one digit a channel, which stands for itself twice, or
two digits a channel; without a digit for the opacity the color is opaque. -/
def ofDigits? : List Nat → Option Color
  | [r, g, b] => some ⟨(17 * r).toUInt8, (17 * g).toUInt8, (17 * b).toUInt8, 255⟩
  | [r, r', g, g', b, b'] =>
    some ⟨(16 * r + r').toUInt8, (16 * g + g').toUInt8, (16 * b + b').toUInt8, 255⟩
  | [r, r', g, g', b, b', a, a'] =>
    some
      ⟨(16 * r + r').toUInt8, (16 * g + g').toUInt8, (16 * b + b').toUInt8, (16 * a + a').toUInt8⟩
  | _ => none

/-- Reads a color; white space around it does not count. -/
def parse? (s : String) : Option Color :=
  match trimSpace s.toList with
  | '#' :: digits => (digits.mapM Json.hexValue?).bind ofDigits?
  | _ => none

variable {α : Type} [Scalar α]

/-- A channel between two others, rounded to the nearest step. -/
def mixChannel (t : α) (a b : UInt8) : UInt8 :=
  let start : α := Scalar.ofNat a.toNat
  (Nat.min 255 (Scalar.round (start + (Scalar.ofNat b.toNat - start) * t))).toUInt8

/-- The color at a fraction of the way from one color to another. -/
def mix (a b : Color) (t : α) : Color :=
  let t := Scalar.clamp Scalar.zero Scalar.one t
  { red := mixChannel t a.red b.red
    green := mixChannel t a.green b.green
    blue := mixChannel t a.blue b.blue
    alpha := mixChannel t a.alpha b.alpha }

/-- A color in a report. -/
def report (c : Color) : Report :=
  .record
    [("r", .nat c.red.toNat), ("g", .nat c.green.toNat), ("b", .nat c.blue.toNat),
      ("a", .nat c.alpha.toNat)]

end Color

/-- A ramp from one color to another over some characters. -/
structure Gradient where
  /-- The first character. -/
  start : Nat
  /-- How many characters it covers. -/
  length : Nat
  first : Color
  last : Color
  deriving DecidableEq, Repr

namespace Gradient

/-- The color of a character, if the gradient covers it. A single character has the first color. -/
def colorAt? (α : Type) [Scalar α] (g : Gradient) (index : Nat) : Option Color :=
  if index < g.start ∨ g.start + g.length ≤ index then none
  else
    let t : α :=
      if g.length ≤ 1 then Scalar.zero
      else Scalar.ofNat (index - g.start) / Scalar.ofNat (g.length - 1)
    some (g.first.mix g.last t)

/-- A gradient in a report. -/
def report (g : Gradient) : Report :=
  .record
    [("start", .nat g.start), ("length", .nat g.length), ("from", g.first.report),
      ("to", g.last.report)]

end Gradient

end BranchingDialogue
