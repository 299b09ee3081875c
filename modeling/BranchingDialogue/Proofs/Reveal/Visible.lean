import BranchingDialogue.Proofs.Reveal.Advancing
import BranchingDialogue.Proofs.Rounding.Count
import BranchingDialogue.Story.Clip

/-!
# How many characters are visible

The visible part of a line is multiplied by its length, and the product is rounded to a count. The part
is at most one and rounding is monotone, so no more is visible than when all is (`round_mul_le`). But
the length is made a float first. When all is visible, as many characters are as this float says
(`roundedLength`), and a float has 24 digits: what a longer number has after these must be zeros, or
the line shows more characters than it has, or never shows its last ones.

Main result: `indexAt_le_roundedLength`.
-/

namespace BranchingDialogue

open Binary32 Rounding

/-- How many characters a line has by the float that its length is made. -/
def roundedLength (length : ℕ) : ℕ := Scalar.round (Scalar.ofNat length : Float32)

variable {length : ℕ}

/-- No part of a line, not even an undefined one, shows more than all of it. -/
theorem round_mul_le (h : length < 2 ^ 64) {v : Float32} (hv : v.isNaN = false → InUnit v) :
    Scalar.round (v * Scalar.ofNat length) ≤ roundedLength length := by
  obtain ⟨k, hk⟩ := exists_exact_ofNat h
  have hlength : 0 ≤ exact (Scalar.ofNat length) := hk ▸ Nat.cast_nonneg k
  refine round_mono ?_
  cases hnan : v.isNaN with
  | true =>
    have hproduct : (v * Scalar.ofNat length).isNaN = true := by
      by_contra hdefined
      rw [(isNaN_of_mul (Bool.eq_false_iff.2 hdefined)).1] at hnan
      cases hnan
    exact (exact_undefined hproduct).trans_le hlength
  | false =>
    have hunit := hv hnan
    exact (nearest_mul hunit.isFinite (isFinite_ofNat h)).exact_le
      (mul_le_of_le_one_left hlength hunit.le_one)

theorem round_one_mul (h : length < 2 ^ 64) :
    Scalar.round (Scalar.one * Scalar.ofNat length : Float32) = roundedLength length :=
  round_congr (denotes_one_mul denotes_one (denotes_exact (isFinite_ofNat h))).exact_eq

/-! ## The length by the float -/

/-- The float's number is counted as it is, unless it is beyond the largest count. -/
theorem roundedLength_eq {k : ℕ} (hk : exact (Scalar.ofNat length) = k) :
    roundedLength length = min largestCount k := by
  rw [roundedLength, round_eq, hk, floor_add_half]

theorem abs_roundedLength_sub_le (h : length ≤ largestCount) :
    |(roundedLength length : ℚ) - length| ≤ length / 2 ^ 24 := by
  obtain ⟨k, hk⟩ := exists_exact_ofNat (Nat.lt_succ_of_le h)
  have hdistance := abs_exact_ofNat_sub_le (Nat.lt_succ_of_le h)
  rw [hk] at hdistance
  rw [roundedLength_eq hk]
  refine le_trans ?_ hdistance
  rcases le_total k largestCount with hle | hle
  · rw [min_eq_right hle]
  · -- The largest count is nearer to the length than the number that is counted as it.
    have hlow : (length : ℚ) ≤ largestCount := Nat.cast_le.2 h
    have hhigh : (largestCount : ℚ) ≤ k := Nat.cast_le.2 hle
    rw [min_eq_left hle, abs_of_nonneg (by linarith), abs_of_nonneg (by linarith)]
    linarith

theorem roundedLength_largestCount : roundedLength largestCount = largestCount := by decide +kernel

/-- A length is right by the float exactly if it has no more than 24 digits before its zeros at the
end, or is the largest count. -/
theorem roundedLength_eq_iff (h : length ≤ largestCount) :
    roundedLength length = length
      ↔ length = largestCount ∨ ∃ m k : ℕ, m < 2 ^ 24 ∧ length = m * 2 ^ k := by
  rw [← exact_ofNat_eq_iff (Nat.lt_succ_of_le h)]
  obtain ⟨k, hk⟩ := exists_exact_ofNat (Nat.lt_succ_of_le h)
  constructor
  · intro heq
    rw [roundedLength_eq hk] at heq
    rw [hk, Nat.cast_inj]
    omega
  · rintro (rfl | hexact)
    · exact roundedLength_largestCount
    · rw [roundedLength_eq hexact, min_eq_right h]

/-! ## Reveals and clips -/

namespace Reveal

theorem indexAt_le (h : length < 2 ^ 64) (r : Reveal Float32) (t start : Float32) :
    r.indexAt t start length ≤ roundedLength length := by
  refine round_mul_le h fun hnan => ?_
  cases hvalue : (r.inUse.evaluate (r.intervalAt t start)).isNaN with
  | false => exact inUnit_clamp hvalue
  | true =>
    rw [visibilityAt, clamp_undefined hvalue, hvalue] at hnan
    cases hnan

theorem indexAt_of_visibilityAt_one (h : length < 2 ^ 64) {r : Reveal Float32} {t start : Float32}
    (hall : r.visibilityAt t start = Scalar.one) :
    r.indexAt t start length = roundedLength length := by
  rw [indexAt, hall, round_one_mul h]

theorem visibilityAt_steady :
    (steady Scalar.one : Reveal Float32).visibilityAt Scalar.one Scalar.zero = Scalar.one := by
  decide +kernel

end Reveal

theorem Clip.visibleChars_le {c : Clip Float32} (h : c.text.length < 2 ^ 64) (t : Float32) :
    c.visibleChars t ≤ max c.text.length (roundedLength c.text.length) := by
  unfold visibleChars
  split
  · next r _ => exact le_max_of_le_right (r.indexAt_le h t c.startTime)
  · exact le_max_left _ _

/-- **A line shows as many characters as its length has as a float, when all of it is visible, and never
more.** This holds for any curve, floats and length. So no reveal shows more than the line has, or less
when all is visible, exactly if the length stays what it is as a float: if it is less than 2²⁴, has only
zeros after its first 24 digits, or is the largest count. Any other length is off by up to a part in
2²⁴, and already a reveal at constant speed shows it so. -/
theorem indexAt_le_roundedLength (h : length ≤ largestCount) :
    (∀ (r : Reveal Float32) (t start : Float32), r.indexAt t start length ≤ roundedLength length
        ∧ (r.visibilityAt t start = Scalar.one → r.indexAt t start length = roundedLength length))
      ∧ ((∀ (r : Reveal Float32) (t start : Float32), r.indexAt t start length ≤ length)
          ↔ roundedLength length ≤ length)
      ∧ ((∀ (r : Reveal Float32) (t start : Float32), r.visibilityAt t start = Scalar.one →
            r.indexAt t start length = length)
          ↔ roundedLength length = length)
      ∧ (roundedLength length = length
          ↔ length = largestCount ∨ ∃ m k : ℕ, m < 2 ^ 24 ∧ length = m * 2 ^ k)
      ∧ |(roundedLength length : ℚ) - length| ≤ length / 2 ^ 24
      ∧ ∀ c : Clip Float32, c.text.length = length → ∀ t,
          c.visibleChars t ≤ max length (roundedLength length) := by
  have hlt : length < 2 ^ 64 := Nat.lt_succ_of_le h
  have hsteady := Reveal.indexAt_of_visibilityAt_one hlt Reveal.visibilityAt_steady
  refine ⟨fun r t start => ⟨r.indexAt_le hlt t start, Reveal.indexAt_of_visibilityAt_one hlt⟩,
    ⟨fun hbound => ?_, ?_⟩, ⟨fun hall => ?_, ?_⟩, roundedLength_eq_iff h,
    abs_roundedLength_sub_le h, ?_⟩
  · exact hsteady.symm.trans_le (hbound _ _ _)
  · exact fun hle r t start => (r.indexAt_le hlt t start).trans hle
  · exact hsteady.symm.trans (hall _ _ _ Reveal.visibilityAt_steady)
  · exact fun heq r t start hone => (Reveal.indexAt_of_visibilityAt_one hlt hone).trans heq
  · rintro c rfl t
    exact Clip.visibleChars_le hlt t

/-- A line whose last character is never shown, and one that shows a character more than it has. -/
theorem indexAt_le_roundedLength_beyond :
    let r : Reveal Float32 := .steady Scalar.one
    (16777217 ≤ largestCount ∧ r.visibilityAt Scalar.one Scalar.zero = Scalar.one
        ∧ r.indexAt Scalar.one Scalar.zero 16777217 = 16777216)
      ∧ 16777219 ≤ largestCount ∧ r.visibilityAt Scalar.one Scalar.zero = Scalar.one
        ∧ r.indexAt Scalar.one Scalar.zero 16777219 = 16777220 := by
  intro r
  have hall : r.visibilityAt Scalar.one Scalar.zero = Scalar.one := Reveal.visibilityAt_steady
  have hless : r.indexAt Scalar.one Scalar.zero 16777217 = roundedLength 16777217 :=
    ((indexAt_le_roundedLength (by decide)).1 r _ _).2 hall
  have hmore : r.indexAt Scalar.one Scalar.zero 16777219 = roundedLength 16777219 :=
    ((indexAt_le_roundedLength (by decide)).1 r _ _).2 hall
  exact ⟨⟨by decide, hall, hless.trans (by decide +kernel)⟩,
    by decide, hall, hmore.trans (by decide +kernel)⟩

end BranchingDialogue
