import Mathlib

/-!
# Whole numbers become finite doubles

A whole number that 64 bits hold is far below the largest double, so its conversion is an ordinary
number, not infinity: `isFinite_toFloat`. The bounds follow the conversion step by step: it shifts
the number to 53 digits, rounds, shifts once more if rounding gave a digit too many, and packs. No
step takes the exponent anywhere near 971, where doubles end, so the bounds are generous.
-/

namespace BranchingDialogue

open Float.Model Float.Model.UnpackedFloat

theorem mantissa_shiftRight_le (em : ExtendedMantissa) (k : Nat) :
    (em >>> k).mantissa ≤ em.mantissa := by
  induction k with
  | zero => exact Nat.le_refl _
  | succ k ih => exact Nat.le_trans (Nat.div_le_self _ 2) ih

theorem roundedMantissa_le (em : ExtendedMantissa) : em.roundedMantissa ≤ em.mantissa + 1 := by
  obtain ⟨mantissa, roundBit, stickyBit⟩ := em
  cases roundBit <;> cases stickyBit <;>
    simp only [ExtendedMantissa.roundedMantissa, ExtendedMantissa.accuracy,
      Accuracy.roundToNearestEven] <;> omega

/-- The exponent that a number below a power of two is shifted to. -/
theorem targetExponent_le {m bits : Nat} (hpos : 0 < bits) (hm : m < 2 ^ bits) (e : Int) :
    Format.binary64.targetExponent (totalExponent m e) ≤ max (bits + e - 53) (-1074) := by
  have hlog : m.log2 + 1 ≤ bits := by
    by_cases h : m = 0
    · subst h
      exact hpos
    · exact (Nat.log2_lt h).2 hm
  have hmin : Format.binary64.minExponent = -1074 := by decide
  have hbits : Format.binary64.mantissaBits = 53 := by decide
  rw [Format.targetExponent, hmin, hbits, totalExponent]
  omega

/-- Shifting drops digits, and raises the exponent at most to where the number has 53. -/
theorem shiftToTargetExponent_le {m bits : Nat} (hpos : 0 < bits) (hm : m < 2 ^ bits) (e : Int) :
    (shiftToTargetExponent .binary64 m e .exact).1.mantissa ≤ m
      ∧ (shiftToTargetExponent .binary64 m e .exact).2
          ≤ max e (max (bits + e - 53) (-1074)) := by
  refine ⟨mantissa_shiftRight_le _ _, ?_⟩
  have htarget := targetExponent_le hpos hm e
  simp only [shiftToTargetExponent, shiftToExponent]
  omega

/-- Zero, or a number with a moderate exponent. -/
def Moderate : UnpackedFloat → Prop
  | .zero _ => True
  | .finite _ _ e _ => e ≤ 75
  | _ => False

/-- A number of up to 64 digits is rounded to one with a moderate exponent. -/
theorem moderate_round {n : Nat} (hn : n < 2 ^ 64) :
    Moderate (UnpackedFloat.round .binary64 .positive n 0) := by
  have hmin : Format.binary64.minExponent = -1074 := by decide
  have hbits : Format.binary64.mantissaBits = 53 := by decide
  -- The number is shifted left first, by 52 places at most.
  have hleft : (0 - Format.binary64.targetExponent (totalExponent n 0)).toNat ≤ 52 := by
    rw [Format.targetExponent, hmin, hbits, totalExponent]
    omega
  generalize hs : (0 - Format.binary64.targetExponent (totalExponent n 0)).toNat = s at hleft
  have hm₀ : n <<< s < 2 ^ (64 + s) := by
    rw [Nat.shiftLeft_eq, Nat.pow_add]
    exact Nat.mul_lt_mul_of_pos_right hn (Nat.two_pow_pos s)
  have hfirst := shiftToTargetExponent_le (by omega) hm₀ (0 - s)
  generalize hone : shiftToTargetExponent .binary64 (n <<< s) (0 - s) .exact = one at hfirst
  obtain ⟨em, e₁⟩ := one
  obtain ⟨hmantissa, hexponent⟩ := hfirst
  simp only at hmantissa hexponent
  have hrounded : em.roundedMantissa < 2 ^ (65 + s) := by
    have hle := roundedMantissa_le em
    have hpow : 2 ^ (65 + s) = 2 ^ (64 + s) + 2 ^ (64 + s) := by
      rw [show 65 + s = (64 + s) + 1 by omega, Nat.pow_succ]
      omega
    have hone : 0 < 2 ^ (64 + s) := Nat.two_pow_pos _
    omega
  obtain ⟨-, hsecond⟩ := shiftToTargetExponent_le (by omega) hrounded e₁
  simp only [UnpackedFloat.round, decreaseExponent, hs, roundWithAccuracy, hone]
  split
  · trivial
  · show Prod.snd _ ≤ 75
    omega

/-- Packing keeps such numbers finite. -/
theorem isFinite_unpack_pack {f : UnpackedFloat} (hf : Moderate f) :
    (UnpackedFloat.unpack .binary64 (UnpackedFloat.pack .binary64 f)).isFinite = true := by
  have hexponent : unpackExponent (UnpackedFloat.pack .binary64 f) ≠ -1#_ := by
    cases f with
    | infinity => exact absurd hf id
    | notANumber => exact absurd hf id
    | zero sign =>
      rw [UnpackedFloat.pack, packedZero, unpackExponent_packComponents]
      decide
    | finite sign m e hm =>
      have he : e ≤ 75 := hf
      have hbias : Format.binary64.exponentBias = 1023 := by decide
      have hbiased : (e + 1023 + 52).toNat ≤ 1150 := by omega
      simp only [UnpackedFloat.pack, hbias]
      split
      · omega
      · split
        · rw [unpackExponent_packComponents]
          intro h
          have hbits := congrArg BitVec.toNat h
          rw [BitVec.toNat_ofNat] at hbits
          have hones : (-1#11 : BitVec 11).toNat = 2047 := by decide
          omega
        · rw [unpackExponent_packComponents]
          decide
  rw [UnpackedFloat.unpack]
  simp only [if_neg hexponent]
  split
  · split <;> rfl
  · rfl

/-- A whole number that 64 bits hold becomes an ordinary double. -/
theorem isFinite_toFloat (n : UInt64) : n.toFloat.isFinite = true := by
  refine isFinite_unpack_pack ?_
  rw [UnpackedFloat.ofUInt64, UnpackedFloat.ofNat, UnpackedFloat.ofInt,
    UnpackedFloat.normalize]
  by_cases h : n.toNat = 0
  · rw [h]
    trivial
  · have hgt : compare (n.toNat : Int) 0 = .gt := by
      rw [Int.compare_eq_gt]
      omega
    rw [hgt]
    exact moderate_round n.toNat_lt

end BranchingDialogue
