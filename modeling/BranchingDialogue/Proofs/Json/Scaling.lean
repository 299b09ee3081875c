import BranchingDialogue.Json.Number
import BranchingDialogue.Proofs.Finite
import BranchingDialogue.Proofs.Rounding.Double

/-!
# Scaling by powers of ten

The reader of numbers rounds a significand to a double, rounds a power of ten to another, and
multiplies the two or divides one by the other, which rounds once more.

A quotient is never too large, so a number with a negative exponent is always found
(`exists_scale_of_neg`). A product is if three roundings can lift it over the largest double
(`exists_scale_of_le`). Small significands and powers of ten are doubles themselves, so with them
only the last rounding is left and the nearest double is found (`nearest_of_scale`).
-/

namespace BranchingDialogue.Json

open Binary64 Rounding

variable {x y : Float} {n : UInt64} {e : Int} {j : Nat}

/-! ## Operands -/

theorem ten_pow_le_largest_iff : (10 : ℚ) ^ j ≤ largest ↔ j ≤ 308 := by
  have hlargest : largest = (((2 ^ 53 - 1) * 2 ^ 971 : ℕ) : ℚ) := by
    rw [largest, Nat.cast_mul, Nat.cast_pow, Nat.cast_ofNat]
    norm_num
  have hten : 10 ^ 308 ≤ (2 ^ 53 - 1) * 2 ^ 971 ∧ (2 ^ 53 - 1) * 2 ^ 971 < 10 ^ 309 := by
    decide +kernel
  have hpow : (10 : ℚ) ^ j = ((10 ^ j : ℕ) : ℚ) := by rw [Nat.cast_pow, Nat.cast_ofNat]
  rw [hlargest, hpow, Nat.cast_le]
  constructor
  · intro h
    by_contra hlarge
    have hbeyond : 309 ≤ j := by omega
    exact absurd ((pow_le_pow_right₀ (by decide) hbeyond).trans h) (not_le.2 hten.2)
  · exact fun h => (pow_le_pow_right₀ (by decide) h).trans hten.1

theorem nearest_powerOfTen (hj : j ≤ 308) : Nearest (powerOfTen j) (10 ^ j) :=
  nearest_ofScientific (by omega)

theorem isFinite_powerOfTen (hj : j ≤ 308) : (powerOfTen j).isFinite = true := by
  refine (nearest_powerOfTen hj).isFinite_of_abs_le ?_
  rw [abs_of_nonneg (by positivity)]
  exact ten_pow_le_largest_iff.2 hj

theorem one_le_exact_powerOfTen (hj : j ≤ 308) : 1 ≤ exact (powerOfTen j) := by
  have hone := nearest_of_digits (m := 1) (e := 0) (by decide) (by decide)
  rw [Nat.cast_one, pow_zero, mul_one] at hone
  rw [(nearest_powerOfTen hj).exact_eq, ← hone]
  exact nearest_mono (one_le_pow₀ (by norm_num))

/-! ## Quotients -/

/-- **A number with a negative exponent is found**, however large the exponent is. -/
theorem exists_scale_of_neg (fuel : Nat) (hx : x.isFinite = true) (he : e < 0) :
    ∃ y, scale fuel x e = some y ∧ y.isFinite = true := by
  have hdiv : ∀ {x : Float} {j : Nat}, x.isFinite = true → j ≤ 308 →
      (x / powerOfTen j).isFinite = true := fun hx hj =>
    isFinite_div hx (isFinite_powerOfTen hj) (one_le_exact_powerOfTen hj)
  induction fuel generalizing x e with
  | zero =>
    rw [scale]
    split
    · next hsmall =>
      rw [if_neg (by omega)]
      exact ⟨_, rfl, hdiv hx hsmall⟩
    · rw [if_neg (by omega : ¬0 ≤ e), ite_self]
      exact ⟨_, rfl, hx⟩
  | succ fuel ih =>
    rw [scale]
    split
    · next hsmall =>
      rw [if_neg (by omega)]
      exact ⟨_, rfl, hdiv hx hsmall⟩
    · rw [if_neg (by omega : ¬0 ≤ e)]
      split
      · exact ⟨_, rfl, hx⟩
      · exact ih (hdiv hx (le_refl _)) (by omega)

/-! ## Products -/

theorem scale_of_nonneg (fuel : Nat) (he : 0 ≤ e) (hle : e.toNat ≤ 308)
    (hy : (x * powerOfTen e.toNat).isFinite = true) :
    scale fuel x e = some (x * powerOfTen e.toNat) := by
  have hsmall : e.natAbs ≤ 308 := by omega
  have hstep : scale fuel x e = if (x * powerOfTen e.toNat).isInf then none
      else some (x * powerOfTen e.toNat) := by
    cases fuel <;> rw [scale, if_pos hsmall, if_pos he]
  rw [hstep, isInf_eq_false hy]
  rfl

/-- **A product is found** if the roundings of its factors do not lift it over the largest double. -/
theorem exists_scale_of_le (fuel : Nat) (hn : 0 < n.toNat) (he : 0 ≤ e)
    (h : n.toNat * 10 ^ e.toNat * (1 + 1 / 2 ^ 53) ^ 2 ≤ largest) :
    ∃ y, scale fuel n.toFloat e = some y ∧ y.isFinite = true := by
  have hten : (1 : ℚ) ≤ 10 ^ e.toNat := one_le_pow₀ (by norm_num)
  have hdigits : (1 : ℚ) ≤ n.toNat := by exact_mod_cast hn
  have hle : e.toNat ≤ 308 := by
    have hone : (1 : ℚ) ≤ n.toNat * (1 + 1 / 2 ^ 53) ^ 2 :=
      one_le_mul_of_one_le_of_one_le hdigits (by norm_num)
    rw [← ten_pow_le_largest_iff]
    calc (10 : ℚ) ^ e.toNat ≤ 10 ^ e.toNat * (n.toNat * (1 + 1 / 2 ^ 53) ^ 2) :=
          le_mul_of_one_le_right (by positivity) hone
      _ = n.toNat * 10 ^ e.toNat * (1 + 1 / 2 ^ 53) ^ 2 := by ring
      _ ≤ largest := h
  have hfinite : (n.toFloat * powerOfTen e.toNat).isFinite = true := by
    refine (nearest_mul (isFinite_toFloat n) (isFinite_powerOfTen hle)).isFinite_of_abs_le ?_
    rw [(nearest_toFloat n).exact_eq, (nearest_powerOfTen hle).exact_eq,
      abs_of_nonneg (mul_nonneg (nearest_nonneg (by linarith)) (nearest_nonneg (by linarith)))]
    calc nearest .binary64 n.toNat * nearest .binary64 (10 ^ e.toNat)
        ≤ n.toNat * (1 + 1 / 2 ^ 53) * (10 ^ e.toNat * (1 + 1 / 2 ^ 53)) :=
          mul_le_mul (nearest_le_mul hdigits) (nearest_le_mul hten) (nearest_nonneg (by linarith))
            (by positivity)
      _ = n.toNat * 10 ^ e.toNat * (1 + 1 / 2 ^ 53) ^ 2 := by ring
      _ ≤ largest := h
  exact ⟨_, scale_of_nonneg fuel he hle hfinite, hfinite⟩

/-! ## Exact operands -/

theorem exact_toFloat (hn : n.toNat < 2 ^ 53) : exact n.toFloat = n.toNat := by
  have h := nearest_of_digits hn (Nat.zero_le 971)
  rw [pow_zero, mul_one] at h
  rw [(nearest_toFloat n).exact_eq, h]

theorem exact_powerOfTen (hj : j ≤ 22) : exact (powerOfTen j) = 10 ^ j := by
  have hdigits : 5 ^ j < 2 ^ 53 := (Nat.pow_le_pow_right (by decide) hj).trans_lt (by decide)
  have h := nearest_of_digits hdigits (show j ≤ 971 by omega)
  rw [Nat.cast_pow, ← mul_pow] at h
  rw [(nearest_powerOfTen (by omega)).exact_eq]
  norm_num at h
  exact h

/-- **With a small significand and a small exponent the nearest double is found.** -/
theorem nearest_of_scale {fuel : Nat} (hn : n.toNat < 2 ^ 53) (he : e.natAbs ≤ 22)
    (h : scale fuel n.toFloat e = some y) : Nearest y (n.toNat * 10 ^ e) := by
  have hsmall : e.natAbs ≤ 308 := by omega
  have hstep : scale fuel n.toFloat e = if 0 ≤ e then
      (if (n.toFloat * powerOfTen e.toNat).isInf then none
        else some (n.toFloat * powerOfTen e.toNat))
      else some (n.toFloat / powerOfTen e.natAbs) := by
    cases fuel <;> rw [scale, if_pos hsmall]
  have hfinite := isFinite_toFloat n
  rw [hstep] at h
  split at h
  · next hnonneg =>
    have hj : e.toNat ≤ 22 := by omega
    have hproduct := nearest_mul hfinite (isFinite_powerOfTen (j := e.toNat) (by omega))
    rw [exact_toFloat hn, exact_powerOfTen hj, ← zpow_natCast,
      Int.toNat_of_nonneg hnonneg] at hproduct
    split at h
    · cases h
    · cases h
      exact hproduct
  · next hneg =>
    cases h
    have hone := one_le_exact_powerOfTen hsmall
    have hquotient := nearest_div hfinite (isFinite_powerOfTen hsmall) (one_pos.trans_le hone).ne'
    have hexponent : e = -(e.natAbs : Int) := by omega
    rw [exact_toFloat hn, exact_powerOfTen he, div_eq_mul_inv, ← zpow_natCast, ← zpow_neg,
      ← hexponent] at hquotient
    exact hquotient

end BranchingDialogue.Json
