import BranchingDialogue.Proofs.Rounding.Error
import BranchingDialogue.Proofs.Rounding.Special

/-!
# Floats and counts

A float is turned into a count by rounding its number, halves up; what is below zero counts as zero,
and what is too large as the largest count (`round_eq`). A count is turned into a float by rounding it
to the digits that a float has. That leaves a whole number (`exists_exact_ofNat`), but a count with more
digits is not itself any more (`exact_ofNat_eq_iff`): it is off by up to a part in 2²⁴
(`abs_exact_ofNat_sub_le`).
-/

namespace BranchingDialogue

open Rounding Float.Model Float.Model.UnpackedFloat

/-! ## From floats to counts -/

theorem floor_add_half (n : ℕ) : ⌊(n : ℚ) + 1 / 2⌋₊ = n := by
  rw [Nat.floor_eq_iff (by positivity)]
  constructor <;> linarith

/-- Halves are rounded up. -/
theorem Dyadic.round_eq (m : ℕ) (e : ℤ) : Dyadic.round m e = ⌊(m : ℚ) * 2 ^ e + 1 / 2⌋₊ := by
  unfold Dyadic.round
  split
  · next he =>
    obtain ⟨k, rfl⟩ := Int.eq_ofNat_of_zero_le he
    rw [Int.toNat_natCast, Nat.shiftLeft_eq, zpow_natCast, ← floor_add_half (m * 2 ^ k)]
    push_cast
    rfl
  · next he =>
    obtain ⟨k, hk⟩ := Int.eq_ofNat_of_zero_le (show 0 ≤ -e - 1 by omega)
    have he' : e = -((k + 1 : ℕ) : ℤ) := by push_cast; omega
    have hexponent : (-e).toNat = k + 1 := by omega
    have hsum : (m : ℚ) * 2 ^ e + 1 / 2 = ((m + 2 ^ k : ℕ) : ℚ) / (2 ^ (k + 1) : ℕ) := by
      rw [he', zpow_neg, zpow_natCast]
      push_cast
      field_simp
      ring
    rw [hsum, Nat.floor_div_eq_div, hexponent, Nat.shiftRight_eq_div_pow, Nat.add_sub_cancel,
      Nat.one_shiftLeft]

namespace Binary32

variable {x y : Float32}

/-- The count of a float is its number, rounded. -/
theorem round_eq (x : Float32) : Scalar.round x = min largestCount ⌊exact x + 1 / 2⌋₊ := by
  have hnegative : ∀ {q : ℚ}, q ≤ 0 → min largestCount ⌊q + 1 / 2⌋₊ = 0 := fun hq => by
    rw [Nat.floor_eq_zero.2 (by linarith), Nat.min_zero]
  show toCount Dyadic.round x = _
  unfold toCount exact
  cases hx : x.toModel.unpack with
  | infinity s =>
    cases s with
    | negative => exact (hnegative (neg_nonpos.2 limit_pos.le)).symm
    | positive =>
      have hlimit : (largestCount : ℚ) ≤ limit .binary32 + 1 / 2 := by
        show ((0xFFFFFFFFFFFFFFFF : ℕ) : ℚ) ≤ 2 ^ 128 + 1 / 2
        norm_num
      exact (min_eq_left (Nat.le_floor hlimit)).symm
  | notANumber => exact (hnegative le_rfl).symm
  | zero s => exact (hnegative le_rfl).symm
  | finite s m e hm =>
    cases s with
    | negative => exact (hnegative (neg_nonpos.2 (natCast_mul_zpow_nonneg m e))).symm
    | positive => exact congrArg (min largestCount) (Dyadic.round_eq m e)

theorem round_mono (h : exact x ≤ exact y) : Scalar.round x ≤ Scalar.round y := by
  rw [round_eq, round_eq]
  exact min_le_min_left _ (Nat.floor_mono (by linarith))

theorem round_congr (h : exact x = exact y) : Scalar.round x = Scalar.round y := by
  rw [round_eq, round_eq, h]

end Binary32

/-! ## From counts to floats -/

namespace Rounding

variable {F : Format} {n : ℕ}

/-- A whole number is left as it is, unless it has more digits than the format. -/
theorem roundAbs_natCast (h : place F n ≤ 0) : roundAbs F n = n := by
  obtain ⟨k, hk⟩ := exists_natCast_mul_zpow_div n h
  rw [zpow_zero, mul_one] at hk
  exact roundAbs_of_natCast hk

/-- A whole number is rounded to a whole number. -/
theorem exists_roundAbs_natCast (n : ℕ) : ∃ k : ℕ, roundAbs F n = k := by
  rcases le_total (place F n) 0 with h | h
  · exact ⟨n, roundAbs_natCast h⟩
  · obtain ⟨d, hd⟩ := Int.eq_ofNat_of_zero_le h
    refine ⟨nearestEven ((n : ℚ) / 2 ^ place F n) * 2 ^ d, ?_⟩
    rw [roundAbs, Nat.cast_mul, Nat.cast_pow, Nat.cast_ofNat, ← zpow_natCast (2 : ℚ) d, ← hd]

/-- It is rounded by a small part only, as it has a digit before the point. -/
theorem abs_roundAbs_natCast_sub_le (hF : F.minExponent ≤ 0) (n : ℕ) :
    |roundAbs F n - n| ≤ n / 2 ^ F.mantissaBits := by
  have hpart : (0 : ℚ) ≤ n / 2 ^ F.mantissaBits := by positivity
  rcases le_or_gt (place F n) 0 with h | h
  · rwa [roundAbs_natCast h, sub_self, abs_zero]
  · rcases n.eq_zero_or_pos with rfl | hn
    · rwa [Nat.cast_zero, roundAbs_zero, sub_zero, abs_zero]
    · exact (abs_roundAbs_sub_le_place (Nat.cast_nonneg n)).trans
        (half_unit_le (Nat.cast_pos.2 hn) (hF.trans_lt h))

end Rounding

namespace Binary32

variable {n : ℕ}

theorem exact_ofNat (h : n < 2 ^ 64) : exact (Scalar.ofNat n) = roundAbs .binary32 n := by
  have hsmall : |(n : ℚ)| ≤ limit .binary32 := by
    rw [Nat.abs_cast]
    calc (n : ℚ) ≤ 2 ^ 64 := by exact_mod_cast h.le
      _ ≤ 2 ^ 128 := by norm_num
  rw [(nearest_ofNat h).exact_eq, nearest_eq_roundSigned hsmall,
    roundSigned_of_nonneg (Nat.cast_nonneg n)]

/-- A count is a whole number as a float, too. -/
theorem exists_exact_ofNat (h : n < 2 ^ 64) : ∃ k : ℕ, exact (Scalar.ofNat n) = k := by
  rw [exact_ofNat h]
  exact exists_roundAbs_natCast n

/-- As a float a count is off by a part in 2²⁴ at most. -/
theorem abs_exact_ofNat_sub_le (h : n < 2 ^ 64) : |exact (Scalar.ofNat n) - n| ≤ n / 2 ^ 24 := by
  rw [exact_ofNat h]
  exact abs_roundAbs_natCast_sub_le (F := .binary32) (by decide) n

theorem isFinite_ofNat (h : n < 2 ^ 64) : Float32.isFinite (Scalar.ofNat n) = true := by
  refine ((nearest_ofNat h).of_abs_le (k := 64) (by norm_num) ?_).1
  rw [Nat.abs_cast]
  exact_mod_cast h.le

/-- **A count is itself as a float exactly if it has no more than 24 digits** before its zeros at the
end. -/
theorem exact_ofNat_eq_iff (h : n < 2 ^ 64) :
    exact (Scalar.ofNat n) = n ↔ ∃ m k : ℕ, m < 2 ^ 24 ∧ n = m * 2 ^ k := by
  constructor
  · intro hexact
    obtain ⟨m, e, hm, -, hvalue⟩ := grid_value (inFormat (Scalar.ofNat n))
    replace hvalue : |exact (Scalar.ofNat n)| = m * 2 ^ e := hvalue
    rw [hexact, Nat.abs_cast] at hvalue
    rcases le_total 0 e with he | he
    · obtain ⟨k, rfl⟩ := Int.eq_ofNat_of_zero_le he
      rw [zpow_natCast] at hvalue
      exact ⟨m, k, hm, by exact_mod_cast hvalue⟩
    · have hle : (n : ℚ) ≤ m := hvalue.trans_le
        (mul_le_of_le_one_right (Nat.cast_nonneg m) (zpow_le_one_of_nonpos₀ one_le_two he))
      exact ⟨n, 0, (Nat.cast_le.1 hle).trans_lt hm, (mul_one n).symm⟩
  · rintro ⟨m, k, hm, rfl⟩
    rw [exact_ofNat h]
    refine roundAbs_of_grid ⟨m, k, hm, le_trans (by decide) (Int.natCast_nonneg k), ?_⟩
    push_cast
    rw [zpow_natCast]

end Binary32

end BranchingDialogue
