import BranchingDialogue.Proofs.Rounding.Special

/-!
# How far rounding goes

A number is rounded by at most half a unit of its last place, that is by a small part of it, or, where
it is so small that it has not all digits, by half the least unit (`abs_nearest_sub_le`). Up and down
are alike (`nearest_neg`).

For floats this says how far the result of an operation is from the exact one. Often it is the exact
one: `Denotes` says which number a float stands for, and what is added, multiplied or divided without
rounding.
-/

namespace BranchingDialogue.Rounding

open Float.Model

variable {F : Format} {q v : ℚ}

theorem abs_nearestEven_sub_le (hq : 0 ≤ q) : |(nearestEven q : ℚ) - q| ≤ 1 / 2 := by
  refine abs_le.2 ⟨?_, by linarith [nearestEven_le_add_half hq]⟩
  have hfloor := Nat.lt_floor_add_one q
  unfold nearestEven
  split
  · next hhalf => linarith
  · split
    · next htie =>
      have hmod : (0 : ℚ) ≤ (⌊q⌋₊ % 2 : ℕ) := Nat.cast_nonneg _
      rw [Nat.cast_add]
      linarith
    · rw [Nat.cast_succ]
      linarith

/-- What is not negative is rounded by at most half a unit of its last place. -/
theorem abs_roundAbs_sub_le_place (hv : 0 ≤ v) : |roundAbs F v - v| ≤ 2 ^ place F v / 2 := by
  have hpos := two_zpow_pos (place F v)
  have hhalf := abs_nearestEven_sub_le (div_nonneg hv hpos.le)
  have hdiff : roundAbs F v - v
      = (nearestEven (v / 2 ^ place F v) - v / 2 ^ place F v) * 2 ^ place F v := by
    rw [roundAbs, sub_mul, div_mul_cancel₀ v hpos.ne']
  rw [hdiff, abs_mul, abs_of_pos hpos]
  linarith [mul_le_mul_of_nonneg_right hhalf hpos.le]

theorem abs_roundAbs_sub_le (hv : 0 ≤ v) :
    |roundAbs F v - v| ≤ v / 2 ^ F.mantissaBits + 2 ^ F.minExponent / 2 := by
  have hleast := two_zpow_pos F.minExponent
  have hpart : 0 ≤ v / 2 ^ F.mantissaBits := div_nonneg hv (by positivity)
  rcases hv.eq_or_lt with rfl | hv'
  · rw [roundAbs_zero, sub_zero, abs_zero]
    linarith
  refine (abs_roundAbs_sub_le_place hv).trans ?_
  rcases (minExponent_le_place (F := F) v).eq_or_lt with heq | hlt
  · rw [← heq]
    linarith
  · linarith [half_unit_le hv' hlt]

theorem abs_roundSigned_sub_le (q : ℚ) :
    |roundSigned F q - q| ≤ |q| / 2 ^ F.mantissaBits + 2 ^ F.minExponent / 2 := by
  rcases le_total 0 q with hq | hq
  · rw [roundSigned_of_nonneg hq, abs_of_nonneg hq]
    exact abs_roundAbs_sub_le hq
  · have hneg : 0 ≤ -q := neg_nonneg.2 hq
    have h := abs_roundAbs_sub_le (F := F) hneg
    have hdiff : roundSigned F q - q = -(roundAbs F (-q) - -q) := by
      rw [← roundSigned_of_nonneg hneg, roundSigned_neg]
      ring
    rwa [hdiff, abs_neg, abs_of_nonpos hq]

theorem nearest_neg (q : ℚ) : nearest F (-q) = -nearest F q := by
  have hlimit := limit_pos (F := F)
  unfold nearest
  rw [roundSigned_neg, ← min_neg_neg, neg_neg, ← max_neg_neg, max_min_distrib_left,
    max_eq_right (by linarith : -limit F ≤ limit F)]

/-- What is not beyond the end is not rounded beyond it. -/
theorem nearest_eq_roundSigned (hq : |q| ≤ limit F) : nearest F q = roundSigned F q := by
  have hlimit := roundSigned_of_grid (F := F) (q := limit F)
    (by rw [abs_of_pos limit_pos]; exact grid_limit)
  obtain ⟨hlow, hhigh⟩ := abs_le.1 hq
  refine nearest_of_abs_le (abs_le.2 ⟨?_, ?_⟩)
  · rw [← hlimit, ← roundSigned_neg]
    exact roundSigned_mono hlow
  · rw [← hlimit]
    exact roundSigned_mono hhigh

/-- **Rounding goes no further than a small part of a number**, or half the least unit. -/
theorem abs_nearest_sub_le (hq : |q| ≤ limit F) :
    |nearest F q - q| ≤ |q| / 2 ^ F.mantissaBits + 2 ^ F.minExponent / 2 := by
  rw [nearest_eq_roundSigned hq]
  exact abs_roundSigned_sub_le q

end BranchingDialogue.Rounding

namespace BranchingDialogue.Binary32

open Rounding

variable {x y z : Float32} {p q : ℚ}

/-- The result of an operation is close to the exact one. -/
theorem Nearest.abs_sub_le (h : Nearest x q) (hq : |q| ≤ 2 ^ 128) :
    |exact x - q| ≤ |q| / 2 ^ 24 + 1 / 2 ^ 150 := by
  have hunit : (2 : ℚ) ^ (-149 : ℤ) / 2 = 1 / 2 ^ 150 := by norm_num
  rw [h.exact_eq, ← hunit]
  exact abs_nearest_sub_le (F := .binary32) hq

/-- A power of two bounds what is rounded. -/
theorem Nearest.of_abs_le (h : Nearest x q) {k : ℕ} (hk : k ≤ 127) (hq : |q| ≤ 2 ^ k) :
    x.isFinite = true ∧ |exact x| ≤ 2 ^ k := by
  have hlimit : (2 : ℚ) ^ k < limit .binary32 :=
    (pow_lt_pow_right₀ (by norm_num) (by omega : k < 128))
  have hgrid : Grid .binary32 ((2 : ℚ) ^ k) := by
    have := grid_zpow (F := .binary32) (e := k) (le_trans (by decide) (Int.natCast_nonneg k))
    rwa [zpow_natCast] at this
  have hle := abs_nearest_le (pow_nonneg (by norm_num) k) hgrid hlimit.le hq
  rw [← h.exact_eq] at hle
  exact ⟨isFinite_iff.2 ⟨h.isNaN, hle.trans_lt hlimit⟩, hle⟩

/-- Whole numbers are rounded once. -/
theorem nearest_ofNat {n : ℕ} (h : n < 2 ^ 64) : Nearest (Scalar.ofNat n) n := by
  have hcast : n.toUInt64.toNat = n := Nat.mod_eq_of_lt h
  have hrounded := rounded_normalize (F := .binary32) n.toUInt64.toNat 0 .positive
  rw [zpow_zero, mul_one, Int.cast_natCast] at hrounded
  have hsmall : Scalar.ofNat n = n.toUInt64.toFloat32 := if_pos h
  rw [hsmall, ← congrArg (Nat.cast (R := ℚ)) hcast]
  exact nearest_of_rounded hrounded

/-! ## Exact results -/

/-- A float is an ordinary one and stands for a number. -/
structure Denotes (x : Float32) (q : ℚ) : Prop where
  isFinite : x.isFinite = true
  exact_eq : exact x = q

theorem denotes_exact (hx : x.isFinite = true) : Denotes x (exact x) := ⟨hx, rfl⟩

theorem denotes_zero : Denotes Scalar.zero 0 := ⟨isFinite_zero, exact_zero⟩

/-- What is nearest to the number of an ordinary float stands for it. -/
theorem Denotes.of_nearest (hx : Denotes x q) (hz : Nearest z q) : Denotes z q := by
  have hexact : exact z = q := by rw [hz.exact_eq, ← hx.exact_eq, nearest_exact]
  refine ⟨isFinite_iff.2 ⟨hz.isNaN, ?_⟩, hexact⟩
  rw [hexact, ← hx.exact_eq]
  exact abs_exact_lt hx.isFinite

theorem denotes_add_zero (hx : Denotes x q) (hy : Denotes y 0) : Denotes (x + y) q := by
  have hsum := nearest_add hx.isFinite hy.isFinite
  rw [hx.exact_eq, hy.exact_eq, add_zero] at hsum
  exact hx.of_nearest hsum

theorem denotes_zero_add (hx : Denotes x 0) (hy : Denotes y q) : Denotes (x + y) q := by
  have hsum := nearest_add hx.isFinite hy.isFinite
  rw [hx.exact_eq, hy.exact_eq, zero_add] at hsum
  exact hy.of_nearest hsum

theorem denotes_sub_self (hx : Denotes x q) (hy : Denotes y q) : Denotes (x - y) 0 := by
  have hdifference := nearest_sub hx.isFinite hy.isFinite
  rw [hx.exact_eq, hy.exact_eq, sub_self] at hdifference
  exact denotes_zero.of_nearest hdifference

theorem denotes_mul_zero (hx : x.isFinite = true) (hy : Denotes y 0) : Denotes (x * y) 0 := by
  have hproduct := nearest_mul hx hy.isFinite
  rw [hy.exact_eq, mul_zero] at hproduct
  exact denotes_zero.of_nearest hproduct

theorem denotes_zero_mul (hx : Denotes x 0) (hy : y.isFinite = true) : Denotes (x * y) 0 := by
  have hproduct := nearest_mul hx.isFinite hy
  rw [hx.exact_eq, zero_mul] at hproduct
  exact denotes_zero.of_nearest hproduct

theorem denotes_one_mul (hx : Denotes x 1) (hy : Denotes y q) : Denotes (x * y) q := by
  have hproduct := nearest_mul hx.isFinite hy.isFinite
  rw [hx.exact_eq, hy.exact_eq, one_mul] at hproduct
  exact hy.of_nearest hproduct

theorem denotes_zero_div (hx : Denotes x 0) (hy : y.isFinite = true) (hne : exact y ≠ 0) :
    Denotes (x / y) 0 := by
  have hquotient := nearest_div hx.isFinite hy hne
  rw [hx.exact_eq, zero_div] at hquotient
  exact denotes_zero.of_nearest hquotient

end BranchingDialogue.Binary32
