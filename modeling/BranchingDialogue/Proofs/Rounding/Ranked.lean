import BranchingDialogue.Proofs.Rounding.Special
import Mathlib.Data.List.Sort

/-!
# The order of bits

Sorting puts floats in the order of their bits, read as whole numbers that fall where the sign is set.
That is the order of their numbers (`exact_le_of_rank_le`): the bits without the sign are the digits
after an exponent, so counting them upwards goes through the numbers of one exponent after those of
the one before it (`magnitude_mono`). Infinity comes after the largest number in the same way.
-/

namespace BranchingDialogue.Binary32

open Float.Model Float.Model.UnpackedFloat Rounding

/-- The number that bits without a sign stand for: digits, with one before them unless the exponent is
the least one. -/
def magnitude (n : ℕ) : ℚ :=
  ((n % 2 ^ 23 + if n / 2 ^ 23 = 0 then 0 else 2 ^ 23 : ℕ) : ℚ) * 2 ^ ((max (n / 2 ^ 23) 1 : ℕ) - 150 : ℤ)

theorem magnitude_nonneg (n : ℕ) : 0 ≤ magnitude n :=
  mul_nonneg (Nat.cast_nonneg _) (two_zpow_pos _).le

theorem magnitude_mono : Monotone magnitude := by
  refine monotone_nat_of_le_succ fun n => ?_
  unfold magnitude
  by_cases hdigits : n % 2 ^ 23 + 1 < 2 ^ 23
  · have hmod : (n + 1) % 2 ^ 23 = n % 2 ^ 23 + 1 := by omega
    have hdiv : (n + 1) / 2 ^ 23 = n / 2 ^ 23 := by omega
    rw [hmod, hdiv]
    refine mul_le_mul_of_nonneg_right ?_ (two_zpow_pos _).le
    exact_mod_cast (by omega : n % 2 ^ 23 + _ ≤ n % 2 ^ 23 + 1 + _)
  · -- After the last digits of an exponent come the first ones of the next.
    have hmod : (n + 1) % 2 ^ 23 = 0 := by omega
    have hdiv : (n + 1) / 2 ^ 23 = n / 2 ^ 23 + 1 := by omega
    rw [hmod, hdiv, if_neg (Nat.succ_ne_zero _), Nat.zero_add]
    by_cases hleast : n / 2 ^ 23 = 0
    · rw [if_pos hleast, hleast]
      refine mul_le_mul_of_nonneg_right ?_ (two_zpow_pos _).le
      exact_mod_cast (by omega : n % 2 ^ 23 + 0 ≤ 2 ^ 23)
    · have hexponent : ((max (n / 2 ^ 23 + 1) 1 : ℕ) - 150 : ℤ)
          = (max (n / 2 ^ 23) 1 : ℕ) - 150 + 1 := by omega
      have hle : ((n % 2 ^ 23 + 2 ^ 23 : ℕ) : ℚ) ≤ (2 ^ 23 : ℕ) * 2 := by
        exact_mod_cast (by omega : n % 2 ^ 23 + 2 ^ 23 ≤ 2 ^ 23 * 2)
      rw [if_neg hleast, hexponent, zpow_add_one₀ two_ne_zero, mul_comm _ (2 : ℚ), ← mul_assoc]
      exact mul_le_mul_of_nonneg_right hle (two_zpow_pos _).le

theorem magnitude_infinity : magnitude infinityBits = limit .binary32 := by
  have hmod : infinityBits % 2 ^ 23 = 0 := rfl
  have hdiv : infinityBits / 2 ^ 23 = 255 := rfl
  have hbias : Format.binary32.exponentBias + 1 = 23 + 105 := rfl
  unfold magnitude limit
  rw [hmod, hdiv, if_neg (by decide), hbias, pow_add]
  norm_num

/-- What bits stand for, by their sign and the bits without it. -/
theorem value_unpack (b : BitVec 32) (hnan : unpack .binary32 b ≠ .notANumber) :
    value .binary32 (unpack .binary32 b)
      = signed (Sign.ofBitVec (@unpackSign .binary32 b)) (magnitude (b.toNat % 2 ^ 31)) := by
  have hlt := b.isLt
  have hexponent := toNat_unpackExponent b
  have hmantissa := toNat_unpackMantissa b
  have hdiv : b.toNat % 2 ^ 31 / 2 ^ 23 = (@unpackExponent .binary32 b).toNat := by omega
  have hmod : b.toNat % 2 ^ 31 % 2 ^ 23 = (@unpackMantissa .binary32 b).toNat := by omega
  have himplicit := toNat_implicit_append (@unpackMantissa .binary32 b)
  revert hnan
  unfold UnpackedFloat.unpack
  simp only
  generalize Sign.ofBitVec (@unpackSign .binary32 b) = s
  split
  · next hlast =>
    rw [hlast] at hdiv
    split
    · next hnone =>
      rw [hnone] at hmod
      have hbits : b.toNat % 2 ^ 31 = infinityBits := by
        replace hdiv : b.toNat % 2 ^ 31 / 2 ^ 23 = 255 := hdiv
        replace hmod : b.toNat % 2 ^ 31 % 2 ^ 23 = 0 := hmod
        unfold infinityBits
        omega
      intro _
      rw [hbits, magnitude_infinity]
      rfl
    · exact fun h => absurd rfl h
  · intro _
    unfold magnitude
    rw [hdiv, hmod]
    split
    · next hleast =>
      rw [hleast]
      split
      · next hnone =>
        rw [hnone]
        show (0 : ℚ) = signed s (((0 : ℕ) : ℚ) * _)
        rw [Nat.cast_zero, zero_mul, signed_zero]
      · rw [if_pos BitVec.toNat_zero, Nat.add_zero]
        rfl
    · next hleast =>
      have hne : (@unpackExponent .binary32 b).toNat ≠ 0 := fun h =>
        hleast (BitVec.eq_of_toNat_eq h)
      have hdigits : (@unpackMantissa .binary32 b).toNat + 2 ^ 23
          = (1#1 ++ @unpackMantissa .binary32 b).toNat := by rw [himplicit, Nat.add_comm]
      rw [if_neg hne, Nat.max_eq_left (Nat.pos_of_ne_zero hne), hdigits]
      rfl

/-! ## Sorting -/

/-- The order in which sorting puts floats is that of their numbers. -/
theorem exact_le_of_rank_le {x y : Float32} (hx : x.isNaN = false) (hy : y.isNaN = false)
    (h : rank x ≤ rank y) : exact x ≤ exact y := by
  have hvalue : ∀ z : Float32, z.isNaN = false → exact z
      = if z.toBits.toNat < 2 ^ 31 then magnitude z.toBits.toNat
        else -magnitude (z.toBits.toNat - 2 ^ 31) := by
    intro z hz
    have hlt : z.toBits.toNat < 2 ^ 32 := z.toBits.toNat_lt
    have hbits := value_unpack z.toBits.toBitVec (isNaN_eq_false_iff.1 hz)
    have hsign := ofBitVec_unpackSign_eq_positive_iff z.toBits.toBitVec
    replace hbits : exact z = signed _ (magnitude (z.toBits.toNat % 2 ^ 31)) := hbits
    replace hsign : _ ↔ z.toBits.toNat < 2 ^ 31 := hsign
    rw [hbits]
    split
    · next hlow => rw [hsign.2 hlow, Nat.mod_eq_of_lt hlow, signed]
    · next hhigh =>
      have hmod : z.toBits.toNat % 2 ^ 31 = z.toBits.toNat - 2 ^ 31 := by omega
      rw [hmod]
      cases hs : Sign.ofBitVec (@unpackSign .binary32 z.toBits.toBitVec) with
      | positive => exact absurd (hsign.1 hs) hhigh
      | negative => rfl
  have hltx : x.toBits.toNat < 2 ^ 32 := x.toBits.toNat_lt
  have hlty : y.toBits.toNat < 2 ^ 32 := y.toBits.toNat_lt
  rw [hvalue x hx, hvalue y hy]
  replace h : (if x.toBits.toNat < 2 ^ 31 then (x.toBits.toNat : ℤ) else 0x7FFFFFFF - x.toBits.toNat)
    ≤ if y.toBits.toNat < 2 ^ 31 then (y.toBits.toNat : ℤ) else 0x7FFFFFFF - y.toBits.toNat := h
  split
  · next hposx =>
    rw [if_pos hposx] at h
    split
    · next hposy =>
      rw [if_pos hposy] at h
      exact magnitude_mono (by exact_mod_cast h)
    · next hnegy =>
      rw [if_neg hnegy] at h
      omega
  · next hnegx =>
    rw [if_neg hnegx] at h
    split
    · exact (neg_nonpos.2 (magnitude_nonneg _)).trans (magnitude_nonneg _)
    · next hnegy =>
      rw [if_neg hnegy] at h
      exact neg_le_neg (magnitude_mono (by omega))

theorem pairwise_mergeSort_rank {β : Type} (key : β → Float32) (xs : List β) :
    (xs.mergeSort fun a b => Scalar.ordered (key a) (key b)).Pairwise
      fun a b => rank (key a) ≤ rank (key b) :=
  List.pairwise_mergeSort' (Order.Preimage (fun b => rank (key b)) (· ≤ ·)) xs

end BranchingDialogue.Binary32
