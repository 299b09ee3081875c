import BranchingDialogue.Proofs.Rounding.Arithmetic

/-!
# Double precision as rounded numbers

What the theory of rounding says of machine numbers in double precision, as far as a reader of
decimals computes with them: whole numbers and powers of ten are rounded once when they are made, and
products and quotients are rounded once each. Two floats that stand for the same number are the same,
unless it is zero.

Main results:
- `nearest_toFloat`, `nearest_ofScientific`: whole numbers and powers of ten;
- `nearest_mul`, `nearest_div`: operations in terms of numbers;
- `eq_of_exact_eq`: a float is told by its number.
-/

namespace BranchingDialogue.Binary64

open Float.Model Float.Model.UnpackedFloat Rounding

/-- The number that stands for a float. -/
def exact (x : Float) : ℚ := value .binary64 x.toModel.unpack

/-- A float is the one nearest to a number. -/
structure Nearest (x : Float) (q : ℚ) : Prop where
  unpack_ne : x.toModel.unpack ≠ .notANumber
  exact_eq : exact x = nearest .binary64 q

variable {x y : Float} {q : ℚ}

theorem inFormat (x : Float) : InFormat .binary64 x.toModel.unpack :=
  inFormat_unpack (by decide) _

theorem canonical (hx : x.isFinite = true) : Canonical .binary64 x.toModel.unpack :=
  canonical_of_isFinite (inFormat x) hx

theorem abs_exact_lt (hx : x.isFinite = true) : |exact x| < limit .binary64 :=
  abs_value_lt (inFormat x) hx

theorem nearest_of_rounded {f : UnpackedFloat} (h : Rounded .binary64 q f) :
    Nearest (.ofModel (.pack f)) q := by
  obtain ⟨hnan, hvalue⟩ := value_unpack_pack (by decide) h
  exact ⟨hnan, hvalue⟩

/-- What is nearest to a number is an ordinary float, unless the number comes to the end. -/
theorem Nearest.isFinite (h : Nearest x q) (hq : |nearest .binary64 q| < limit .binary64) :
    x.isFinite = true := by
  cases hx : x.isFinite with
  | true => rfl
  | false =>
    have habs : |exact x| = limit .binary64 := abs_value_of_special hx h.unpack_ne
    rw [h.exact_eq] at habs
    exact absurd habs hq.ne

/-- The largest number that is not the end. -/
def largest : ℚ := (2 ^ 53 - 1) * 2 ^ 971

theorem largest_nonneg : 0 ≤ largest :=
  mul_nonneg (by norm_num) (pow_pos two_pos 971).le

theorem largest_lt_limit : largest < limit .binary64 := by
  have hbias : Format.binary64.exponentBias + 1 = 53 + 971 := by decide
  rw [largest, limit, hbias, pow_add]
  exact mul_lt_mul_of_pos_right (by norm_num) (pow_pos two_pos 971)

/-- Numbers with few enough digits are floats. -/
theorem nearest_of_digits {m : ℕ} {e : ℕ} (hm : m < 2 ^ 53) (he : e ≤ 971) :
    nearest .binary64 (m * 2 ^ e) = m * 2 ^ e := by
  have hnonneg : (0 : ℚ) ≤ m * 2 ^ e := by positivity
  have hle : (m : ℚ) * 2 ^ e ≤ largest := by
    have hdigits : (m : ℚ) ≤ 2 ^ 53 - 1 := by
      rw [le_sub_iff_add_le]
      exact_mod_cast hm
    exact mul_le_mul hdigits (pow_le_pow_right₀ one_le_two he) (by positivity) (by norm_num)
  refine nearest_of_grid ?_ ?_
  · rw [abs_of_nonneg hnonneg]
    exact ⟨m, e, hm, (by decide : Format.binary64.minExponent ≤ 0).trans (Int.natCast_nonneg e),
      by rw [zpow_natCast]⟩
  · rw [abs_of_nonneg hnonneg]
    exact hle.trans largest_lt_limit.le

/-- What is nearest to a number that is not beyond the largest one is an ordinary float. -/
theorem Nearest.isFinite_of_abs_le (h : Nearest x q) (hq : |q| ≤ largest) : x.isFinite = true := by
  have hgrid : Grid .binary64 largest :=
    ⟨2 ^ 53 - 1, 971, by decide, by decide, by
      rw [largest, show (971 : ℤ) = (971 : ℕ) from rfl, zpow_natCast]
      norm_num⟩
  exact h.isFinite
    ((abs_nearest_le largest_nonneg hgrid largest_lt_limit.le hq).trans_lt largest_lt_limit)

theorem nearest_nonneg (hq : 0 ≤ q) : 0 ≤ nearest .binary64 q := by
  have hzero : nearest .binary64 0 = 0 :=
    nearest_of_grid (by rw [abs_zero]; exact grid_zero) (by rw [abs_zero]; exact limit_pos.le)
  exact hzero ▸ nearest_mono hq

/-- Rounding adds at most one part in `2 ^ 53` to numbers that are not too small. -/
theorem nearest_le_mul (hq : 1 ≤ q) : nearest .binary64 q ≤ q * (1 + 1 / 2 ^ 53) := by
  have hpos : 0 < q := one_pos.trans_le hq
  have hplace : Format.binary64.minExponent < place .binary64 q := by
    have hlog : 0 ≤ Int.log 2 q := le_log_of_le (by rwa [zpow_zero])
    have hbits : Format.binary64.mantissaBits = 53 := by decide
    have hmin : Format.binary64.minExponent = -1074 := by decide
    unfold place Format.targetExponent
    omega
  exact (nearest_le_roundAbs hpos.le).trans (roundAbs_le_mul hpos hplace)

theorem isInf_eq_false (hx : x.isFinite = true) : x.isInf = false := by
  replace hx : x.toModel.unpack.isFinite = true := hx
  show x.toModel.unpack.isInf = false
  generalize x.toModel.unpack = f at hx ⊢
  cases f with
  | infinity => cases hx
  | notANumber => cases hx
  | zero => rfl
  | finite => rfl

/-! ## Operations -/

theorem nearest_mul (hx : x.isFinite = true) (hy : y.isFinite = true) :
    Nearest (x * y) (exact x * exact y) :=
  nearest_of_rounded (rounded_mul (by decide) (canonical hx) (canonical hy))

theorem nearest_div (hx : x.isFinite = true) (hy : y.isFinite = true) (hzero : exact y ≠ 0) :
    Nearest (x / y) (exact x / exact y) :=
  nearest_of_rounded (rounded_div (canonical hx) (canonical hy) hzero)

/-- Where nothing is divided by less than one, no quotient is beyond the end. -/
theorem isFinite_div (hx : x.isFinite = true) (hy : y.isFinite = true) (hone : 1 ≤ exact y) :
    (x / y).isFinite = true := by
  have hquotient : |exact x / exact y| ≤ |exact x| := by
    rw [abs_div, abs_of_pos (one_pos.trans_le hone)]
    exact div_le_self (abs_nonneg _) hone
  have hlimit := abs_exact_lt hx
  refine (nearest_div hx hy (one_pos.trans_le hone).ne').isFinite (lt_of_le_of_lt ?_ hlimit)
  exact abs_nearest_le (abs_nonneg _) (grid_value (inFormat x)) hlimit.le hquotient

/-- Whole numbers are rounded once. -/
theorem nearest_toFloat (n : UInt64) : Nearest n.toFloat n.toNat := by
  have h := rounded_normalize (F := .binary64) n.toNat 0 .positive
  rw [zpow_zero, mul_one, Int.cast_natCast] at h
  exact nearest_of_rounded h

theorem rounded_ofScientific {e : ℕ} (he : e ≤ 2048) :
    Rounded .binary64 (10 ^ e) (UnpackedFloat.ofScientific .binary64 1 e) := by
  have hdigits : ((1 <<< 53 : ℕ) : ℚ) * 2 ^ (-53 : ℤ) * ((10 ^ e : ℕ) * 2 ^ (0 : ℤ)) = 10 ^ e := by
    have hshift : (1 <<< 53 : ℕ) = 2 ^ 53 := rfl
    rw [hshift]
    norm_num
  have hone : (1 : ℚ) ≤ 10 ^ e := one_le_pow₀ (by norm_num)
  have hlog : 0 ≤ Int.log 2 ((10 : ℚ) ^ e) := le_log_of_le (by rwa [zpow_zero])
  have hplace : (-53 : ℤ) + 0 ≤ place .binary64 (10 ^ e) := by
    have hbits : Format.binary64.mantissaBits = 53 := by decide
    unfold place Format.targetExponent
    omega
  have hten : 0 < 10 ^ e := by positivity
  have hround : Rounded .binary64 (signed (.positive * .positive) (10 ^ e))
      (UnpackedFloat.mul .binary64 (.finite .positive (1 <<< 53) (-53) (by decide))
        (.finite .positive (10 ^ e) 0 hten)) := by
    rw [← hdigits] at hplace ⊢
    exact rounded_mul_of_le (by decide) hten hplace
  have hmachine : UnpackedFloat.ofScientific .binary64 1 e
      = UnpackedFloat.mul .binary64 (.finite .positive (1 <<< 53) (-53) (by decide))
          (.finite .positive (10 ^ e) 0 hten) := by
    have hlarge : ¬((e : ℤ) > 2 ^ Format.binary64.exponentBits) := by
      have hbits : Format.binary64.exponentBits = 11 := by decide
      rw [hbits]
      omega
    have hsmall : ¬((e : ℤ) < -(2 ^ Format.binary64.exponentBits + (Nat.log2 1 : ℤ))) := by
      have hbits : Format.binary64.exponentBits = 11 := by decide
      rw [hbits]
      omega
    unfold UnpackedFloat.ofScientific
    rw [dif_neg one_ne_zero, if_neg hlarge, if_neg hsmall, if_pos (Int.natCast_nonneg e)]
    rfl
  rw [hmachine]
  exact hround

/-- The powers of ten that are looked up are those that would be computed. -/
theorem ofScientific_eq_of_le : ∀ e ≤ 22,
    Float.ofScientific 1 false e = .ofModel (.ofScientific 1 e) := by
  decide +kernel

/-- Powers of ten are rounded once. -/
theorem nearest_ofScientific {e : ℕ} (he : e ≤ 2048) :
    Nearest (Float.ofScientific 1 false e) (10 ^ e) := by
  have hmachine : Float.ofScientific 1 false e = .ofModel (.ofScientific 1 e) := by
    by_cases hle : e ≤ 22
    · exact ofScientific_eq_of_le e hle
    · have hcase : ¬(1 < 2 ^ 53 ∧ e ≤ 22) := fun h => hle h.2
      rw [Float.ofScientific, dif_neg hcase]
      rfl
  rw [hmachine]
  exact nearest_of_rounded (rounded_ofScientific he)

/-! ## Floats and their numbers -/

theorem eq_of_unpack_eq (h : x.toModel.unpack = y.toModel.unpack) : x = y :=
  Float.toBits_inj.1 (UInt64.toBitVec_inj.1
    ((unpack_inj_of_valid x.toModel.valid y.toModel.valid).1 h))

/-- An ordinary float is told by its number, unless that is zero. -/
theorem eq_of_exact_eq (hx : x.isFinite = true) (hy : y.isFinite = true) (hne : exact x ≠ 0)
    (h : exact x = exact y) : x = y :=
  eq_of_unpack_eq ((canonical hx).eq_of_value_eq (canonical hy) hne h)

/-- The sign of an ordinary float is turned round. -/
theorem unpack_neg (hx : x.isFinite = true) : (-x).toModel.unpack = x.toModel.unpack.neg := by
  have hformat := inFormat x
  replace hx : x.toModel.unpack.isFinite = true := hx
  show unpack .binary64 (pack .binary64 x.toModel.unpack.neg) = x.toModel.unpack.neg
  generalize x.toModel.unpack = f at hformat hx ⊢
  cases f with
  | infinity => cases hx
  | notANumber => cases hx
  | zero s => exact unpack_packedZero
  | finite s m e hm => exact unpack_pack_of_fits hm hformat.1 hformat.2

theorem isFinite_neg (hx : x.isFinite = true) : (-x).isFinite = true := by
  show (-x).toModel.unpack.isFinite = true
  rw [unpack_neg hx]
  replace hx : x.toModel.unpack.isFinite = true := hx
  generalize x.toModel.unpack = f at hx ⊢
  cases f <;> first | rfl | cases hx

theorem exact_neg (hx : x.isFinite = true) : exact (-x) = -exact x := by
  unfold exact
  rw [unpack_neg hx]
  replace hx : x.toModel.unpack.isFinite = true := hx
  generalize x.toModel.unpack = f at hx ⊢
  cases f with
  | infinity => cases hx
  | notANumber => cases hx
  | zero => exact neg_zero.symm
  | finite s m e hm =>
    cases s
    · exact (neg_neg _).symm
    · rfl

end BranchingDialogue.Binary64
