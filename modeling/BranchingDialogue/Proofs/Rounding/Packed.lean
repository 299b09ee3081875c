import BranchingDialogue.Proofs.Rounding.Unpacked

/-!
# Floats as bits

A float is kept as bits, which have room for the exponents up to an end. What is rounded beyond that
becomes infinite, so a rounded number is kept as `nearest` says: `value_unpack_pack`. Conversely, all
bits that are not those of an infinity or of no number have digits and an exponent of the format.

The machine compares floats by their exponents first and by their digits only where these agree.
Where all digits are of the format this is the order of the numbers: `compare_eq`.

Main results:
- `inFormat_unpack`: bits hold only what is in the format;
- `value_unpack_pack`: what becomes of a rounded number that is kept as bits;
- `compare_eq`: the machine's order is the order of the numbers.
-/

namespace BranchingDialogue.Rounding

open Float.Model Float.Model.UnpackedFloat

variable {F : Format} {s : Sign} {m : ℕ} {e : ℤ}

theorem two_pow_exponentBits : 2 ^ F.exponentBits = 2 * F.exponentBias + 2 := by
  have hbits : F.exponentBits = F.exponentBits - 1 + 1 := by
    have := F.he
    omega
  have hpos := Nat.two_pow_pos (F.exponentBits - 1)
  rw [hbits, pow_succ]
  unfold Format.exponentBias
  omega

theorem minExponent_eq :
    F.minExponent = 1 - (F.exponentBias : ℤ) - F.mantissaBitsWithoutImplicit := by
  have hpos := Nat.two_pow_pos (F.exponentBits - 1)
  have hbits := mantissaBits_eq (F := F)
  have hbias : (F.exponentBias : ℤ) = 2 ^ (F.exponentBits - 1) - 1 := by
    unfold Format.exponentBias
    push_cast [hpos]
    rfl
  unfold Format.minExponent
  omega

theorem exponentBias_pos (hspec : 2 ≤ F.exponentBits) : 0 < F.exponentBias := by
  have hexponents := two_pow_exponentBits (F := F)
  have hpow := Nat.pow_le_pow_right two_pos hspec
  omega

/-- A float of a format is special, or its digits and its exponent are of the format. -/
def InFormat (F : Format) : UnpackedFloat → Prop
  | .finite _ m e _ => Fits F m e ∧ e + F.mantissaBitsWithoutImplicit ≤ F.exponentBias
  | _ => True

/-! ## Bits -/

/-- The first digit, which is not kept, stands before those that are. -/
theorem toNat_implicit_append {n : ℕ} (digits : BitVec n) :
    (1#1 ++ digits).toNat = 2 ^ n + digits.toNat := by
  rw [BitVec.toNat_append, ← Nat.shiftLeft_add_eq_or_of_lt digits.isLt, Nat.shiftLeft_eq]
  simp

theorem toNat_neg_one {n : ℕ} : (-1#n).toNat = 2 ^ n - 1 := by
  rw [BitVec.neg_one_eq_allOnes, BitVec.toNat_allOnes]

/-- **Bits hold only what is in the format.** -/
theorem inFormat_unpack (hspec : 2 ≤ F.exponentBits) (b : BitVec F.numBits) :
    InFormat F (unpack F b) := by
  have hbias := exponentBias_pos hspec
  have hmin := minExponent_eq (F := F)
  have hexponents := two_pow_exponentBits (F := F)
  have hdigits := (unpackMantissa b).isLt
  have hexponent := (unpackExponent b).isLt
  have hbits : 2 ^ F.mantissaBits = 2 * 2 ^ F.mantissaBitsWithoutImplicit := by
    rw [mantissaBits_eq, pow_succ, mul_comm]
  unfold UnpackedFloat.unpack
  simp only
  split
  · split <;> trivial
  · next hspecial =>
    have hlast : (unpackExponent b).toNat ≠ 2 ^ F.exponentBits - 1 := by
      rw [← toNat_neg_one]
      exact fun h => hspecial (BitVec.eq_of_toNat_eq h)
    split
    · next hzero =>
      have hzero' : (unpackExponent b).toNat = 0 := by rw [hzero, BitVec.toNat_zero]
      split
      · trivial
      · refine ⟨⟨by omega, by omega, fun hlt => ?_⟩, by omega⟩
        omega
    · next hzero =>
      have hzero' : (unpackExponent b).toNat ≠ 0 := fun h =>
        hzero (BitVec.eq_of_toNat_eq (by rw [h, BitVec.toNat_zero]))
      refine ⟨⟨?_, by omega, fun _ => ?_⟩, by omega⟩
      · rw [toNat_implicit_append]
        omega
      · rw [toNat_implicit_append]
        omega

theorem unpack_packedInfinity : unpack F (packedInfinity F s) = .infinity s := by
  unfold UnpackedFloat.unpack packedInfinity
  simp

theorem pack_of_lt (hm : 0 < m) (he : (F.exponentBias : ℤ) < e + F.mantissaBitsWithoutImplicit) :
    pack F (.finite s m e hm) = packedInfinity F s := by
  have hexponents := two_pow_exponentBits (F := F)
  unfold UnpackedFloat.pack
  simp only
  rw [if_pos (by omega)]

theorem ofNat_ne_neg_one {n k : ℕ} (h : k + 1 < 2 ^ n) : BitVec.ofNat n k ≠ -1#n := by
  intro heq
  have hnat := congrArg BitVec.toNat heq
  rw [toNat_neg_one, BitVec.toNat_ofNat, Nat.mod_eq_of_lt (by omega)] at hnat
  omega

theorem ofNat_ne_zero {n k : ℕ} (hpos : 0 < k) (h : k < 2 ^ n) : BitVec.ofNat n k ≠ 0#n := by
  intro heq
  have hnat := congrArg BitVec.toNat heq
  rw [BitVec.toNat_zero, BitVec.toNat_ofNat, Nat.mod_eq_of_lt h] at hnat
  omega

/-- Digits with the first one are kept without it. -/
theorem unpack_pack_normal (hm : 0 < m) (h : Fits F m e)
    (hnormal : 2 ^ F.mantissaBitsWithoutImplicit ≤ m)
    (he : e + F.mantissaBitsWithoutImplicit ≤ F.exponentBias) :
    unpack F (pack F (.finite s m e hm)) = .finite s m e hm := by
  have hmin := minExponent_eq (F := F)
  have hexponents := two_pow_exponentBits (F := F)
  have hbits := mantissaBits_eq (F := F)
  have hdouble : 2 ^ F.mantissaBits = 2 * 2 ^ F.mantissaBitsWithoutImplicit := by
    rw [hbits, pow_succ, mul_comm]
  obtain ⟨hdigits, hleast, -⟩ := h
  have hbiased : ((e + F.exponentBias + F.mantissaBitsWithoutImplicit).toNat : ℤ)
      = e + F.exponentBias + F.mantissaBitsWithoutImplicit := Int.toNat_of_nonneg (by omega)
  generalize hb : (e + F.exponentBias + F.mantissaBitsWithoutImplicit).toNat = b at hbiased
  have hroom : b + 1 < 2 ^ F.exponentBits := by omega
  have hlog : m.log2 + 1 = F.mantissaBits := by
    have hle := (Nat.le_log2 hm.ne').2 hnormal
    have hlt := (Nat.log2_lt hm.ne').2 hdigits
    omega
  have hpack : pack F (.finite s m e hm)
      = packComponents F s (BitVec.ofNat _ b) (BitVec.ofNat _ m) := by
    unfold UnpackedFloat.pack
    simp only [hb]
    rw [if_neg (by omega), if_pos hlog]
  have hexponent : (BitVec.ofNat F.exponentBits b).toNat = b := by
    rw [BitVec.toNat_ofNat, Nat.mod_eq_of_lt (by omega)]
  have hmantissa : (1#1 ++ BitVec.ofNat F.mantissaBitsWithoutImplicit m).toNat = m := by
    rw [toNat_implicit_append, BitVec.toNat_ofNat, Nat.mod_eq_sub_mod hnormal,
      Nat.mod_eq_of_lt (by omega)]
    omega
  rw [hpack]
  unfold UnpackedFloat.unpack
  simp only [unpackMantissa_packComponents, unpackExponent_packComponents,
    unpackSign_packComponents, Sign.ofBitVec_toBitVec, ofNat_ne_neg_one hroom,
    ofNat_ne_zero (show 0 < b by omega) (show b < 2 ^ F.exponentBits by omega), if_false,
    hexponent, hmantissa]
  congr 1
  omega

/-- Digits without the first one are kept all, with an exponent of zero for the least one. -/
theorem unpack_pack_subnormal (hm : 0 < m) (hdigits : m < 2 ^ F.mantissaBitsWithoutImplicit)
    (he : F.minExponent + F.mantissaBitsWithoutImplicit ≤ F.exponentBias) :
    unpack F (pack F (.finite s m F.minExponent hm)) = .finite s m F.minExponent hm := by
  have hmin := minExponent_eq (F := F)
  have hexponents := two_pow_exponentBits (F := F)
  have hbits := mantissaBits_eq (F := F)
  have hlog : ¬m.log2 + 1 = F.mantissaBits := by
    have hlt := (Nat.log2_lt hm.ne').2 hdigits
    omega
  have hpack : pack F (.finite s m F.minExponent hm)
      = packComponents F s 0#_ (BitVec.ofNat _ m) := by
    unfold UnpackedFloat.pack
    simp only
    rw [if_neg (by omega), if_neg hlog]
  have hmantissa : (BitVec.ofNat F.mantissaBitsWithoutImplicit m).toNat = m := by
    rw [BitVec.toNat_ofNat, Nat.mod_eq_of_lt hdigits]
  have hspecial : (0#_ : BitVec F.exponentBits) ≠ -1#_ :=
    ofNat_ne_neg_one (show 0 + 1 < 2 ^ F.exponentBits by omega)
  rw [hpack]
  unfold UnpackedFloat.unpack
  simp only [unpackMantissa_packComponents, unpackExponent_packComponents,
    unpackSign_packComponents, Sign.ofBitVec_toBitVec, hspecial, if_false, if_true,
    ofNat_ne_zero hm hdigits, dif_neg, not_false_eq_true, hmantissa, BitVec.toNat_zero]
  congr 1
  omega

/-- What is in the format is kept. -/
theorem unpack_pack_of_fits (hm : 0 < m) (h : Fits F m e)
    (he : e + F.mantissaBitsWithoutImplicit ≤ F.exponentBias) :
    unpack F (pack F (.finite s m e hm)) = .finite s m e hm := by
  by_cases hnormal : 2 ^ F.mantissaBitsWithoutImplicit ≤ m
  · exact unpack_pack_normal hm h hnormal he
  · obtain rfl : e = F.minExponent := by
      by_contra hne
      have hleast := h.least
      exact hnormal (h.full (by omega))
    exact unpack_pack_subnormal hm (not_le.1 hnormal) he

/-! ## Numbers -/

theorem limit_eq : limit F
    = 2 ^ ((F.mantissaBits : ℤ) + (F.exponentBias - F.mantissaBitsWithoutImplicit)) := by
  have hbits := mantissaBits_eq (F := F)
  have hexponent : (F.mantissaBits : ℤ) + (F.exponentBias - F.mantissaBitsWithoutImplicit)
      = ((F.exponentBias + 1 : ℕ) : ℤ) := by
    omega
  rw [hexponent, zpow_natCast]
  rfl

/-- Digits that the format has are below the end of its exponents if their exponent is. -/
theorem Fits.lt_limit (h : Fits F m e)
    (he : e + F.mantissaBitsWithoutImplicit ≤ F.exponentBias) :
    (m : ℚ) * 2 ^ e < limit F := by
  have hdigits : (m : ℚ) < 2 ^ F.mantissaBits := by exact_mod_cast h.digits
  calc (m : ℚ) * 2 ^ e < 2 ^ F.mantissaBits * 2 ^ e :=
        mul_lt_mul_of_pos_right hdigits (two_zpow_pos e)
    _ = 2 ^ ((F.mantissaBits : ℤ) + e) := by rw [zpow_add₀ two_ne_zero, zpow_natCast]
    _ ≤ limit F := by
      rw [limit_eq]
      exact zpow_le_zpow_right₀ (by norm_num) (by omega)

/-- Beyond it they are not. -/
theorem Fits.limit_le (hspec : 2 ≤ F.exponentBits) (h : Fits F m e)
    (he : (F.exponentBias : ℤ) < e + F.mantissaBitsWithoutImplicit) :
    limit F ≤ m * 2 ^ e := by
  have hbias := exponentBias_pos hspec
  have hfull := h.full (by have := minExponent_eq (F := F); omega)
  have hdigits : (2 : ℚ) ^ F.mantissaBitsWithoutImplicit ≤ m := by exact_mod_cast hfull
  calc limit F ≤ 2 ^ ((F.mantissaBitsWithoutImplicit : ℤ) + e) := by
        have hbits := mantissaBits_eq (F := F)
        rw [limit_eq]
        exact zpow_le_zpow_right₀ (by norm_num) (by omega)
    _ = 2 ^ F.mantissaBitsWithoutImplicit * 2 ^ e := by
      rw [zpow_add₀ two_ne_zero, zpow_natCast]
    _ ≤ m * 2 ^ e := mul_le_mul_of_nonneg_right hdigits (two_zpow_pos e).le

/-- A number cut to the end of the exponents. -/
theorem signed_cut_of_le {v : ℚ} (hv : limit F ≤ v) (s : Sign) :
    max (-limit F) (min (limit F) (signed s v)) = signed s (limit F) := by
  have hpos := limit_pos (F := F)
  cases s
  · show max (-limit F) (min (limit F) (-v)) = -limit F
    rw [min_eq_right (by linarith), max_eq_left (by linarith)]
  · show max (-limit F) (min (limit F) v) = limit F
    rw [min_eq_left hv, max_eq_right (by linarith)]

theorem signed_cut_of_lt {v : ℚ} (hv : 0 ≤ v) (h : v < limit F) (s : Sign) :
    max (-limit F) (min (limit F) (signed s v)) = signed s v := by
  cases s
  · show max (-limit F) (min (limit F) (-v)) = -v
    rw [min_eq_right (by linarith), max_eq_right (by linarith)]
  · show max (-limit F) (min (limit F) v) = v
    rw [min_eq_right h.le, max_eq_right (by linarith)]

/-- **What becomes of a rounded number that is kept as bits**: the nearest number of the format. -/
theorem value_unpack_pack (hspec : 2 ≤ F.exponentBits) {q : ℚ} {f : UnpackedFloat}
    (h : Rounded F q f) :
    unpack F (pack F f) ≠ .notANumber
      ∧ value F (unpack F (pack F f)) = nearest F q := by
  obtain ⟨hcanonical, hvalue⟩ := h
  unfold nearest
  rw [← hvalue]
  cases f with
  | infinity => exact absurd hcanonical id
  | notANumber => exact absurd hcanonical id
  | zero s =>
    have hzero := signed_cut_of_lt (F := F) (le_refl 0) limit_pos .positive
    rw [show pack F (.zero s) = packedZero F s from rfl, unpack_packedZero]
    refine ⟨by simp, ?_⟩
    exact hzero.symm
  | finite s m e hm =>
    have hpos := natCast_mul_zpow_nonneg m e
    by_cases he : e + F.mantissaBitsWithoutImplicit ≤ F.exponentBias
    · rw [unpack_pack_of_fits hm hcanonical he]
      refine ⟨by simp, ?_⟩
      exact (signed_cut_of_lt hpos (Fits.lt_limit hcanonical he) s).symm
    · rw [pack_of_lt hm (by omega), unpack_packedInfinity]
      refine ⟨by simp, ?_⟩
      exact (signed_cut_of_le (Fits.limit_le hspec hcanonical (by omega)) s).symm

/-! ## Order -/

/-- A number with digits of the format and a higher exponent is greater. -/
theorem Fits.lt_of_exponent_lt {m' : ℕ} {e' : ℤ} (h : Fits F m e) (h' : Fits F m' e')
    (he : e < e') : (m : ℚ) * 2 ^ e < m' * 2 ^ e' := by
  have hdigits : (m : ℚ) < 2 ^ F.mantissaBits := by exact_mod_cast h.digits
  have hleast := h.least
  have hfull : (2 : ℚ) ^ F.mantissaBitsWithoutImplicit ≤ m' := by
    exact_mod_cast h'.full (by omega)
  calc (m : ℚ) * 2 ^ e < 2 ^ F.mantissaBits * 2 ^ e :=
        mul_lt_mul_of_pos_right hdigits (two_zpow_pos e)
    _ = 2 ^ ((F.mantissaBits : ℤ) + e) := by rw [zpow_add₀ two_ne_zero, zpow_natCast]
    _ ≤ 2 ^ ((F.mantissaBitsWithoutImplicit : ℤ) + e') := by
      have hbits := mantissaBits_eq (F := F)
      exact zpow_le_zpow_right₀ (by norm_num) (by omega)
    _ = 2 ^ F.mantissaBitsWithoutImplicit * 2 ^ e' := by
      rw [zpow_add₀ two_ne_zero, zpow_natCast]
    _ ≤ m' * 2 ^ e' := mul_le_mul_of_nonneg_right hfull (two_zpow_pos e').le

/-- Exponents are compared first, and digits where these agree. -/
theorem Fits.compare_eq {m' : ℕ} {e' : ℤ} (h : Fits F m e) (h' : Fits F m' e') :
    (compare e e').then (compare m m') = compare ((m : ℚ) * 2 ^ e) (m' * 2 ^ e') := by
  rcases lt_trichotomy e e' with he | rfl | he
  · rw [compare_lt_iff_lt.2 he, compare_lt_iff_lt.2 (h.lt_of_exponent_lt h' he)]
    rfl
  · have hpos := two_zpow_pos e
    rw [compare_eq_iff_eq.2 rfl, Ordering.eq_then]
    rcases lt_trichotomy m m' with hm | rfl | hm
    · have hlt : (m : ℚ) * 2 ^ e < m' * 2 ^ e :=
        mul_lt_mul_of_pos_right (by exact_mod_cast hm) hpos
      rw [compare_lt_iff_lt.2 hm, compare_lt_iff_lt.2 hlt]
    · rw [compare_eq_iff_eq.2 rfl, compare_eq_iff_eq.2 rfl]
    · have hgt : (m' : ℚ) * 2 ^ e < m * 2 ^ e :=
        mul_lt_mul_of_pos_right (by exact_mod_cast hm) hpos
      rw [compare_gt_iff_gt.2 hm, compare_gt_iff_gt.2 hgt]
  · rw [compare_gt_iff_gt.2 he, compare_gt_iff_gt.2 (h'.lt_of_exponent_lt h he)]
    rfl

/-- The digits and the exponent that a format has for a number are its own. -/
theorem Fits.eq_and_eq {m' : ℕ} {e' : ℤ} (h : Fits F m e) (h' : Fits F m' e')
    (heq : (m : ℚ) * 2 ^ e = m' * 2 ^ e') : m = m' ∧ e = e' := by
  have hcompare := h.compare_eq h'
  rw [compare_eq_iff_eq.2 heq, Ordering.then_eq_eq, compare_eq_iff_eq, compare_eq_iff_eq] at hcompare
  exact hcompare.symm

/-- An ordinary number of a format has one form, unless it is zero. -/
theorem Canonical.eq_of_value_eq {x y : UnpackedFloat} (hx : Canonical F x) (hy : Canonical F y)
    (hne : value F x ≠ 0) (h : value F x = value F y) : x = y := by
  cases x with
  | infinity => exact absurd hx id
  | notANumber => exact absurd hx id
  | zero => exact absurd rfl hne
  | finite s m e hm =>
    cases y with
    | infinity => exact absurd hy id
    | notANumber => exact absurd hy id
    | zero => exact absurd h hne
    | finite s' m' e' hm' =>
      have hpos : (0 : ℚ) < m * 2 ^ e := mul_pos (by exact_mod_cast hm) (two_zpow_pos e)
      have hpos' : (0 : ℚ) < m' * 2 ^ e' := mul_pos (by exact_mod_cast hm') (two_zpow_pos e')
      have hsame : s = s' ∧ (m : ℚ) * 2 ^ e = m' * 2 ^ e' := by
        cases s <;> cases s' <;> simp only [value, signed] at h
        · exact ⟨rfl, neg_inj.1 h⟩
        · linarith
        · linarith
        · exact ⟨rfl, h⟩
      obtain ⟨rfl, hvalue⟩ := hsame
      obtain ⟨rfl, rfl⟩ := Fits.eq_and_eq hx hy hvalue
      rfl

/-- An ordinary number of a format lies between the ends of its exponents. -/
theorem abs_value_lt {f : UnpackedFloat} (hformat : InFormat F f) (hf : f.isFinite = true) :
    |value F f| < limit F := by
  cases f with
  | infinity => cases hf
  | notANumber => cases hf
  | zero =>
    show |(0 : ℚ)| < limit F
    rw [abs_zero]
    exact limit_pos
  | finite s m e hm =>
    show |signed s (m * 2 ^ e)| < limit F
    rw [abs_signed s (natCast_mul_zpow_nonneg m e)]
    exact hformat.1.lt_limit hformat.2

/-- What is not an ordinary number stands at the end, or for none. -/
theorem abs_value_of_special {f : UnpackedFloat} (hf : f.isFinite = false)
    (hnan : f ≠ .notANumber) : |value F f| = limit F := by
  cases f with
  | infinity s => exact abs_signed s limit_pos.le
  | notANumber => exact absurd rfl hnan
  | zero => cases hf
  | finite => cases hf

theorem grid_limit : Grid F (limit F) := by
  have hmin := minExponent_eq (F := F)
  refine ⟨1, (F.exponentBias + 1 : ℕ), ?_, by omega, ?_⟩
  · have hbits := mantissaBits_eq (F := F)
    exact Nat.one_lt_two_pow (by omega)
  · rw [Nat.cast_one, one_mul, zpow_natCast]
    rfl

theorem grid_zero : Grid F 0 :=
  ⟨0, F.minExponent, Nat.two_pow_pos _, le_refl _, by rw [Nat.cast_zero, zero_mul]⟩

/-- All floats of a format stand for numbers that need not be rounded. -/
theorem grid_value {f : UnpackedFloat} (hformat : InFormat F f) : Grid F |value F f| := by
  cases f with
  | infinity s =>
    show Grid F |signed s (limit F)|
    rw [abs_signed s limit_pos.le]
    exact grid_limit
  | notANumber =>
    show Grid F |(0 : ℚ)|
    rw [abs_zero]
    exact grid_zero
  | zero =>
    show Grid F |(0 : ℚ)|
    rw [abs_zero]
    exact grid_zero
  | finite s m e hm =>
    show Grid F |signed s (m * 2 ^ e)|
    rw [abs_signed s (natCast_mul_zpow_nonneg m e)]
    exact hformat.1.grid

/-- A float of a format is the nearest one to its number. -/
theorem nearest_value {f : UnpackedFloat} (hformat : InFormat F f) :
    nearest F (value F f) = value F f := by
  refine nearest_of_grid (grid_value hformat) ?_
  cases hf : f.isFinite with
  | true => exact (abs_value_lt hformat hf).le
  | false =>
    by_cases hnan : f = .notANumber
    · rw [hnan]
      show |(0 : ℚ)| ≤ limit F
      rw [abs_zero]
      exact limit_pos.le
    · exact (abs_value_of_special hf hnan).le

/-- Signs turn the order round. -/
theorem swap_compare (a b : ℚ) : (compare a b).swap = compare (-a) (-b) := by
  rcases lt_trichotomy a b with h | rfl | h
  · rw [compare_lt_iff_lt.2 h, compare_gt_iff_gt.2 (neg_lt_neg h)]
    rfl
  · rw [compare_eq_iff_eq.2 rfl, compare_eq_iff_eq.2 rfl]
    rfl
  · rw [compare_gt_iff_gt.2 h, compare_lt_iff_lt.2 (neg_lt_neg h)]
    rfl

/-- **The machine's order is the order of the numbers**, of which an infinite one is at the end. -/
theorem compare_eq {x y : UnpackedFloat} (hx : InFormat F x) (hy : InFormat F y)
    (hx' : x ≠ .notANumber) (hy' : y ≠ .notANumber) :
    x.compare y = some (compare (value F x) (value F y)) := by
  have hpos := limit_pos (F := F)
  have hends : ∀ {f}, InFormat F f → f.isFinite = true →
      -limit F < value F f ∧ value F f < limit F := fun hf hfinite =>
    abs_lt.1 (abs_value_lt hf hfinite)
  have hdigits : ∀ {m : ℕ}, 0 < m → ∀ e : ℤ, (0 : ℚ) < m * 2 ^ e := fun hm e =>
    mul_pos (by exact_mod_cast hm) (two_zpow_pos e)
  cases x with
  | notANumber => exact absurd rfl hx'
  | infinity s =>
    cases y with
    | notANumber => exact absurd rfl hy'
    | infinity s' =>
      cases s <;> cases s'
      · exact congrArg some (compare_eq_iff_eq.2 rfl).symm
      · exact congrArg some (compare_lt_iff_lt.2 (by simp only [value, signed]; linarith)).symm
      · exact congrArg some (compare_gt_iff_gt.2 (by simp only [value, signed]; linarith)).symm
      · exact congrArg some (compare_eq_iff_eq.2 rfl).symm
    | zero s' =>
      cases s
      · exact congrArg some (compare_lt_iff_lt.2 (hends hy rfl).1).symm
      · exact congrArg some (compare_gt_iff_gt.2 (hends hy rfl).2).symm
    | finite s' m' e' hm' =>
      cases s
      · exact congrArg some (compare_lt_iff_lt.2 (hends hy rfl).1).symm
      · exact congrArg some (compare_gt_iff_gt.2 (hends hy rfl).2).symm
  | zero s =>
    cases y with
    | notANumber => exact absurd rfl hy'
    | infinity s' =>
      cases s'
      · exact congrArg some (compare_gt_iff_gt.2 (hends hx rfl).1).symm
      · exact congrArg some (compare_lt_iff_lt.2 (hends hx rfl).2).symm
    | zero s' => exact congrArg some (compare_eq_iff_eq.2 rfl).symm
    | finite s' m' e' hm' =>
      have hvalue := hdigits hm' e'
      cases s'
      · exact congrArg some (compare_gt_iff_gt.2 (neg_neg_of_pos hvalue)).symm
      · exact congrArg some (compare_lt_iff_lt.2 hvalue).symm
  | finite s m e hm =>
    have hvalue := hdigits hm e
    cases y with
    | notANumber => exact absurd rfl hy'
    | infinity s' =>
      cases s'
      · cases s <;> exact congrArg some (compare_gt_iff_gt.2 (hends hx rfl).1).symm
      · cases s <;> exact congrArg some (compare_lt_iff_lt.2 (hends hx rfl).2).symm
    | zero s' =>
      cases s
      · exact congrArg some (compare_lt_iff_lt.2 (neg_neg_of_pos hvalue)).symm
      · exact congrArg some (compare_gt_iff_gt.2 hvalue).symm
    | finite s' m' e' hm' =>
      have hvalue' := hdigits hm' e'
      cases s <;> cases s'
      · show some ((compare e e').then (compare m m')).swap
          = some (compare (-((m : ℚ) * 2 ^ e)) (-(m' * 2 ^ e')))
        rw [hx.1.compare_eq hy.1, swap_compare]
      · exact congrArg some (compare_lt_iff_lt.2 (by simp only [value, signed]; linarith)).symm
      · exact congrArg some (compare_gt_iff_gt.2 (by simp only [value, signed]; linarith)).symm
      · exact congrArg some (hx.1.compare_eq hy.1)

end BranchingDialogue.Rounding
