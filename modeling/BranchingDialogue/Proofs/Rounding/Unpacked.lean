import BranchingDialogue.Proofs.Rounding.Nearest
import Mathlib

/-!
# Rounding digit by digit

Machine arithmetic rounds in two steps. It shifts the digits of a result to their place and keeps of
those that it drops only whether the first one is there and whether any other is; with these two it
decides to which side to go. If that gives a digit too many it shifts once more.

`Describes` says what the kept bits tell of a number, and every shift keeps it true. So the digits
are rounded as `nearestEven` says, and the whole as `roundSigned` does: `Rounded`.

Main results:
- `Describes.shiftRight`: the bits tell the same of a shifted number;
- `Describes.roundedMantissa`: and enough to round it;
- `rounded_roundWithAccuracy`, `rounded_round`, `rounded_normalize`: what the machine rounds to.
-/

namespace BranchingDialogue.Rounding

open Float.Model Float.Model.UnpackedFloat

/-! ## What the kept bits tell -/

/-- Digits before the point, and two bits that tell on which side of one half the rest is. -/
def Describes : ExtendedMantissa → ℚ → Prop
  | ⟨m, false, false⟩, q => q = m
  | ⟨m, false, true⟩, q => m < q ∧ q < m + 1 / 2
  | ⟨m, true, false⟩, q => q = m + 1 / 2
  | ⟨m, true, true⟩, q => m + 1 / 2 < q ∧ q < m + 1

variable {em : ExtendedMantissa} {q : ℚ}

theorem Describes.bounds (h : Describes em q) : (em.mantissa : ℚ) ≤ q ∧ q < em.mantissa + 1 := by
  obtain ⟨m, roundBit, stickyBit⟩ := em
  cases roundBit <;> cases stickyBit <;> simp only [Describes] at h ⊢ <;>
    constructor <;> linarith

theorem Describes.floor_eq (h : Describes em q) : ⌊q⌋₊ = em.mantissa := by
  obtain ⟨hlow, hhigh⟩ := h.bounds
  have hq : 0 ≤ q := le_trans (Nat.cast_nonneg _) hlow
  exact (Nat.floor_eq_iff hq).2 ⟨hlow, hhigh⟩

/-- The bits decide to which side to round. -/
theorem Describes.roundedMantissa (h : Describes em q) : em.roundedMantissa = nearestEven q := by
  unfold nearestEven
  rw [h.floor_eq]
  obtain ⟨m, roundBit, stickyBit⟩ := em
  cases roundBit with
  | false =>
    have hlt : q < (m : ℚ) + 1 / 2 := by
      cases stickyBit <;> simp only [Describes] at h <;> linarith
    simp only
    rw [if_pos hlt]
    cases stickyBit <;> rfl
  | true =>
    cases stickyBit with
    | false =>
      simp only [Describes] at h
      simp only [h, lt_irrefl, if_false, if_true]
      rfl
    | true =>
      simp only [Describes] at h
      simp only
      rw [if_neg (not_lt.2 h.1.le), if_neg h.1.ne']
      rfl

/-- Half of a number is told by the bits shifted by one. -/
theorem Describes.shiftRightOne (h : Describes em q) : Describes em.shiftRightOne (q / 2) := by
  obtain ⟨m, roundBit, stickyBit⟩ := em
  -- The last digit before the point becomes the first one after it.
  rcases Nat.even_or_odd' m with ⟨k, rfl | rfl⟩
  · have hhalf : 2 * k / 2 = k := by omega
    have hmod : 2 * k % 2 = 0 := by omega
    cases roundBit <;> cases stickyBit <;> simp only [Describes] at h <;> push_cast at h <;>
      simp only [ExtendedMantissa.shiftRightOne, hhalf, hmod, bne_self_eq_false, Bool.or_false,
        Bool.or_true, Describes]
    · linarith
    all_goals constructor <;> linarith
  · have hhalf : (2 * k + 1) / 2 = k := by omega
    have hmod : (2 * k + 1) % 2 = 1 := by omega
    have hbit : (1 != 0) = true := rfl
    cases roundBit <;> cases stickyBit <;> simp only [Describes] at h <;> push_cast at h <;>
      simp only [ExtendedMantissa.shiftRightOne, hhalf, hmod, hbit, Bool.or_false, Bool.or_true,
        Describes]
    · linarith
    all_goals constructor <;> linarith

/-- A number divided by a power of two is told by the bits shifted as often. -/
theorem Describes.shiftRight (h : Describes em q) (k : ℕ) : Describes (em >>> k) (q / 2 ^ k) := by
  induction k with
  | zero =>
    rw [pow_zero, div_one]
    exact h
  | succ k ih =>
    rw [pow_succ, ← div_div]
    exact ih.shiftRightOne

/-- A whole number has nothing after its point. -/
theorem describes_exact (m : ℕ) : Describes (.ofMantissaAndAccuracy m .exact) m := rfl

/-- What a division leaves over tells what stands after the point of the quotient. -/
theorem describes_accuracyOfFraction (n : ℕ) {d : ℕ} (hd : 0 < d) :
    Describes (.ofMantissaAndAccuracy (n / d) (accuracyOfFraction (n % d) d)) ((n : ℚ) / d) := by
  have hd' : (0 : ℚ) < d := by exact_mod_cast hd
  have hn : (n : ℚ) = (n / d : ℕ) * d + (n % d : ℕ) := by exact_mod_cast (Nat.div_add_mod' n d).symm
  have hquotient : (n : ℚ) / d = (n / d : ℕ) + (n % d : ℕ) / d := by
    rw [hn, add_div, mul_div_cancel_right₀ _ hd'.ne']
  have hrest : n % d < d := Nat.mod_lt n hd
  rw [hquotient]
  generalize n / d = m
  generalize n % d = r at hrest
  unfold accuracyOfFraction
  by_cases hr : r = 0
  · rw [if_pos hr, hr, Nat.cast_zero, zero_div, add_zero]
    exact describes_exact m
  · rw [if_neg hr]
    have hr' : (0 : ℚ) < r := by exact_mod_cast Nat.pos_of_ne_zero hr
    have hpos : 0 < (r : ℚ) / d := div_pos hr' hd'
    have hone : (r : ℚ) / d < 1 := by
      rw [div_lt_one hd']
      exact_mod_cast hrest
    cases hcompare : compare (2 * r) d with
    | lt =>
      have hlt : (2 * r : ℚ) < d := by exact_mod_cast Nat.compare_eq_lt.1 hcompare
      have hhalf : (r : ℚ) / d < 1 / 2 := by
        rw [div_lt_div_iff₀ hd' two_pos]
        linarith
      show (m : ℚ) < m + r / d ∧ (m : ℚ) + r / d < m + 1 / 2
      constructor <;> linarith
    | eq =>
      have heq : (2 * r : ℚ) = d := by exact_mod_cast Nat.compare_eq_eq.1 hcompare
      have hhalf : (r : ℚ) / d = 1 / 2 := by
        rw [div_eq_div_iff hd'.ne' two_ne_zero]
        linarith
      show (m : ℚ) + r / d = m + 1 / 2
      rw [hhalf]
    | gt =>
      have hgt : (d : ℚ) < 2 * r := by exact_mod_cast Nat.compare_eq_gt.1 hcompare
      have hhalf : 1 / 2 < (r : ℚ) / d := by
        rw [div_lt_div_iff₀ two_pos hd']
        linarith
      show (m : ℚ) + 1 / 2 < m + r / d ∧ (m : ℚ) + r / d < m + 1
      constructor <;> linarith

/-! ## The digits of a format -/

/-- The digits and the exponent that a format has for a number, but for the end of its exponents. -/
structure Fits (F : Format) (m : ℕ) (e : ℤ) : Prop where
  digits : m < 2 ^ F.mantissaBits
  least : F.minExponent ≤ e
  full : F.minExponent < e → 2 ^ F.mantissaBitsWithoutImplicit ≤ m

/-- A number is zero or has the digits of a format. -/
def Canonical (F : Format) : UnpackedFloat → Prop
  | .zero _ => True
  | .finite _ m e _ => Fits F m e
  | _ => False

/-- A number with a sign. -/
def signed : Sign → ℚ → ℚ
  | .negative, q => -q
  | .positive, q => q

/-- The number that stands for a float: itself, the end of the exponents, or zero if there is
none. -/
def value (F : Format) : UnpackedFloat → ℚ
  | .infinity s => signed s (limit F)
  | .notANumber => 0
  | .zero _ => 0
  | .finite s m e _ => signed s (m * 2 ^ e)

/-- A number has been rounded to the digits of a format. -/
structure Rounded (F : Format) (q : ℚ) (f : UnpackedFloat) : Prop where
  canonical : Canonical F f
  value_eq : value F f = roundSigned F q

variable {F : Format} {s : Sign} {m : ℕ} {e : ℤ} {v : ℚ}

theorem signed_zero (s : Sign) : signed s 0 = 0 := by
  cases s
  · exact neg_zero
  · rfl

theorem abs_signed (s : Sign) (hv : 0 ≤ v) : |signed s v| = v := by
  cases s
  · exact (abs_neg v).trans (abs_of_nonneg hv)
  · exact abs_of_nonneg hv

theorem roundSigned_signed (s : Sign) (hv : 0 ≤ v) :
    roundSigned F (signed s v) = signed s (roundAbs F v) := by
  cases s
  · show roundSigned F (-v) = -roundAbs F v
    rw [roundSigned_neg, roundSigned_of_nonneg hv]
  · exact roundSigned_of_nonneg hv

theorem natCast_mul_zpow_nonneg (m : ℕ) (e : ℤ) : (0 : ℚ) ≤ m * 2 ^ e :=
  mul_nonneg (Nat.cast_nonneg m) (two_zpow_pos e).le

theorem Fits.grid (h : Fits F m e) : Grid F (m * 2 ^ e) := ⟨m, e, h.digits, h.least, rfl⟩

/-- Numbers with the digits of a format have not to be rounded. -/
theorem Canonical.rounded {f : UnpackedFloat} (h : Canonical F f) :
    Rounded F (value F f) f := by
  refine ⟨h, ?_⟩
  cases f with
  | infinity => exact absurd h id
  | notANumber => exact absurd h id
  | zero => exact (roundSigned_of_nonneg (le_refl 0)).trans roundAbs_zero |>.symm
  | finite s m e hm =>
    show signed s (m * 2 ^ e) = roundSigned F (signed s (m * 2 ^ e))
    rw [roundSigned_signed s (natCast_mul_zpow_nonneg m e), roundAbs_of_grid h.grid]

/-! ## Rounding -/

/-- What the exponent of a number is shifted to is its place, if it was not above it. -/
theorem targetExponent_eq_place (hv : 0 < v) (he : e ≤ place F v)
    (hm : ⌊v / 2 ^ e⌋₊ = m) : F.targetExponent (totalExponent m e) = place F v := by
  have hpos := two_zpow_pos e
  have hq : 0 ≤ v / 2 ^ e := (div_pos hv hpos).le
  obtain ⟨hlow, hhigh⟩ := (Nat.floor_eq_iff hq).1 hm
  rw [le_div_iff₀ hpos] at hlow
  rw [div_lt_iff₀ hpos] at hhigh
  by_cases hzero : m = 0
  · -- Without digits the number lies below its place, which then is the last one of all.
    rw [hzero, Nat.cast_zero, zero_add, one_mul] at hhigh
    have hlog := log_lt_of_lt hv hhigh
    have hbits := mantissaBits_eq (F := F)
    unfold place Format.targetExponent totalExponent at *
    rw [hzero, Nat.log2_zero]
    omega
  · have hm' : 0 < m := Nat.pos_of_ne_zero hzero
    have hleast : (m.log2 : ℤ) + e ≤ Int.log 2 v := by
      rw [← log_natCast_mul_zpow hm']
      exact Int.log_mono_right (mul_pos (by exact_mod_cast hm') hpos) hlow
    have hgreatest : Int.log 2 v < (m.log2 : ℤ) + 1 + e := by
      apply log_lt_of_lt hv
      have hdigits : ((m + 1 : ℕ) : ℚ) ≤ ((2 ^ (m.log2 + 1) : ℕ) : ℚ) := by
        exact_mod_cast Nat.lt_log2_self
      calc v < (m + 1) * 2 ^ e := hhigh
        _ ≤ 2 ^ (m.log2 + 1) * 2 ^ e := by
          exact mul_le_mul_of_nonneg_right (by exact_mod_cast hdigits) hpos.le
        _ = 2 ^ ((m.log2 : ℤ) + 1 + e) := by
          rw [zpow_add₀ two_ne_zero, ← Nat.cast_succ, zpow_natCast]
    unfold place totalExponent
    congr 1
    omega

/-- Rounded digits are left as they are, or there is one too many and the last one, a zero, goes. -/
theorem fits_of_shift (hm : m ≤ 2 ^ F.mantissaBits) (he : F.minExponent ≤ e)
    (hfull : F.minExponent < e → 2 ^ F.mantissaBitsWithoutImplicit ≤ m) :
    Fits F (shiftToTargetExponent F m e .exact).1.mantissa
        (shiftToTargetExponent F m e .exact).2
      ∧ ((shiftToTargetExponent F m e .exact).1.mantissa : ℚ)
          * 2 ^ (shiftToTargetExponent F m e .exact).2 = m * 2 ^ e := by
  have hbits := mantissaBits_eq (F := F)
  rcases hm.lt_or_eq with hlt | rfl
  · have hlog : m.log2 < F.mantissaBits := by
      by_cases hzero : m = 0
      · rw [hzero, Nat.log2_zero]
        omega
      · exact (Nat.log2_lt hzero).2 hlt
    have hshift : (F.targetExponent (totalExponent m e) - e).toNat = 0 := by
      unfold Format.targetExponent totalExponent
      omega
    have hsame : shiftToTargetExponent F m e .exact = (⟨m, false, false⟩, e) := by
      simp only [shiftToTargetExponent, shiftToExponent, hshift, Nat.cast_zero, add_zero]
      rfl
    rw [hsame]
    exact ⟨⟨hlt, he, hfull⟩, rfl⟩
  · have htarget : F.targetExponent (totalExponent (2 ^ F.mantissaBits) e) = e + 1 := by
      unfold Format.targetExponent totalExponent
      rw [Nat.log2_two_pow]
      omega
    have hhalf : 2 ^ F.mantissaBits / 2 = 2 ^ F.mantissaBitsWithoutImplicit := by
      rw [hbits, pow_succ, Nat.mul_div_cancel _ two_pos]
    have hone : (e + 1 - e).toNat = 1 := by omega
    have hshifted : (shiftToTargetExponent F (2 ^ F.mantissaBits) e .exact).1.mantissa
        = 2 ^ F.mantissaBitsWithoutImplicit := by
      simp only [shiftToTargetExponent, shiftToExponent, htarget, hone]
      exact hhalf
    have hexponent : (shiftToTargetExponent F (2 ^ F.mantissaBits) e .exact).2 = e + 1 := by
      simp only [shiftToTargetExponent, shiftToExponent, htarget, hone]
      rfl
    rw [hshifted, hexponent]
    refine ⟨⟨?_, by omega, fun _ => le_refl _⟩, ?_⟩
    · exact Nat.pow_lt_pow_right (by decide) (by omega)
    · rw [hbits, zpow_add_one₀ two_ne_zero]
      push_cast
      ring

/-- **What the machine rounds to**, where digits and accuracy tell of a number below which no digit
of its place has been dropped. -/
theorem rounded_roundWithAccuracy (s : Sign) {acc : Accuracy} (hv : 0 < v) (he : e ≤ place F v)
    (h : Describes (.ofMantissaAndAccuracy m acc) (v / 2 ^ e)) :
    Rounded F (signed s v) (roundWithAccuracy F s m e acc) := by
  have hm : (ExtendedMantissa.ofMantissaAndAccuracy m acc).mantissa = m := by
    cases acc with
    | exact => rfl
    | inexact o => cases o <;> rfl
  have htarget := targetExponent_eq_place hv he (h.floor_eq.trans hm)
  obtain ⟨k, hk⟩ := Int.eq_ofNat_of_zero_le (sub_nonneg.2 he)
  have hplace : e + (k : ℤ) = place F v := by omega
  -- First the digits are shifted to their place and rounded.
  have hfirst := h.shiftRight k
  have hdivided : v / 2 ^ e / 2 ^ k = v / 2 ^ place F v := by
    rw [← hplace, zpow_add₀ two_ne_zero, zpow_natCast, div_div]
  rw [hdivided] at hfirst
  have hround := hfirst.roundedMantissa
  -- Then they are shifted once more, which does not change the number.
  obtain ⟨hfits, hvalue⟩ := fits_of_shift (nearestEven_place_le v) (minExponent_le_place v)
    (le_nearestEven_place hv)
  have hshift : shiftToTargetExponent F m e acc
      = (ExtendedMantissa.ofMantissaAndAccuracy m acc >>> k, place F v) := by
    simp only [shiftToTargetExponent, shiftToExponent, htarget, hk, Int.toNat_natCast, hplace]
  simp only [roundWithAccuracy, hshift, hround]
  split
  · next hzero =>
    refine ⟨trivial, ?_⟩
    rw [hzero, Nat.cast_zero, zero_mul] at hvalue
    show 0 = roundSigned F (signed s v)
    rw [roundSigned_signed s hv.le, roundAbs, ← hvalue, signed_zero]
  · refine ⟨hfits, ?_⟩
    show signed s _ = roundSigned F (signed s v)
    rw [roundSigned_signed s hv.le, roundAbs, ← hvalue]

/-- Digits that are appended make up for the lower exponent. -/
theorem decreaseExponent_value (m : ℕ) (e low : ℤ) :
    ((decreaseExponent m e low).1 : ℚ) * 2 ^ (decreaseExponent m e low).2 = m * 2 ^ e := by
  simp only [decreaseExponent, Nat.shiftLeft_eq]
  push_cast
  rw [← zpow_natCast, mul_assoc, ← zpow_add₀ two_ne_zero, add_sub_cancel]

theorem rounded_round (s : Sign) (hm : 0 < m) (e : ℤ) :
    Rounded F (signed s (m * 2 ^ e)) (UnpackedFloat.round F s m e) := by
  have hpos := mul_pos (show (0 : ℚ) < m by exact_mod_cast hm) (two_zpow_pos e)
  have htarget : F.targetExponent (totalExponent m e) = place F (m * 2 ^ e) := by
    unfold place totalExponent
    rw [log_natCast_mul_zpow hm]
    congr 1
    omega
  have hvalue := decreaseExponent_value m e (place F (m * 2 ^ e))
  have hlow : (decreaseExponent m e (place F (m * 2 ^ e))).2 ≤ place F (m * 2 ^ e) := by
    simp only [decreaseExponent]
    omega
  simp only [UnpackedFloat.round, htarget]
  apply rounded_roundWithAccuracy s hpos hlow
  rw [div_eq_of_eq_mul (two_zpow_pos _).ne' hvalue.symm]
  exact describes_exact _

theorem rounded_normalize (m : ℤ) (e : ℤ) (s : Sign) :
    Rounded F (m * 2 ^ e) (UnpackedFloat.normalize F m e s) := by
  unfold UnpackedFloat.normalize
  rcases lt_trichotomy m 0 with hm | rfl | hm
  · rw [Int.compare_eq_lt.2 hm]
    have hcast : ((-m).toNat : ℚ) = -m := by
      rw [← Int.cast_natCast, Int.toNat_of_nonneg (by omega), Int.cast_neg]
    have hround := rounded_round (F := F) .negative (m := (-m).toNat) (by omega) e
    rwa [hcast, neg_mul, signed, neg_neg] at hround
  · refine ⟨trivial, ?_⟩
    rw [Int.cast_zero, zero_mul, roundSigned_of_nonneg (le_refl 0), roundAbs_zero]
    rfl
  · rw [Int.compare_eq_gt.2 hm]
    have hcast : (m.toNat : ℚ) = m := by
      rw [← Int.cast_natCast, Int.toNat_of_nonneg hm.le]
    have hround := rounded_round (F := F) .positive (m := m.toNat) (by omega) e
    rwa [hcast, signed] at hround

end BranchingDialogue.Rounding
