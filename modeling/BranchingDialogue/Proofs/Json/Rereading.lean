import BranchingDialogue.Proofs.Json.Decimals
import BranchingDialogue.Proofs.Json.RoundTrip
import BranchingDialogue.Proofs.Json.Scaling
import BranchingDialogue.Proofs.Rounding.Shortest

/-!
# Written doubles are read

The digits of a double lie among the numbers that are rounded to it, so a reader that finds the
nearest double finds it again. This reader rounds up to three times, and need not. But it always
finds some double (`exists_readsAs`), which is called `reread`: the roundings can lift a number over
the largest double only where the digits name one of the last three, and these are read. And it
finds the same double where the digits are few and the point is not far away (`reread_of_brief`).
-/

namespace BranchingDialogue

open Float.Model Rounding Binary64

namespace Digits

/-- Digits that are read as another significand have the same value. -/
theorem value_scanned (d : Digits) : d.scanned.value = d.value := by
  unfold scanned
  split
  · next hwhole =>
    have hexponent : d.exponent = (d.exponent.toNat : ℤ) := (Int.toNat_of_nonneg hwhole.1).symm
    rw [value, value, hexponent, Int.toNat_natCast]
    push_cast
    rw [zpow_natCast, zpow_neg_one, pow_succ]
    field_simp
  · rfl

/-- Few digits, with their point not far away. -/
def Brief (d : Digits) : Prop := d.scanned.digits < 2 ^ 53 ∧ d.scanned.exponent.natAbs ≤ 22

instance (d : Digits) : Decidable d.Brief := instDecidableAnd

end Digits

namespace Json

variable {m : ℕ} {e : ℤ}

/-! ## Digits of doubles -/

/-- The shortest digits of a positive double. -/
def shortestDigits (m : ℕ) (e : ℤ) : Digits := .shortest (.ofFits .binary64 m e) .even

/-- What they are scaled to when they are read. -/
def rescaled (m : ℕ) (e : ℤ) : Option Float :=
  scale 4 (shortestDigits m e).scanned.digits.toUInt64.toFloat (shortestDigits m e).scanned.exponent

/-- The last three doubles are read, though there the roundings might lead to the end. -/
theorem rescaled_top : ∀ i < 3, ((rescaled (2 ^ 53 - 3 + i) 971).any Float.isFinite) = true := by
  decide +kernel

/-- What three roundings can make of the digits of any other double does not come to the end. -/
theorem lifted_le_largest (hm : m < 2 ^ 53) (he : e ≤ 971) (htop : e ≤ 970 ∨ m ≤ 2 ^ 53 - 4) :
    (m + 1 / 2 : ℚ) * 2 ^ e * (1 + 1 / 2 ^ 53) ^ 2 ≤ largest := by
  have hpos := two_zpow_pos 970
  have hunit : (2 : ℚ) ^ (971 : ℤ) = 2 ^ (970 : ℤ) * 2 := zpow_add_one₀ two_ne_zero 970
  have hlargest : largest = (2 ^ 53 - 1) * 2 ^ (971 : ℤ) := rfl
  have hpow : ∀ {k : ℤ}, e ≤ k → (2 : ℚ) ^ e ≤ 2 ^ k := zpow_le_zpow_right₀ one_le_two
  rw [hlargest]
  rcases htop with he' | hm'
  · have hdigits : (m : ℚ) + 1 / 2 ≤ 2 ^ 53 := by
      have : (m : ℚ) + 1 ≤ 2 ^ 53 := by exact_mod_cast hm
      linarith
    have hscaled := mul_le_mul hdigits (hpow he') (two_zpow_pos e).le (by norm_num)
    rw [hunit]
    generalize (2 : ℚ) ^ (970 : ℤ) = w at hpos hscaled ⊢
    generalize (m + 1 / 2 : ℚ) * 2 ^ e = q at hscaled ⊢
    linarith
  · have hdigits : (m : ℚ) + 1 / 2 ≤ 2 ^ 53 - 7 / 2 := by
      have : (m : ℚ) + 4 ≤ 2 ^ 53 := by exact_mod_cast (by omega : m + 4 ≤ 2 ^ 53)
      linarith
    have hscaled := mul_le_mul hdigits (hpow he) (two_zpow_pos e).le (by norm_num)
    rw [hunit] at hscaled ⊢
    generalize (2 : ℚ) ^ (970 : ℤ) = w at hpos hscaled ⊢
    generalize (m + 1 / 2 : ℚ) * 2 ^ e = q at hscaled ⊢
    linarith

theorem toNat_toUInt64 {n : ℕ} (h : n < 2 ^ 64) : n.toUInt64.toNat = n :=
  (UInt64.toNat_ofNat').trans (Nat.mod_eq_of_lt h)

section

variable (hm : 0 < m) (h : Fits .binary64 m e) (he : e ≤ 971)

include hm h he

theorem names_shortestDigits : (shortestDigits m e).Names (.ofFits .binary64 m e) := by
  have hmin : Format.binary64.minExponent = -1074 := by decide
  exact Digits.names_shortest hm h.digits (hmin ▸ h.least) he

theorem digits_shortestDigits_lt : (shortestDigits m e).digits < 2 ^ 64 := by
  have hcount : (shortestDigits m e).digits ≤ 40 * m := (names_shortestDigits hm h he).digits_le
  have hdigits : m < 2 ^ 53 := h.digits
  omega

theorem roundAbs_shortestDigits : roundAbs .binary64 (shortestDigits m e).value = m * 2 ^ e :=
  RoundingInterval.roundAbs_of_contains hm h (names_shortestDigits hm h he).contains

theorem value_shortestDigits_le : (shortestDigits m e).value ≤ (m + 1 / 2) * 2 ^ e := by
  have hunits := ((names_shortestDigits hm h he).contains.units hm).2.1
  exact (div_le_iff₀ (two_zpow_pos e)).1 hunits

/-- **The digits of a double are read as some double.** -/
theorem exists_rescaled : ∃ y, rescaled m e = some y ∧ y.isFinite = true := by
  have hdigits : m < 2 ^ 53 := h.digits
  have hpos := Nat.pos_of_ne_zero ((names_shortestDigits hm h he).digits_ne_zero hm)
  have hcount := toNat_toUInt64 (digits_shortestDigits_lt hm h he)
  have hvalue := value_shortestDigits_le hm h he
  rcases lt_or_ge (shortestDigits m e).scanned.exponent 0 with hneg | hnonneg
  · exact exists_scale_of_neg 4 (isFinite_toFloat _) hneg
  by_cases htop : e ≤ 970 ∨ m ≤ 2 ^ 53 - 4
  · unfold rescaled
    generalize shortestDigits m e = d at hpos hcount hvalue hnonneg ⊢
    have hsame : d.scanned = d := by
      unfold Digits.scanned at hnonneg ⊢
      split at hnonneg
      · exact absurd hnonneg (not_le.2 neg_one_lt_zero)
      · next hwhole => rw [if_neg hwhole]
    rw [hsame] at hnonneg ⊢
    rw [Digits.value, ← Int.toNat_of_nonneg hnonneg, zpow_natCast] at hvalue
    have hlifted : (d.digits : ℚ) * 10 ^ d.exponent.toNat * (1 + 1 / 2 ^ 53) ^ 2 ≤ largest :=
      (mul_le_mul_of_nonneg_right hvalue (by positivity)).trans (lifted_le_largest hdigits he htop)
    exact exists_scale_of_le 4 (by rwa [hcount]) hnonneg (by rwa [hcount])
  · obtain ⟨i, hi, rfl⟩ : ∃ i < 3, m = 2 ^ 53 - 3 + i := ⟨m - (2 ^ 53 - 3), by omega, by omega⟩
    have hlast : e = 971 := by omega
    subst hlast
    have htop := rescaled_top i hi
    rwa [Option.any_eq_true] at htop

/-- Brief digits are read as the double that they have been written for. -/
theorem exact_rescaled_of_brief (hbrief : (shortestDigits m e).Brief) {y : Float}
    (hy : rescaled m e = some y) : exact y = m * 2 ^ e := by
  have hcount := toNat_toUInt64 (hbrief.1.trans (by decide))
  have hnearest := nearest_of_scale (by rw [hcount]; exact hbrief.1) hbrief.2 hy
  have hnonneg : 0 ≤ (shortestDigits m e).value :=
    (RoundingInterval.low_pos hm).le.trans (names_shortestDigits hm h he).contains.bounds.1
  have hround : roundSigned .binary64 (shortestDigits m e).value = m * 2 ^ e := by
    rw [roundSigned_of_nonneg hnonneg, roundAbs_shortestDigits hm h he]
  have hlimit : |(m : ℚ) * 2 ^ e| ≤ limit .binary64 := by
    have hbits : Format.binary64.mantissaBitsWithoutImplicit = 52 := by decide
    have hbias : Format.binary64.exponentBias = 1023 := by decide
    rw [abs_of_nonneg (natCast_mul_zpow_nonneg m e)]
    exact (h.lt_limit (by omega)).le
  rw [hnearest.exact_eq, hcount]
  show nearest .binary64 (shortestDigits m e).scanned.value = m * 2 ^ e
  rw [Digits.value_scanned, nearest_of_abs_le (by rwa [hround]), hround]

end

/-! ## Texts of doubles -/

/-- Written digits are read as a number after their sign. -/
theorem readValue_written (negative : Bool) {d : Digits} (hd : d.digits ≠ 0)
    (hlimit : d.digits ≤ significandLimit) (hexponent : d.exponent.natAbs ≤ 0x10000000) :
    readValue 0 (WrittenFloat.sign negative ++ d.marked (.double .signed)).toList
      = (floatNumber negative d.scanned.digits d.scanned.exponent []).map
        fun (n, rest) => (n.toJson, rest) := by
  rw [← readNumber_marked hd hlimit hexponent, String.toList_append]
  cases negative with
  | true => exact readValue_minus rfl
  | false =>
    obtain ⟨c, cs, htext, hc⟩ := exists_digit_marked (.double .signed) d
    rw [htext]
    exact readValue_digit (skipSpace_cons (skipSpace_of_digit hc) cs) hc

/-- A double that is not zero, by its digits. -/
theorem json_double_of_unpack {x : Float} {s : UnpackedFloat.Sign} {hm : 0 < m}
    (h : x.toModel.unpack = .finite s m e hm) :
    (Report.double x).json = WrittenFloat.sign (s == .negative)
      ++ (shortestDigits m e).marked (.double .signed) := by
  show ((WrittenFloat.ofUnpacked 53 (-1074) x.toModel.unpack).marked (.double .signed)).getD _ = _
  rw [h]
  rfl

theorem floatNumber_of_scale {negative : Bool} {n : ℕ} {y : Float}
    (hscale : scale 4 n.toUInt64.toFloat e = some y) {x : FiniteFloat}
    (hx : (if negative then -y else y) = x.1) :
    floatNumber negative n e [] = .ok (.float x, []) := by
  obtain ⟨x, hfinite⟩ := x
  simp only at hx
  subst hx
  rw [floatNumber, hscale]
  exact dif_pos hfinite

/-- What is read for a double that is not zero is what its digits are scaled to, with its sign. -/
theorem readsAs_of_rescaled {x y : FiniteFloat} {z : Float} {s : UnpackedFloat.Sign} {hm : 0 < m}
    (h : x.1.toModel.unpack = .finite s m e hm) (hfits : Fits .binary64 m e) (he : e ≤ 971)
    (hz : rescaled m e = some z) (hy : (if s == .negative then -z else z) = y.1) :
    ReadsAs x y := by
  have hnames := names_shortestDigits hm hfits he
  have hlimit : (shortestDigits m e).digits ≤ significandLimit :=
    Nat.le_of_lt_succ (digits_shortestDigits_lt hm hfits he)
  rw [ReadsAs, json_double_of_unpack h,
    readValue_written _ (hnames.digits_ne_zero hm) hlimit (hnames.exponent_le.trans (by decide)),
    floatNumber_of_scale hz hy]
  rfl

/-- The zeros are read as they are written. -/
theorem exists_exact_zero (s : UnpackedFloat.Sign) :
    ∃ z : FiniteFloat, z.1.toModel.unpack = .zero s ∧ Exact z := by
  cases s
  · exact ⟨⟨-0.0, by decide +kernel⟩, rfl, by decide +kernel⟩
  · exact ⟨⟨0.0, by decide +kernel⟩, rfl, by decide +kernel⟩

theorem exact_of_zero {x : FiniteFloat} {s : UnpackedFloat.Sign}
    (h : x.1.toModel.unpack = .zero s) : Exact x := by
  obtain ⟨z, hz, hexact⟩ := exists_exact_zero s
  rwa [Subtype.ext (eq_of_unpack_eq (h.trans hz.symm))]

/-- A double is a zero, or it has digits and an exponent. -/
theorem unpack_cases (x : FiniteFloat) :
    (∃ s, x.1.toModel.unpack = .zero s)
      ∨ ∃ s m e hm, x.1.toModel.unpack = .finite s m e hm ∧ Fits .binary64 m e ∧ e ≤ 971 := by
  have hformat := inFormat x.1
  have hfinite : x.1.toModel.unpack.isFinite = true := x.2
  have hbits : Format.binary64.mantissaBitsWithoutImplicit = 52 := by decide
  have hbias : Format.binary64.exponentBias = 1023 := by decide
  generalize x.1.toModel.unpack = f at hformat hfinite
  cases f with
  | infinity => cases hfinite
  | notANumber => cases hfinite
  | zero s => exact .inl ⟨s, rfl⟩
  | finite s m e hm =>
    have hlast := hformat.2
    exact .inr ⟨s, m, e, hm, rfl, hformat.1, by omega⟩

/-- **The text of a double is read as some double.** -/
theorem exists_readsAs (x : FiniteFloat) : ∃ y, ReadsAs x y := by
  obtain ⟨s, hx⟩ | ⟨s, m, e, hm, hx, hfits, he⟩ := unpack_cases x
  · exact ⟨x, exact_of_zero hx⟩
  · obtain ⟨z, hz, hfinite⟩ := exists_rescaled hm hfits he
    have hsigned : (if s == .negative then -z else z).isFinite = true := by
      split
      · exact isFinite_neg hfinite
      · exact hfinite
    exact ⟨⟨_, hsigned⟩, readsAs_of_rescaled hx hfits he hz rfl⟩

/-- The double that is read for what is written for another. -/
def reread (x : FiniteFloat) : FiniteFloat :=
  (lastFloat? (readValue 0 (Report.double x.1).json.toList)).getD x

theorem readsAs_reread (x : FiniteFloat) : ReadsAs x (reread x) := by
  obtain ⟨y, hy⟩ := exists_readsAs x
  rw [reread, lastFloat?_eq_some_iff.2 hy]
  exact hy

theorem reread_eq_self_iff {x : FiniteFloat} : reread x = x ↔ Exact x := by
  constructor
  · intro h
    have hreads := readsAs_reread x
    rwa [h] at hreads
  · intro h
    rw [reread, lastFloat?_eq_some_iff.2 h]
    rfl

/-! ## Brief digits -/

/-- The digits that a double is written with, unless it is zero. -/
def digits? (x : FiniteFloat) : Option Digits :=
  match x.1.toModel.unpack with
  | .finite _ m e _ => some (shortestDigits m e)
  | _ => none

/-- A double is zero or has brief digits. -/
def Brief (x : FiniteFloat) : Prop := ∀ d ∈ digits? x, d.Brief

instance (x : FiniteFloat) : Decidable (Brief x) :=
  inferInstanceAs (Decidable (∀ d ∈ digits? x, d.Brief))

/-- **A double with brief digits is read as itself.** -/
theorem reread_of_brief {x : FiniteFloat} (h : Brief x) : reread x = x := by
  rw [reread_eq_self_iff]
  obtain ⟨s, hx⟩ | ⟨s, m, e, hm, hx, hfits, he⟩ := unpack_cases x
  · exact exact_of_zero hx
  · obtain ⟨z, hz, hfinite⟩ := exists_rescaled hm hfits he
    have hbrief : (shortestDigits m e).Brief := h _ (by rw [digits?, hx]; rfl)
    have hpos : (0 : ℚ) < m * 2 ^ e := mul_pos (by exact_mod_cast hm) (two_zpow_pos e)
    have hexact := exact_rescaled_of_brief hm hfits he hbrief hz
    have hvalue : exact x.1 = signed s (m * 2 ^ e) := by
      rw [exact, hx]
      rfl
    refine readsAs_of_rescaled hx hfits he hz ?_
    cases s with
    | positive =>
      exact eq_of_exact_eq hfinite x.2 (hexact.trans_ne hpos.ne') (hexact.trans hvalue.symm)
    | negative =>
      have hneg : exact (-z) = -(m * 2 ^ e) := by rw [exact_neg hfinite, hexact]
      exact eq_of_exact_eq (isFinite_neg hfinite) x.2 (hneg.trans_ne (neg_ne_zero.2 hpos.ne'))
        (hneg.trans hvalue.symm)

-- The digits of 2.75 are brief, those of four thirds are not.
example : Brief ⟨2.75, by decide +kernel⟩ ∧ ¬Brief ⟨4 / 3, by decide +kernel⟩ := by
  decide +kernel

end Json

end BranchingDialogue
