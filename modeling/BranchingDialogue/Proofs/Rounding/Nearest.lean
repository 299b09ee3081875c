import Mathlib.Algebra.Order.Floor.Semiring
import Mathlib.Data.Int.Log
import Mathlib.Data.Rat.Floor
import Mathlib.Tactic.Linarith
import Mathlib.Tactic.NormNum
import Mathlib.Tactic.Positivity
import Mathlib.Tactic.Ring

/-!
# The nearest number of a format

Rounding as a function on rational numbers. A binary format has numbers with so many digits and with
exponents from a least one on. A number is rounded at the place of the last digit that numbers of its
size have, to the nearest multiple, of two the even one; what comes to or beyond the end of the
exponents counts as the end, `limit`.

What the rest needs of rounding is that it keeps the order and leaves the numbers of the format as
they are. With these two, a bound that the format has is a bound of what is rounded.

Main results:
- `nearestEven_mono`, `roundAbs_mono`, `nearest_mono`: rounding keeps the order;
- `roundAbs_of_grid`, `nearest_of_grid`: and it leaves the numbers of the format as they are.
-/

namespace BranchingDialogue.Rounding

open Float.Model

/-! ## Whole numbers -/

/-- The whole number nearest to one that is not negative, of two the even one. -/
def nearestEven (q : ℚ) : ℕ :=
  if q < ⌊q⌋₊ + 1 / 2 then ⌊q⌋₊
  else if q = ⌊q⌋₊ + 1 / 2 then ⌊q⌋₊ + ⌊q⌋₊ % 2
  else ⌊q⌋₊ + 1

theorem floor_le_nearestEven (q : ℚ) : ⌊q⌋₊ ≤ nearestEven q := by
  unfold nearestEven
  split
  · exact le_refl _
  · split
    · exact Nat.le_add_right _ _
    · exact Nat.le_succ _

theorem nearestEven_le_floor (q : ℚ) : nearestEven q ≤ ⌊q⌋₊ + 1 := by
  unfold nearestEven
  split
  · exact Nat.le_succ _
  · split
    · have := Nat.mod_lt ⌊q⌋₊ two_pos
      omega
    · exact le_refl _

theorem nearestEven_natCast (n : ℕ) : nearestEven (n : ℚ) = n := by
  unfold nearestEven
  rw [Nat.floor_natCast, if_pos]
  linarith

theorem nearestEven_mono {q r : ℚ} (h : q ≤ r) : nearestEven q ≤ nearestEven r := by
  have hfloor : ⌊q⌋₊ ≤ ⌊r⌋₊ := Nat.floor_mono h
  by_cases heq : ⌊q⌋₊ = ⌊r⌋₊
  · unfold nearestEven
    rw [heq]
    have hmod := Nat.mod_lt ⌊r⌋₊ two_pos
    by_cases hq : q < ⌊r⌋₊ + 1 / 2
    · rw [if_pos hq]
      split
      · exact le_refl _
      · split <;> omega
    · have hr : ¬r < ⌊r⌋₊ + 1 / 2 := fun hr => hq (lt_of_le_of_lt h hr)
      rw [if_neg hq, if_neg hr]
      by_cases hhalf : q = ⌊r⌋₊ + 1 / 2
      · rw [if_pos hhalf]
        split <;> omega
      · have hne : r ≠ ⌊r⌋₊ + 1 / 2 := fun heq =>
          hhalf (le_antisymm (h.trans heq.le) (not_lt.1 hq))
        rw [if_neg hhalf, if_neg hne]
  · have hlt : ⌊q⌋₊ + 1 ≤ ⌊r⌋₊ := by omega
    exact (nearestEven_le_floor q).trans (hlt.trans (floor_le_nearestEven r))

theorem nearestEven_le {q : ℚ} {n : ℕ} (h : q ≤ n) : nearestEven q ≤ n := by
  have hle := nearestEven_mono h
  rwa [nearestEven_natCast] at hle

theorem le_nearestEven {q : ℚ} {n : ℕ} (h : (n : ℚ) ≤ q) : n ≤ nearestEven q := by
  have hle := nearestEven_mono h
  rwa [nearestEven_natCast] at hle

/-- A number that is no more than one half away from a whole number is rounded to it; if it is just one
half away, to an even one. -/
theorem nearestEven_eq {q : ℚ} {n : ℕ} (hq : 0 ≤ q) (hlow : n - 1 / 2 ≤ q) (hhigh : q ≤ n + 1 / 2)
    (htie : n % 2 = 0 ∨ n - 1 / 2 < q ∧ q < n + 1 / 2) : nearestEven q = n := by
  unfold nearestEven
  rcases le_or_gt (n : ℚ) q with hle | hlt
  · have hfloor : ⌊q⌋₊ = n := (Nat.floor_eq_iff hq).2 ⟨hle, by linarith⟩
    rw [hfloor]
    split
    · rfl
    · next hhalf =>
      rcases htie with heven | ⟨-, hless⟩
      · rw [if_pos (le_antisymm hhigh (not_lt.1 hhalf)), heven, Nat.add_zero]
      · exact absurd hless hhalf
  · have hpos : 0 < n := by exact_mod_cast hq.trans_lt hlt
    obtain ⟨k, rfl⟩ := Nat.exists_eq_succ_of_ne_zero hpos.ne'
    rw [Nat.cast_succ] at hlt hlow htie
    have hfloor : ⌊q⌋₊ = k := (Nat.floor_eq_iff hq).2 ⟨by linarith, hlt⟩
    rw [hfloor, if_neg (by linarith)]
    split
    · next hhalf =>
      rcases htie with heven | ⟨hless, -⟩
      · omega
      · exact absurd hhalf (by linarith)
    · rfl

theorem nearestEven_le_add_half {q : ℚ} (hq : 0 ≤ q) : (nearestEven q : ℚ) ≤ q + 1 / 2 := by
  have hfloor := Nat.floor_le hq
  unfold nearestEven
  split
  · linarith
  · next hhalf =>
    split
    · next htie =>
      have hmod : ((⌊q⌋₊ % 2 : ℕ) : ℚ) ≤ 1 := by
        exact_mod_cast Nat.lt_succ_iff.1 (Nat.mod_lt ⌊q⌋₊ two_pos)
      rw [Nat.cast_add]
      linarith
    · rw [Nat.cast_succ]
      linarith

/-! ## Places -/

variable (F : Format)

/-- The exponent of the last digit that numbers of a size have. -/
def place (v : ℚ) : ℤ := F.targetExponent (Int.log 2 v + 1)

/-- A number that is not negative, rounded at its place. -/
def roundAbs (v : ℚ) : ℚ := nearestEven (v / 2 ^ place F v) * 2 ^ place F v

/-- Numbers that a format has, but for the end of its exponents. -/
def Grid (v : ℚ) : Prop :=
  ∃ (m : ℕ) (e : ℤ), m < 2 ^ F.mantissaBits ∧ F.minExponent ≤ e ∧ v = m * 2 ^ e

variable {F}

theorem mantissaBits_eq : F.mantissaBits = F.mantissaBitsWithoutImplicit + 1 :=
  Nat.add_comm 1 _

theorem two_zpow_pos (e : ℤ) : (0 : ℚ) < 2 ^ e := zpow_pos two_pos e

theorem le_of_log_le {v : ℚ} (hv : 0 < v) : (2 : ℚ) ^ Int.log 2 v ≤ v := by
  have h := Int.zpow_log_le_self (b := 2) (by decide) hv
  exact_mod_cast h

theorem lt_of_log_lt {v : ℚ} (e : ℤ) (h : Int.log 2 v < e) : v < 2 ^ e := by
  have hlt := Int.lt_zpow_succ_log_self (b := 2) (by decide) v
  have hpow : (2 : ℚ) ^ (Int.log 2 v + 1) ≤ 2 ^ e :=
    zpow_le_zpow_right₀ (by norm_num) (by omega)
  exact lt_of_lt_of_le (by exact_mod_cast hlt) hpow

theorem log_lt_of_lt {v : ℚ} (hv : 0 < v) {e : ℤ} (h : v < 2 ^ e) : Int.log 2 v < e := by
  by_contra hle
  have hpow : (2 : ℚ) ^ e ≤ 2 ^ Int.log 2 v :=
    zpow_le_zpow_right₀ (by norm_num) (by omega)
  exact absurd h (not_lt.2 (hpow.trans (le_of_log_le hv)))

theorem le_log_of_le {v : ℚ} {e : ℤ} (h : (2 : ℚ) ^ e ≤ v) : e ≤ Int.log 2 v := by
  by_contra hlt
  exact absurd h (not_le.2 (lt_of_log_lt e (by omega)))

/-- The size of a number with an exponent is that of its digits. -/
theorem log_natCast_mul_zpow {m : ℕ} (hm : 0 < m) (e : ℤ) :
    Int.log 2 ((m : ℚ) * 2 ^ e) = m.log2 + e := by
  have hm' : (0 : ℚ) < m := by exact_mod_cast hm
  have hlow : (2 : ℚ) ^ ((m.log2 : ℤ) + e) ≤ m * 2 ^ e := by
    rw [zpow_add₀ two_ne_zero, zpow_natCast]
    have h := Nat.log2_self_le hm.ne'
    exact mul_le_mul_of_nonneg_right (by exact_mod_cast h) (two_zpow_pos e).le
  have hhigh : (m : ℚ) * 2 ^ e < 2 ^ ((m.log2 : ℤ) + 1 + e) := by
    rw [zpow_add₀ two_ne_zero, ← Nat.cast_succ, zpow_natCast]
    have h : m < 2 ^ (m.log2 + 1) := Nat.lt_log2_self
    exact mul_lt_mul_of_pos_right (by exact_mod_cast h) (two_zpow_pos e)
  have h₁ := le_log_of_le hlow
  have h₂ := log_lt_of_lt (mul_pos hm' (two_zpow_pos e)) hhigh
  omega

theorem minExponent_le_place (v : ℚ) : F.minExponent ≤ place F v :=
  le_max_right _ _

theorem place_mono {v w : ℚ} (hv : 0 < v) (h : v ≤ w) : place F v ≤ place F w := by
  have hlog := Int.log_mono_right (b := 2) hv h
  unfold place Format.targetExponent
  omega

/-- A number has no more digits before its place than the format has. -/
theorem lt_of_place (v : ℚ) : v < 2 ^ ((F.mantissaBits : ℤ) + place F v) := by
  apply lt_of_log_lt
  unfold place Format.targetExponent
  omega

/-- A number has all the digits that the format has, unless its place is the last one of all. -/
theorem le_of_place {v : ℚ} (hv : 0 < v) (h : F.minExponent < place F v) :
    (2 : ℚ) ^ ((F.mantissaBits : ℤ) - 1 + place F v) ≤ v := by
  have hplace : (F.mantissaBits : ℤ) - 1 + place F v = Int.log 2 v := by
    unfold place Format.targetExponent at h ⊢
    omega
  rw [hplace]
  exact le_of_log_le hv

theorem place_le_of_grid {m : ℕ} {e : ℤ} (hm : 0 < m) (hdigits : m < 2 ^ F.mantissaBits)
    (he : F.minExponent ≤ e) : place F ((m : ℚ) * 2 ^ e) ≤ e := by
  have hlog : m.log2 < F.mantissaBits := (Nat.log2_lt hm.ne').2 hdigits
  unfold place Format.targetExponent
  rw [log_natCast_mul_zpow hm]
  omega

/-- Rounding gives at most one digit more than the format has. -/
theorem nearestEven_place_le (v : ℚ) :
    nearestEven (v / 2 ^ place F v) ≤ 2 ^ F.mantissaBits := by
  apply nearestEven_le
  rw [div_le_iff₀ (two_zpow_pos _), Nat.cast_pow, Nat.cast_ofNat, ← zpow_natCast,
    ← zpow_add₀ two_ne_zero]
  exact (lt_of_place v).le

/-- It takes none away. -/
theorem le_nearestEven_place {v : ℚ} (hv : 0 < v) (h : F.minExponent < place F v) :
    2 ^ F.mantissaBitsWithoutImplicit ≤ nearestEven (v / 2 ^ place F v) := by
  have hle := le_of_place hv h
  have hexponent : (F.mantissaBits : ℤ) - 1 = F.mantissaBitsWithoutImplicit := by
    have := mantissaBits_eq (F := F)
    omega
  apply le_nearestEven
  rw [le_div_iff₀ (two_zpow_pos _), Nat.cast_pow, Nat.cast_ofNat, ← zpow_natCast,
    ← zpow_add₀ two_ne_zero, ← hexponent]
  exact hle

/-! ## Rounding at a place -/

/-- A whole number of units in the last place, as a whole number of units in a lower one. -/
theorem exists_natCast_mul_zpow_div (m : ℕ) {e low : ℤ} (h : low ≤ e) :
    ∃ k : ℕ, (m : ℚ) * 2 ^ e / 2 ^ low = k := by
  obtain ⟨d, hd⟩ := Int.eq_ofNat_of_zero_le (sub_nonneg.2 h)
  refine ⟨m * 2 ^ d, ?_⟩
  rw [mul_div_assoc, ← zpow_sub₀ two_ne_zero, hd]
  push_cast
  rw [zpow_natCast]

theorem roundAbs_zero : roundAbs F 0 = 0 := by
  have h := nearestEven_natCast 0
  rw [Nat.cast_zero] at h
  unfold roundAbs
  rw [zero_div, h, Nat.cast_zero, zero_mul]

theorem roundAbs_nonneg (v : ℚ) : 0 ≤ roundAbs F v :=
  mul_nonneg (Nat.cast_nonneg _) (two_zpow_pos _).le

/-- A multiple of the unit in the last place is left as it is. -/
theorem roundAbs_of_natCast {v : ℚ} {k : ℕ} (h : v / 2 ^ place F v = k) :
    roundAbs F v = v := by
  unfold roundAbs
  rw [h, nearestEven_natCast, ← h, div_mul_cancel₀ v (two_zpow_pos _).ne']

/-- **Numbers of the format are left as they are.** -/
theorem roundAbs_of_grid {v : ℚ} (h : Grid F v) : roundAbs F v = v := by
  obtain ⟨m, e, hdigits, he, rfl⟩ := h
  by_cases hm : m = 0
  · rw [hm, Nat.cast_zero, zero_mul, roundAbs_zero]
  · obtain ⟨k, hk⟩ :=
      exists_natCast_mul_zpow_div m (place_le_of_grid (Nat.pos_of_ne_zero hm) hdigits he)
    exact roundAbs_of_natCast hk

/-- A bound at a place that has at least the place of a number bounds what it is rounded to. -/
theorem roundAbs_le_zpow {v : ℚ} {e : ℤ} (hplace : place F v ≤ e) (h : v ≤ 2 ^ e) :
    roundAbs F v ≤ 2 ^ e := by
  obtain ⟨k, hk⟩ := exists_natCast_mul_zpow_div 1 hplace
  rw [Nat.cast_one, one_mul] at hk
  have hpos := two_zpow_pos (place F v)
  have hle : v / 2 ^ place F v ≤ k := by
    rw [← hk]
    exact div_le_div_of_nonneg_right h hpos.le
  have hround : (nearestEven (v / 2 ^ place F v) : ℚ) ≤ k := by
    exact_mod_cast nearestEven_le hle
  calc roundAbs F v ≤ k * 2 ^ place F v := mul_le_mul_of_nonneg_right hround hpos.le
    _ = 2 ^ e := by rw [← hk, div_mul_cancel₀ _ hpos.ne']

theorem zpow_le_roundAbs {v : ℚ} {e : ℤ} (hplace : place F v ≤ e) (h : 2 ^ e ≤ v) :
    2 ^ e ≤ roundAbs F v := by
  obtain ⟨k, hk⟩ := exists_natCast_mul_zpow_div 1 hplace
  rw [Nat.cast_one, one_mul] at hk
  have hpos := two_zpow_pos (place F v)
  have hle : (k : ℚ) ≤ v / 2 ^ place F v := by
    rw [← hk]
    exact div_le_div_of_nonneg_right h hpos.le
  have hround : (k : ℚ) ≤ nearestEven (v / 2 ^ place F v) := by
    exact_mod_cast le_nearestEven hle
  calc (2 : ℚ) ^ e = k * 2 ^ place F v := by rw [← hk, div_mul_cancel₀ _ hpos.ne']
    _ ≤ roundAbs F v := mul_le_mul_of_nonneg_right hround hpos.le

/-- **Rounding keeps the order.** Two numbers at one place are rounded to multiples of the same unit;
between two at different places lies a power of two that either can be compared with. -/
theorem roundAbs_mono {v w : ℚ} (hv : 0 ≤ v) (h : v ≤ w) : roundAbs F v ≤ roundAbs F w := by
  rcases hv.eq_or_lt with rfl | hv
  · rw [roundAbs_zero]
    exact roundAbs_nonneg w
  have hw : 0 < w := lt_of_lt_of_le hv h
  rcases (place_mono (F := F) hv h).eq_or_lt with heq | hlt
  · have hpos := two_zpow_pos (place F w)
    unfold roundAbs
    rw [heq]
    have hround : nearestEven (v / 2 ^ place F w) ≤ nearestEven (w / 2 ^ place F w) :=
      nearestEven_mono (div_le_div_of_nonneg_right h hpos.le)
    exact mul_le_mul_of_nonneg_right (by exact_mod_cast hround) hpos.le
  · have hbits : 0 < F.mantissaBits := by
      unfold Format.mantissaBits
      omega
    have hmin := minExponent_le_place (F := F) v
    -- The power of two at which the larger number has its first digit.
    have hmid : place F v ≤ (F.mantissaBits : ℤ) - 1 + place F w := by omega
    have hsmall : v ≤ 2 ^ ((F.mantissaBits : ℤ) - 1 + place F w) := by
      have hdigits := lt_of_place (F := F) v
      have hpow : (2 : ℚ) ^ ((F.mantissaBits : ℤ) + place F v)
          ≤ 2 ^ ((F.mantissaBits : ℤ) - 1 + place F w) :=
        zpow_le_zpow_right₀ (by norm_num) (by omega)
      exact hdigits.le.trans hpow
    have hlarge := le_of_place hw (show F.minExponent < place F w by omega)
    exact (roundAbs_le_zpow hmid hsmall).trans (zpow_le_roundAbs (by omega) hlarge)

/-- Of a number that has all the digits of the format, half a unit of the last place is a small part. -/
theorem half_unit_le {v : ℚ} (hv : 0 < v) (h : F.minExponent < place F v) :
    (2 : ℚ) ^ place F v / 2 ≤ v / 2 ^ F.mantissaBits := by
  have hdigits := le_of_place hv h
  rw [sub_add_eq_add_sub, zpow_sub_one₀ two_ne_zero, zpow_add₀ two_ne_zero, zpow_natCast] at hdigits
  rw [le_div_iff₀ (pow_pos two_pos _)]
  linarith

/-- Of a number that has all the digits of the format, rounding adds at most a small part. -/
theorem roundAbs_le_mul {v : ℚ} (hv : 0 < v) (h : F.minExponent < place F v) :
    roundAbs F v ≤ v * (1 + 1 / 2 ^ F.mantissaBits) := by
  have hpos := two_zpow_pos (place F v)
  have hunit := half_unit_le hv h
  calc roundAbs F v ≤ (v / 2 ^ place F v + 1 / 2) * 2 ^ place F v :=
        mul_le_mul_of_nonneg_right (nearestEven_le_add_half (div_pos hv hpos).le) hpos.le
    _ = v + 2 ^ place F v / 2 := by
      rw [add_mul, div_mul_cancel₀ _ hpos.ne']
      ring
    _ ≤ v * (1 + 1 / 2 ^ F.mantissaBits) := by
      rw [mul_add, mul_one, mul_one_div]
      linarith

/-! ## Signs and the end of the exponents -/

variable (F)

/-- A number rounded at its place. -/
def roundSigned (q : ℚ) : ℚ := if q < 0 then -roundAbs F (-q) else roundAbs F q

/-- Where the exponents of a format end. -/
def limit : ℚ := 2 ^ (F.exponentBias + 1)

/-- The number of a format that is nearest to a number, where its end stands for all beyond it. -/
def nearest (q : ℚ) : ℚ := max (-limit F) (min (limit F) (roundSigned F q))

variable {F}

theorem limit_pos : 0 < limit F := pow_pos two_pos _

theorem roundSigned_of_nonneg {q : ℚ} (h : 0 ≤ q) : roundSigned F q = roundAbs F q :=
  if_neg (not_lt.2 h)

theorem roundSigned_neg (q : ℚ) : roundSigned F (-q) = -roundSigned F q := by
  unfold roundSigned
  rcases lt_trichotomy q 0 with h | rfl | h
  · rw [if_neg (by linarith), if_pos h, neg_neg]
  · simp only [neg_zero, lt_irrefl, if_false, roundAbs_zero]
  · rw [if_pos (by linarith), if_neg (by linarith), neg_neg]

theorem roundSigned_mono {q r : ℚ} (h : q ≤ r) : roundSigned F q ≤ roundSigned F r := by
  unfold roundSigned
  by_cases hq : q < 0
  · rw [if_pos hq]
    by_cases hr : r < 0
    · rw [if_pos hr]
      have hround := roundAbs_mono (F := F) (v := -r) (w := -q) (by linarith) (by linarith)
      linarith
    · rw [if_neg hr]
      have hleft := roundAbs_nonneg (F := F) (-q)
      have hright := roundAbs_nonneg (F := F) r
      linarith
  · rw [if_neg hq, if_neg (by linarith)]
    exact roundAbs_mono (not_lt.1 hq) h

theorem roundSigned_of_grid {q : ℚ} (h : Grid F |q|) : roundSigned F q = q := by
  unfold roundSigned
  by_cases hq : q < 0
  · rw [abs_of_neg hq] at h
    rw [if_pos hq, roundAbs_of_grid h, neg_neg]
  · rw [abs_of_nonneg (not_lt.1 hq)] at h
    rw [if_neg hq, roundAbs_of_grid h]

theorem nearest_mono {q r : ℚ} (h : q ≤ r) : nearest F q ≤ nearest F r :=
  max_le_max (le_refl _) (min_le_min (le_refl _) (roundSigned_mono h))

/-- What is rounded to a number that is not beyond the end is that number. -/
theorem nearest_of_abs_le {q : ℚ} (h : |roundSigned F q| ≤ limit F) :
    nearest F q = roundSigned F q := by
  obtain ⟨hlow, hhigh⟩ := abs_le.1 h
  unfold nearest
  rw [min_eq_right hhigh, max_eq_right hlow]

theorem nearest_of_grid {q : ℚ} (hgrid : Grid F |q|) (h : |q| ≤ limit F) :
    nearest F q = q := by
  have hround := roundSigned_of_grid hgrid
  rw [nearest_of_abs_le (by rwa [hround]), hround]

/-- A bound that the format has is a bound of what is rounded. -/
theorem abs_nearest_le {q b : ℚ} (hb : 0 ≤ b) (hgrid : Grid F b) (hlimit : b ≤ limit F)
    (h : |q| ≤ b) : |nearest F q| ≤ b := by
  obtain ⟨hlow, hhigh⟩ := abs_le.1 h
  have hneg : nearest F (-b) = -b :=
    nearest_of_grid (by rwa [abs_neg, abs_of_nonneg hb]) (by rwa [abs_neg, abs_of_nonneg hb])
  have hpos : nearest F b = b :=
    nearest_of_grid (by rwa [abs_of_nonneg hb]) (by rwa [abs_of_nonneg hb])
  rw [abs_le]
  exact ⟨hneg ▸ nearest_mono hlow, hpos ▸ nearest_mono hhigh⟩

/-- Rounding a number that is not negative does not lift it but to its place. -/
theorem nearest_le_roundAbs {q : ℚ} (hq : 0 ≤ q) : nearest F q ≤ roundAbs F q := by
  have hlimit := limit_pos (F := F)
  have hround := roundAbs_nonneg (F := F) q
  rw [nearest, roundSigned_of_nonneg hq]
  exact max_le (by linarith) (min_le_right _ _)

end BranchingDialogue.Rounding
