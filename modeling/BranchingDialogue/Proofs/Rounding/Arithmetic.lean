import BranchingDialogue.Proofs.Rounding.Packed

/-!
# Machine arithmetic rounds exact results

Sums, differences, products and quotients of ordinary numbers of a format are the exact ones, rounded
once. A sum is taken over the lower of two exponents, where it is a sum of whole numbers; a product
has all its digits; a quotient is taken with so many digits that none before its place is missing,
and what the division leaves over tells the rest.

Two different numbers of a format do not come arbitrarily close to each other: they differ by as much
as the last place of the larger one, or half of that (`Fits.le_sub`). So the part of a number that is
left when a smaller one is taken away does not vanish.

Main results:
- `rounded_add`, `rounded_sub`, `rounded_mul`, `rounded_div`: results are the exact ones, rounded;
- `nearest_sub_pos`: the difference of two numbers does not vanish;
- `nearest_remainder`: what remains of a number, as a part of it, is neither zero nor more than one.
-/

namespace BranchingDialogue.Rounding

open Float.Model Float.Model.UnpackedFloat

variable {F : Format} {x y : UnpackedFloat}

theorem canonical_of_isFinite (hx : InFormat F x) (h : x.isFinite = true) : Canonical F x := by
  cases x with
  | infinity => cases h
  | notANumber => cases h
  | zero => trivial
  | finite s m e hm => exact hx.1

theorem signed_apply (s : Sign) (m : ℕ) (e : ℤ) :
    signed s (m * 2 ^ e) = ((s.apply m : ℤ) : ℚ) * 2 ^ e := by
  cases s
  · show -((m : ℚ) * 2 ^ e) = ((-(m : ℤ) : ℤ) : ℚ) * 2 ^ e
    push_cast
    ring
  · show (m : ℚ) * 2 ^ e = ((m : ℤ) : ℚ) * 2 ^ e
    push_cast
    ring

/-- A number over a lower exponent. -/
theorem decreaseExponent_apply (s : Sign) (m : ℕ) {e low : ℤ} (h : low ≤ e) :
    ((s.apply (decreaseExponent m e low).1 : ℤ) : ℚ) * 2 ^ low = signed s (m * 2 ^ e) := by
  have hlow : (decreaseExponent m e low).2 = low := by
    simp only [decreaseExponent]
    omega
  rw [← signed_apply, ← decreaseExponent_value m e low, hlow]

/-- A sum is the exact one, rounded. -/
theorem rounded_add (hx : Canonical F x) (hy : Canonical F y) :
    Rounded F (value F x + value F y) (UnpackedFloat.add F x y) := by
  cases x with
  | infinity => exact absurd hx id
  | notANumber => exact absurd hx id
  | zero s =>
    show Rounded F (0 + value F y) _
    rw [zero_add]
    cases y with
    | infinity => exact absurd hy id
    | notANumber => exact absurd hy id
    | zero s' =>
      have hzero : ∀ sign, Rounded F (value F (.zero s')) (.zero sign) := fun sign =>
        Canonical.rounded (f := .zero sign) trivial
      show Rounded F _ (if s == s' then .zero s else .zero .positive)
      split
      · exact hzero s
      · exact hzero .positive
    | finite s' m' e' hm' => exact hy.rounded
  | finite s m e hm =>
    cases y with
    | infinity => exact absurd hy id
    | notANumber => exact absurd hy id
    | zero s' =>
      show Rounded F (value F (.finite s m e hm) + 0) _
      rw [add_zero]
      exact hx.rounded
    | finite s' m' e' hm' =>
      have hsum := rounded_normalize (F := F)
        (s.apply (decreaseExponent m e (min e e')).1 + s'.apply (decreaseExponent m' e' (min e e')).1)
        (min e e') .positive
      rw [Int.cast_add, add_mul, decreaseExponent_apply s m (min_le_left e e'),
        decreaseExponent_apply s' m' (min_le_right e e')] at hsum
      exact hsum

/-- A difference is the exact one, rounded. -/
theorem rounded_sub (hx : Canonical F x) (hy : Canonical F y) :
    Rounded F (value F x - value F y) (UnpackedFloat.sub F x y) := by
  cases x with
  | infinity => exact absurd hx id
  | notANumber => exact absurd hx id
  | zero s =>
    show Rounded F (0 - value F y) _
    rw [zero_sub]
    cases y with
    | infinity => exact absurd hy id
    | notANumber => exact absurd hy id
    | zero s' =>
      have hzero : ∀ sign, Rounded F (-value F (.zero s')) (.zero sign) := by
        intro sign
        rw [show -value F (.zero s') = value F (.zero sign) from neg_zero]
        exact Canonical.rounded (f := .zero sign) trivial
      show Rounded F _ (if s == -s' then .zero s else .zero .positive)
      split
      · exact hzero s
      · exact hzero .positive
    | finite s' m' e' hm' =>
      have hneg : -value F (.finite s' m' e' hm') = value F (.finite (-s') m' e' hm') := by
        cases s'
        · exact neg_neg _
        · rfl
      rw [hneg]
      exact Canonical.rounded (f := .finite (-s') m' e' hm') hy
  | finite s m e hm =>
    cases y with
    | infinity => exact absurd hy id
    | notANumber => exact absurd hy id
    | zero s' =>
      show Rounded F (value F (.finite s m e hm) - 0) _
      rw [sub_zero]
      exact hx.rounded
    | finite s' m' e' hm' =>
      have hdifference := rounded_normalize (F := F)
        (s.apply (decreaseExponent m e (min e e')).1 - s'.apply (decreaseExponent m' e' (min e e')).1)
        (min e e') .positive
      rw [Int.cast_sub, sub_mul, decreaseExponent_apply s m (min_le_left e e'),
        decreaseExponent_apply s' m' (min_le_right e e')] at hdifference
      exact hdifference

/-- A product is the exact one, rounded, if its digits reach down to its place. -/
theorem rounded_mul_of_le {s s' : Sign} {m m' : ℕ} {e e' : ℤ} (hm : 0 < m) (hm' : 0 < m')
    (hplace : e + e' ≤ place F (m * 2 ^ e * (m' * 2 ^ e'))) :
    Rounded F (signed (s * s') (m * 2 ^ e * (m' * 2 ^ e')))
      (UnpackedFloat.mul F (.finite s m e hm) (.finite s' m' e' hm')) := by
  have hm₁ : (0 : ℚ) < m := by exact_mod_cast hm
  have hm₂ : (0 : ℚ) < m' := by exact_mod_cast hm'
  have hproduct : (0 : ℚ) < m * 2 ^ e * (m' * 2 ^ e') :=
    mul_pos (mul_pos hm₁ (two_zpow_pos e)) (mul_pos hm₂ (two_zpow_pos e'))
  have hdigits : (m : ℚ) * 2 ^ e * (m' * 2 ^ e') / 2 ^ (e + e') = ((m * m' : ℕ) : ℚ) := by
    rw [div_eq_iff (two_zpow_pos _).ne', zpow_add₀ two_ne_zero]
    push_cast
    ring
  apply rounded_roundWithAccuracy (s * s') hproduct hplace
  rw [hdigits]
  exact describes_exact _

theorem minExponent_nonpos (hspec : 2 ≤ F.exponentBits) : F.minExponent ≤ 0 := by
  have hbias := exponentBias_pos hspec
  have hmin := minExponent_eq (F := F)
  omega

/-- The digits of a product reach down to its place, since one of two numbers has all the digits of
the format or both have the last place of all. -/
theorem Fits.add_le_place (hspec : 2 ≤ F.exponentBits) {m m' : ℕ} {e e' : ℤ} (hm : 0 < m)
    (hm' : 0 < m') (h : Fits F m e) (h' : Fits F m' e') :
    e + e' ≤ place F (m * 2 ^ e * (m' * 2 ^ e')) := by
  have hmin := minExponent_nonpos hspec
  have hbits := mantissaBits_eq (F := F)
  have hvalue : (m : ℚ) * 2 ^ e * (m' * 2 ^ e') = ((m * m' : ℕ) : ℚ) * 2 ^ (e + e') := by
    rw [zpow_add₀ two_ne_zero]
    push_cast
    ring
  have hlog : ∀ {n : ℕ}, 2 ^ F.mantissaBitsWithoutImplicit ≤ n → n ∣ m * m' →
      F.mantissaBitsWithoutImplicit ≤ (m * m').log2 := by
    intro n hn hdvd
    have hpos := Nat.mul_pos hm hm'
    exact (Nat.le_log2 hpos.ne').2 (hn.trans (Nat.le_of_dvd hpos hdvd))
  rw [hvalue, place, Format.targetExponent, log_natCast_mul_zpow (Nat.mul_pos hm hm')]
  by_cases he : F.minExponent < e
  · have hle := hlog (h.full he) (Nat.dvd_mul_right m m')
    omega
  · by_cases he' : F.minExponent < e'
    · have hle := hlog (h'.full he') (Nat.dvd_mul_left m' m)
      omega
    · omega

/-- A product is the exact one, rounded. -/
theorem rounded_mul (hspec : 2 ≤ F.exponentBits) (hx : Canonical F x)
    (hy : Canonical F y) :
    Rounded F (value F x * value F y) (UnpackedFloat.mul F x y) := by
  have hzero : ∀ sign, Rounded F 0 (.zero sign) := fun sign =>
    Canonical.rounded (f := .zero sign) trivial
  cases x with
  | infinity => exact absurd hx id
  | notANumber => exact absurd hx id
  | zero s =>
    show Rounded F (0 * value F y) _
    rw [zero_mul]
    cases y with
    | infinity => exact absurd hy id
    | notANumber => exact absurd hy id
    | zero s' => exact hzero (s * s')
    | finite s' m' e' hm' => exact hzero (s * s')
  | finite s m e hm =>
    cases y with
    | infinity => exact absurd hy id
    | notANumber => exact absurd hy id
    | zero s' =>
      show Rounded F (value F (.finite s m e hm) * 0) _
      rw [mul_zero]
      exact hzero (s * s')
    | finite s' m' e' hm' =>
      have hsigned : value F (.finite s m e hm) * value F (.finite s' m' e' hm')
          = signed (s * s') (m * 2 ^ e * (m' * 2 ^ e')) := by
        cases s <;> cases s'
        · exact neg_mul_neg _ _
        · exact neg_mul _ _
        · exact mul_neg _ _
        · rfl
      rw [hsigned]
      exact rounded_mul_of_le hm hm' (Fits.add_le_place hspec hm hm' hx hy)

/-- The quotient of two numbers is at least as large as their sizes say. -/
theorem log_sub_log_le {m m' : ℕ} (hm : 0 < m) (hm' : 0 < m') (e e' : ℤ) :
    (m.log2 : ℤ) + e - (m'.log2 + e') - 1 ≤ Int.log 2 ((m : ℚ) * 2 ^ e / (m' * 2 ^ e')) := by
  have hm'' : (0 : ℚ) < m' := by exact_mod_cast hm'
  have hpos : (0 : ℚ) < m' * 2 ^ e' := mul_pos hm'' (two_zpow_pos e')
  have hlow : (2 : ℚ) ^ ((m.log2 : ℤ) + e) ≤ m * 2 ^ e := by
    rw [← log_natCast_mul_zpow hm]
    exact le_of_log_le (mul_pos (by exact_mod_cast hm) (two_zpow_pos e))
  have hhigh : (m' : ℚ) * 2 ^ e' ≤ 2 ^ ((m'.log2 : ℤ) + e' + 1) := by
    refine (lt_of_log_lt _ ?_).le
    rw [log_natCast_mul_zpow hm']
    omega
  apply le_log_of_le
  rw [le_div_iff₀ hpos]
  calc (2 : ℚ) ^ ((m.log2 : ℤ) + e - (m'.log2 + e') - 1) * (m' * 2 ^ e')
      ≤ 2 ^ ((m.log2 : ℤ) + e - (m'.log2 + e') - 1) * 2 ^ ((m'.log2 : ℤ) + e' + 1) :=
        mul_le_mul_of_nonneg_left hhigh (two_zpow_pos _).le
    _ = 2 ^ ((m.log2 : ℤ) + e) := by
      rw [← zpow_add₀ two_ne_zero]
      congr 1
      ring
    _ ≤ m * 2 ^ e := hlow

/-- A quotient is the exact one, rounded. -/
theorem rounded_div (hx : Canonical F x) (hy : Canonical F y) (hzero : value F y ≠ 0) :
    Rounded F (value F x / value F y) (UnpackedFloat.div F x y) := by
  cases y with
  | infinity => exact absurd hy id
  | notANumber => exact absurd hy id
  | zero s' => exact absurd rfl hzero
  | finite s' m' e' hm' =>
    cases x with
    | infinity => exact absurd hx id
    | notANumber => exact absurd hx id
    | zero s =>
      show Rounded F (0 / value F (.finite s' m' e' hm')) _
      rw [zero_div]
      exact Canonical.rounded (f := .zero (s / s')) trivial
    | finite s m e hm =>
      have hm₁ : (0 : ℚ) < m := by exact_mod_cast hm
      have hm₂ : (0 : ℚ) < m' := by exact_mod_cast hm'
      have hquotient : (0 : ℚ) < m * 2 ^ e / (m' * 2 ^ e') :=
        div_pos (mul_pos hm₁ (two_zpow_pos e)) (mul_pos hm₂ (two_zpow_pos e'))
      have hsigned : value F (.finite s m e hm) / value F (.finite s' m' e' hm')
          = signed (s / s') (m * 2 ^ e / (m' * 2 ^ e')) := by
        cases s <;> cases s'
        · exact neg_div_neg_eq _ _
        · exact neg_div _ _
        · exact div_neg _
        · rfl
      rw [hsigned]
      simp only [UnpackedFloat.div, divCore]
      generalize hlow : min (e - e')
        (F.targetExponent (totalExponent m e - totalExponent m' e')) = low
      have hplace : low ≤ place F (m * 2 ^ e / (m' * 2 ^ e')) := by
        have hlog := log_sub_log_le hm hm' e e'
        unfold place Format.targetExponent totalExponent at *
        omega
      apply rounded_roundWithAccuracy (s / s') hquotient hplace
      obtain ⟨k, hk⟩ := Int.eq_ofNat_of_zero_le (show 0 ≤ e - e' - low by omega)
      have hdigits : (m : ℚ) * 2 ^ e / (m' * 2 ^ e') / 2 ^ low
          = ((m <<< (e - e' - low).toNat : ℕ) : ℚ) / m' := by
        have hpow : (2 : ℚ) ^ e = 2 ^ k * (2 ^ e' * 2 ^ low) := by
          rw [← zpow_natCast, ← zpow_add₀ two_ne_zero, ← zpow_add₀ two_ne_zero]
          congr 1
          omega
        rw [hk, Int.toNat_natCast, Nat.shiftLeft_eq, hpow]
        push_cast
        have h₁ := (two_zpow_pos e').ne'
        have h₂ := (two_zpow_pos low).ne'
        field_simp
      rw [hdigits]
      exact describes_accuracyOfFraction _ hm'

/-! ## What remains of a number -/

/-- The last place of a number, or the one below it. -/
def lowPlace (F : Format) (e : ℤ) : ℤ := max (e - 1) F.minExponent

/-- A number differs from all smaller ones by at least a unit in that place. -/
theorem Fits.le_sub {m : ℕ} {e : ℤ} {t : ℚ} (h : Fits F m e) (ht : Grid F t)
    (hlt : t < m * 2 ^ e) : (2 : ℚ) ^ lowPlace F e ≤ m * 2 ^ e - t := by
  obtain ⟨m', e', hdigits, hleast, rfl⟩ := ht
  have hle : lowPlace F e ≤ e := max_le (by omega) h.least
  by_cases he : lowPlace F e ≤ e'
  · -- Both are whole numbers of such units.
    obtain ⟨k, hk⟩ := exists_natCast_mul_zpow_div m hle
    obtain ⟨k', hk'⟩ := exists_natCast_mul_zpow_div m' he
    have hpos := two_zpow_pos (lowPlace F e)
    rw [div_eq_iff hpos.ne'] at hk hk'
    rw [hk, hk'] at hlt ⊢
    have hcount : (k' : ℚ) + 1 ≤ k := by
      exact_mod_cast lt_of_mul_lt_mul_right hlt hpos.le
    have hunits := mul_le_mul_of_nonneg_right hcount hpos.le
    linarith
  · -- The smaller one has not half the digits that the larger one has at least.
    have hlow : lowPlace F e = e - 1 := by
      unfold lowPlace at he ⊢
      omega
    have hbits := mantissaBits_eq (F := F)
    have hfull : (2 : ℚ) ^ F.mantissaBitsWithoutImplicit ≤ m := by
      exact_mod_cast h.full (by omega)
    have hlarge : (2 : ℚ) ^ ((F.mantissaBitsWithoutImplicit : ℤ) + e) ≤ m * 2 ^ e := by
      rw [zpow_add₀ two_ne_zero, zpow_natCast]
      exact mul_le_mul_of_nonneg_right hfull (two_zpow_pos e).le
    have hdigits' : (m' : ℚ) ≤ 2 ^ F.mantissaBits := by exact_mod_cast hdigits.le
    have hsmall : (m' : ℚ) * 2 ^ e' ≤ 2 ^ ((F.mantissaBitsWithoutImplicit : ℤ) + (e - 1)) := by
      calc (m' : ℚ) * 2 ^ e' ≤ 2 ^ F.mantissaBits * 2 ^ e' :=
            mul_le_mul_of_nonneg_right hdigits' (two_zpow_pos e').le
        _ = 2 ^ ((F.mantissaBits : ℤ) + e') := by rw [zpow_add₀ two_ne_zero, zpow_natCast]
        _ ≤ _ := zpow_le_zpow_right₀ (by norm_num) (by omega)
    have hhalves : (2 : ℚ) ^ ((F.mantissaBitsWithoutImplicit : ℤ) + e)
        = 2 ^ ((F.mantissaBitsWithoutImplicit : ℤ) + (e - 1)) * 2 := by
      rw [← zpow_add_one₀ two_ne_zero]
      congr 1
      ring
    have hunit : (2 : ℚ) ^ lowPlace F e
        ≤ 2 ^ ((F.mantissaBitsWithoutImplicit : ℤ) + (e - 1)) := by
      rw [hlow]
      exact zpow_le_zpow_right₀ (by norm_num) (by omega)
    linarith

/-- Powers of two are in the format, but for the end of its exponents. -/
theorem grid_zpow {e : ℤ} (he : F.minExponent ≤ e) : Grid F (2 ^ e) := by
  have hbits := mantissaBits_eq (F := F)
  exact ⟨1, e, Nat.one_lt_two_pow (by omega), he, by rw [Nat.cast_one, one_mul]⟩

theorem nearest_zpow {e : ℤ} (he : F.minExponent ≤ e) (hlimit : (2 : ℚ) ^ e ≤ limit F) :
    nearest F (2 ^ e) = 2 ^ e := by
  have habs : |(2 : ℚ) ^ e| = 2 ^ e := abs_of_pos (two_zpow_pos e)
  exact nearest_of_grid (by rw [habs]; exact grid_zpow he) (by rwa [habs])

/-- Numbers of a format are whole numbers of the least unit. -/
theorem Grid.exists_units {q : ℚ} (h : Grid F |q|) : ∃ k : ℤ, q = k * 2 ^ F.minExponent := by
  obtain ⟨m, e, -, he, hm⟩ := h
  obtain ⟨n, hn⟩ := exists_natCast_mul_zpow_div m he
  rw [← hm, div_eq_iff (two_zpow_pos _).ne'] at hn
  rcases abs_eq_abs.1 (hn.trans (abs_of_nonneg (natCast_mul_zpow_nonneg n _)).symm) with hq | hq
  · exact ⟨n, by rw [hq, Int.cast_natCast]⟩
  · exact ⟨-n, by rw [hq, Int.cast_neg, Int.cast_natCast, neg_mul]⟩

/-- The difference of two numbers of a format does not vanish when it is rounded. -/
theorem nearest_sub_pos {p q : ℚ} (hspec : F.minExponent ≤ 0) (hp : Grid F |p|) (hq : Grid F |q|)
    (h : p < q) : 0 < nearest F (q - p) := by
  obtain ⟨k, rfl⟩ := hp.exists_units
  obtain ⟨n, rfl⟩ := hq.exists_units
  have hpos := two_zpow_pos F.minExponent
  have hcount : (k : ℚ) + 1 ≤ n := by exact_mod_cast lt_of_mul_lt_mul_right h hpos.le
  have hunit : (2 : ℚ) ^ F.minExponent ≤ n * 2 ^ F.minExponent - k * 2 ^ F.minExponent := by
    have hunits := mul_le_mul_of_nonneg_right hcount hpos.le
    linarith
  have hlimit : (2 : ℚ) ^ F.minExponent ≤ limit F := by
    have hone : (1 : ℚ) ≤ limit F := one_le_pow₀ (by norm_num)
    exact (zpow_le_one_of_nonpos₀ (by norm_num) hspec).trans hone
  rw [← nearest_zpow (F := F) le_rfl hlimit] at hpos
  exact hpos.trans_le (nearest_mono hunit)

/-- **What remains of a number, as a part of it, is neither zero nor more than one**, though it is
rounded twice. -/
theorem nearest_remainder {m : ℕ} {e : ℤ} {t : ℚ} (h : Fits F m e)
    (he : e + F.mantissaBitsWithoutImplicit ≤ F.exponentBias)
    (hspec : F.minExponent ≤ -((F.mantissaBits : ℤ) + 1)) (ht : Grid F t) (hnonneg : 0 ≤ t)
    (hlt : t < m * 2 ^ e) :
    0 < nearest F (nearest F (m * 2 ^ e - t) / (m * 2 ^ e))
      ∧ nearest F (nearest F (m * 2 ^ e - t) / (m * 2 ^ e)) ≤ 1 := by
  have hlimit := h.lt_limit he
  have hgap := h.le_sub ht hlt
  have hdigits : (m : ℚ) < 2 ^ F.mantissaBits := by exact_mod_cast h.digits
  have hbound : (m : ℚ) * 2 ^ e ≤ 2 ^ ((F.mantissaBits : ℤ) + 1 + lowPlace F e) := by
    calc (m : ℚ) * 2 ^ e ≤ 2 ^ F.mantissaBits * 2 ^ e :=
          mul_le_mul_of_nonneg_right hdigits.le (two_zpow_pos e).le
      _ = 2 ^ ((F.mantissaBits : ℤ) + e) := by rw [zpow_add₀ two_ne_zero, zpow_natCast]
      _ ≤ _ := by
        unfold lowPlace
        exact zpow_le_zpow_right₀ (by norm_num) (by omega)
  have hself : nearest F (m * 2 ^ e) = m * 2 ^ e := by
    have habs := abs_of_nonneg (natCast_mul_zpow_nonneg m e)
    exact nearest_of_grid (by rw [habs]; exact h.grid) (by rw [habs]; exact hlimit.le)
  generalize (m : ℚ) * 2 ^ e = a at hlimit hgap hbound hself hlt
  have ha : 0 < a := lt_of_le_of_lt hnonneg hlt
  -- The difference is rounded to a number between the unit and the whole.
  have hunit : (2 : ℚ) ^ lowPlace F e ≤ nearest F (a - t) := by
    have hround := nearest_zpow (F := F) (e := lowPlace F e) (le_max_right _ _) (by linarith)
    rw [← hround]
    exact nearest_mono hgap
  have hwhole : nearest F (a - t) ≤ a := by
    have hmono := nearest_mono (F := F) (show a - t ≤ a by linarith)
    rwa [hself] at hmono
  -- So the quotient lies between a power of two and one.
  have hlow : (2 : ℚ) ^ (-((F.mantissaBits : ℤ) + 1)) ≤ nearest F (a - t) / a := by
    rw [le_div_iff₀ ha]
    calc (2 : ℚ) ^ (-((F.mantissaBits : ℤ) + 1)) * a
        ≤ 2 ^ (-((F.mantissaBits : ℤ) + 1)) * 2 ^ ((F.mantissaBits : ℤ) + 1 + lowPlace F e) :=
          mul_le_mul_of_nonneg_left hbound (two_zpow_pos _).le
      _ = 2 ^ lowPlace F e := by
        rw [← zpow_add₀ two_ne_zero]
        congr 1
        ring
      _ ≤ _ := hunit
  have hhigh : nearest F (a - t) / a ≤ 1 := (div_le_one ha).2 hwhole
  have hone : (1 : ℚ) ≤ limit F := one_le_pow₀ (by norm_num)
  have hpow : (2 : ℚ) ^ (-((F.mantissaBits : ℤ) + 1)) ≤ limit F := by
    have hle : (2 : ℚ) ^ (-((F.mantissaBits : ℤ) + 1)) ≤ 2 ^ (0 : ℤ) :=
      zpow_le_zpow_right₀ (by norm_num) (by omega)
    rw [zpow_zero] at hle
    exact hle.trans hone
  have hleast := nearest_mono (F := F) hlow
  rw [nearest_zpow hspec hpow] at hleast
  have hgreatest := nearest_mono (F := F) hhigh
  have hround := nearest_zpow (F := F) (e := 0) (by omega) (by rwa [zpow_zero])
  rw [zpow_zero] at hround
  rw [hround] at hgreatest
  exact ⟨lt_of_lt_of_le (two_zpow_pos _) hleast, hgreatest⟩

end BranchingDialogue.Rounding
