import BranchingDialogue.Decimal.Shortest
import BranchingDialogue.Proofs.Rounding.Packed

/-!
# The numbers that round to a float

An interval reaches half a unit in the last place to either side of a float, or only a quarter below
where the floats below lie twice as dense; it has its ends if they are ties that go to the float. All
numbers in it are rounded to the float: `RoundingInterval.roundAbs_of_contains`.
-/

namespace BranchingDialogue

open Float.Model Rounding

namespace RoundingInterval

variable {r : RoundingInterval}

/-- A number of quarter units. -/
def ofQuarters (r : RoundingInterval) (n : ℕ) : ℚ := n * 2 ^ (r.exponent - 2)

/-- The float itself. -/
def value (r : RoundingInterval) : ℚ := r.mantissa * 2 ^ r.exponent

/-- A number lies in the interval, of which both ends are part or none. -/
def Contains (r : RoundingInterval) (q : ℚ) : Prop :=
  if r.closed then r.ofQuarters r.quarters.1 ≤ q ∧ q ≤ r.ofQuarters r.quarters.2.2
  else r.ofQuarters r.quarters.1 < q ∧ q < r.ofQuarters r.quarters.2.2

theorem contains_of_lt {q : ℚ} (hlow : r.ofQuarters r.quarters.1 < q)
    (hhigh : q < r.ofQuarters r.quarters.2.2) : r.Contains q := by
  unfold Contains
  split
  · exact ⟨hlow.le, hhigh.le⟩
  · exact ⟨hlow, hhigh⟩

theorem Contains.bounds {q : ℚ} (h : r.Contains q) :
    r.ofQuarters r.quarters.1 ≤ q ∧ q ≤ r.ofQuarters r.quarters.2.2 := by
  unfold Contains at h
  split at h
  · exact h
  · exact ⟨h.1.le, h.2.le⟩

theorem ofQuarters_four (r : RoundingInterval) (n : ℕ) :
    r.ofQuarters (4 * n) = n * 2 ^ r.exponent := by
  have hunit : (2 : ℚ) ^ r.exponent = 2 ^ (r.exponent - 2) * 4 := by
    rw [show (4 : ℚ) = 2 ^ (2 : ℤ) by norm_num, ← zpow_add₀ two_ne_zero, sub_add_cancel]
  rw [ofQuarters, hunit]
  push_cast
  ring

theorem zpow_sub_two_pos (r : RoundingInterval) : (0 : ℚ) < 2 ^ (r.exponent - 2) :=
  two_zpow_pos _

theorem low_lt_value (hm : 0 < r.mantissa) : r.ofQuarters r.quarters.1 < r.value := by
  have hlt : r.quarters.1 < 4 * r.mantissa := by
    unfold quarters
    simp only
    split <;> omega
  rw [value, ← ofQuarters_four]
  exact mul_lt_mul_of_pos_right (by exact_mod_cast hlt) r.zpow_sub_two_pos

theorem low_pos (hm : 0 < r.mantissa) : 0 < r.ofQuarters r.quarters.1 := by
  have hlt : 0 < r.quarters.1 := by
    unfold quarters
    simp only
    split <;> omega
  exact mul_pos (by exact_mod_cast hlt) r.zpow_sub_two_pos

theorem high_eq (r : RoundingInterval) :
    r.ofQuarters r.quarters.2.2 = r.value + 2 * 2 ^ (r.exponent - 2) := by
  rw [value, ← ofQuarters_four]
  simp only [ofQuarters, quarters]
  push_cast
  ring

/-! ## Rounding -/

/-- A quarter unit is a quarter of a unit in the last place. -/
theorem ofQuarters_eq (r : RoundingInterval) (n : ℕ) :
    r.ofQuarters n = n / 4 * 2 ^ r.exponent := by
  have h := r.ofQuarters_four n
  have hfour : r.ofQuarters (4 * n) = 4 * r.ofQuarters n := by
    simp only [ofQuarters]
    push_cast
    ring
  rw [hfour] at h
  linarith

theorem ofQuarters_le_iff {q : ℚ} {n : ℕ} :
    r.ofQuarters n ≤ q ↔ (n : ℚ) / 4 ≤ q / 2 ^ r.exponent := by
  rw [ofQuarters_eq, le_div_iff₀ (two_zpow_pos _)]

theorem le_ofQuarters_iff {q : ℚ} {n : ℕ} :
    q ≤ r.ofQuarters n ↔ q / 2 ^ r.exponent ≤ (n : ℚ) / 4 := by
  rw [ofQuarters_eq, div_le_iff₀ (two_zpow_pos _)]

theorem low_cast (hm : 0 < r.mantissa) :
    (r.quarters.1 : ℚ) / 4 = r.mantissa - if r.narrowBelow then 1 / 4 else 1 / 2 := by
  unfold quarters
  simp only
  split
  · rw [Nat.cast_sub (by omega)]
    push_cast
    ring
  · rw [Nat.cast_sub (by omega)]
    push_cast
    ring

theorem high_cast (r : RoundingInterval) : (r.quarters.2.2 : ℚ) / 4 = r.mantissa + 1 / 2 := by
  unfold quarters
  push_cast
  ring

/-- Where the floats below are twice as dense, the interval reaches only one quarter of a unit in the
last place to that side. -/
theorem Contains.units_narrow {q : ℚ} (h : r.Contains q) (hnarrow : r.narrowBelow = true)
    (hm : 0 < r.mantissa) : (r.mantissa : ℚ) - 1 / 4 ≤ q / 2 ^ r.exponent := by
  have hlow := ofQuarters_le_iff.1 h.bounds.1
  rwa [low_cast hm, hnarrow, if_pos rfl] at hlow

/-- In units in the last place, the interval reaches at most one half to either side, and this far only
for even digits. -/
theorem Contains.units {q : ℚ} (h : r.Contains q) (hm : 0 < r.mantissa) :
    (r.mantissa : ℚ) - 1 / 2 ≤ q / 2 ^ r.exponent ∧ q / 2 ^ r.exponent ≤ r.mantissa + 1 / 2
      ∧ (r.mantissa % 2 = 0
        ∨ r.mantissa - 1 / 2 < q / 2 ^ r.exponent ∧ q / 2 ^ r.exponent < r.mantissa + 1 / 2) := by
  have hhalf : (r.mantissa : ℚ) - 1 / 2 ≤ r.quarters.1 / 4 := by
    rw [low_cast hm]
    split <;> linarith
  have hlow := ofQuarters_le_iff.1 h.bounds.1
  have hhigh := le_ofQuarters_iff.1 h.bounds.2
  rw [high_cast] at hhigh
  refine ⟨hhalf.trans hlow, hhigh, ?_⟩
  by_cases heven : r.mantissa % 2 = 0
  · exact .inl heven
  · have hopen : r.closed = false := beq_eq_false_iff_ne.2 heven
    rw [Contains, hopen, if_neg Bool.false_ne_true] at h
    have hlow' := lt_of_not_ge fun hle => not_lt.2 (le_ofQuarters_iff.2 hle) h.1
    have hhigh' := lt_of_not_ge fun hle => not_lt.2 (ofQuarters_le_iff.2 hle) h.2
    rw [high_cast] at hhigh'
    exact .inr ⟨hhalf.trans_lt hlow', hhigh'⟩

variable {F : Format} {m : ℕ} {e : ℤ} {q : ℚ}

/-- The interval of a number of a format. -/
def ofFits (F : Format) (m : ℕ) (e : ℤ) : RoundingInterval :=
  ⟨m, e, m == 2 ^ F.mantissaBitsWithoutImplicit && decide (F.minExponent < e)⟩

/-- A number a little below a power of two is rounded to it, at the place of the floats there, which
are twice as dense. -/
theorem roundAbs_below_power (he : F.minExponent < e)
    (hsmall : q < 2 ^ ((F.mantissaBitsWithoutImplicit : ℤ) + e))
    (hnarrow : 2 ^ F.mantissaBitsWithoutImplicit - 1 / 4 ≤ q / 2 ^ e) :
    roundAbs F q = 2 ^ F.mantissaBitsWithoutImplicit * 2 ^ e := by
  have hbits := mantissaBits_eq (F := F)
  have hpos := two_zpow_pos e
  have hone : (1 : ℚ) ≤ 2 ^ F.mantissaBitsWithoutImplicit := one_le_pow₀ one_le_two
  have hqpos : 0 < q := (div_pos_iff_of_pos_right hpos).1 (by linarith)
  have hunit : (2 : ℚ) ^ e = 2 * 2 ^ (e - 1) := by
    rw [mul_comm, ← zpow_add_one₀ two_ne_zero, sub_add_cancel]
  have hdouble : q / 2 ^ (e - 1) = 2 * (q / 2 ^ e) := by
    rw [hunit]
    field_simp
  have hplace : place F q = e - 1 := by
    have hlarge : (2 : ℚ) ^ ((F.mantissaBitsWithoutImplicit : ℤ) + (e - 1)) ≤ q := by
      rw [zpow_add₀ two_ne_zero, zpow_natCast, ← le_div_iff₀ (two_zpow_pos _), hdouble]
      linarith
    have hlow := le_log_of_le hlarge
    have hhigh := log_lt_of_lt hqpos hsmall
    unfold place Format.targetExponent
    omega
  have hround : nearestEven (q / 2 ^ (e - 1)) = 2 * 2 ^ F.mantissaBitsWithoutImplicit := by
    rw [hdouble]
    have hless : q / 2 ^ e < 2 ^ F.mantissaBitsWithoutImplicit := by
      rwa [div_lt_iff₀ hpos, ← zpow_natCast, ← zpow_add₀ two_ne_zero]
    refine nearestEven_eq (by positivity) ?_ ?_ (.inl (Nat.mul_mod_right 2 _))
    · push_cast
      linarith
    · push_cast
      linarith
  rw [roundAbs, hplace, hround, hunit]
  push_cast
  ring

/-- **All numbers in the interval of a float are rounded to it.** -/
theorem roundAbs_of_contains (hm : 0 < m) (h : Fits F m e) (hq : (ofFits F m e).Contains q) :
    roundAbs F q = m * 2 ^ e := by
  have hbits := mantissaBits_eq (F := F)
  have hpos := two_zpow_pos e
  have hqpos : 0 < q := (low_pos hm).trans_le hq.bounds.1
  obtain ⟨hlow, hhigh, htie⟩ := hq.units hm
  simp only [ofFits] at hlow hhigh htie
  have hbound : q < 2 ^ ((F.mantissaBits : ℤ) + e) := by
    have hdigits : (m : ℚ) + 1 ≤ 2 ^ F.mantissaBits := by exact_mod_cast h.digits
    rw [zpow_add₀ two_ne_zero, zpow_natCast, ← div_lt_iff₀ hpos]
    linarith
  have hlog := log_lt_of_lt hqpos hbound
  by_cases hat : place F q = e
  · -- The number is rounded at the place of the float.
    rw [roundAbs, hat, nearestEven_eq (div_pos hqpos hpos).le hlow hhigh htie]
  · -- The number lies below a power of two, and is rounded at a lower place.
    have hleast := h.least
    have hmore : F.minExponent < e := by
      unfold place Format.targetExponent at hat
      omega
    have hsmall : q < 2 ^ ((F.mantissaBitsWithoutImplicit : ℤ) + e) := by
      refine lt_of_log_lt _ ?_
      unfold place Format.targetExponent at hat
      omega
    have hpower : m = 2 ^ F.mantissaBitsWithoutImplicit := by
      refine le_antisymm ?_ (h.full hmore)
      rw [zpow_add₀ two_ne_zero, zpow_natCast, ← div_lt_iff₀ hpos] at hsmall
      have hless : (m : ℚ) < 2 ^ F.mantissaBitsWithoutImplicit + 1 := by linarith
      exact_mod_cast Nat.lt_succ_iff.1 (by exact_mod_cast hless)
    have hnarrow := hq.units_narrow (by simp [ofFits, hpower, hmore]) hm
    simp only [ofFits] at hnarrow
    have hcast : (m : ℚ) = 2 ^ F.mantissaBitsWithoutImplicit := by exact_mod_cast hpower
    rw [hcast] at hnarrow ⊢
    exact roundAbs_below_power hmore hsmall hnarrow

end RoundingInterval

end BranchingDialogue
