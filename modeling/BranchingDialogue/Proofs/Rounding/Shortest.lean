import BranchingDialogue.Proofs.Rounding.Interval

/-!
# Shortest decimals lie where they should

The shortest decimal of a float lies in the interval of the numbers that round to it
(`Digits.names_shortest`): the search finds a grid with a hit before it gives up. It starts with a
grid that is coarser than the float and goes on to grids ten times as fine, each in turn. The
interval is at least three quarters of a unit in the last place wide, so a grid finer than a quarter
of a unit has a hit in it, and twenty-four grids reach so far down for any double.
-/

namespace BranchingDialogue

open Rounding

/-- The number that digits with an exponent stand for. -/
def Digits.value (d : Digits) : ℚ := d.digits * 10 ^ d.exponent

namespace RoundingInterval

variable {r : RoundingInterval} {tie : TieRule} {g : ℤ} {d : ℕ}

/-! ## Grids -/

/-- The factor of quarter units, where they are compared with the steps of a grid. -/
def gridScale (r : RoundingInterval) (g : ℤ) : ℕ :=
  Nat.pow 2 (r.exponent - 2).toNat * Nat.pow 10 (-g).toNat

/-- The factor of the steps of the grid. -/
def gridUnit (r : RoundingInterval) (g : ℤ) : ℕ :=
  Nat.pow 10 g.toNat * Nat.pow 2 (-(r.exponent - 2)).toNat

/-- A number of steps of a grid leads into the interval. -/
def hits (r : RoundingInterval) (g : ℤ) (d : ℕ) : Bool :=
  if r.closed then
    r.quarters.1 * r.gridScale g ≤ d * r.gridUnit g
      && d * r.gridUnit g ≤ r.quarters.2.2 * r.gridScale g
  else
    r.quarters.1 * r.gridScale g < d * r.gridUnit g
      && d * r.gridUnit g < r.quarters.2.2 * r.gridScale g

/-- The last step of a grid that does not go beyond the float. -/
def stepsBelow (r : RoundingInterval) (g : ℤ) : ℕ :=
  r.quarters.2.1 * r.gridScale g / r.gridUnit g

/-- Of two hits the nearer one is taken, or one of them by a rule. -/
def nearer (r : RoundingInterval) (tie : TieRule) (g : ℤ) : ℕ :=
  if 2 * (r.quarters.2.1 * r.gridScale g % r.gridUnit g) < r.gridUnit g then r.stepsBelow g
  else if r.gridUnit g < 2 * (r.quarters.2.1 * r.gridScale g % r.gridUnit g) then
    r.stepsBelow g + 1
  else match tie with
    | .up => r.stepsBelow g + 1
    | .even => if r.stepsBelow g % 2 == 0 then r.stepsBelow g else r.stepsBelow g + 1

theorem nearer_eq (r : RoundingInterval) (tie : TieRule) (g : ℤ) :
    r.nearer tie g = r.stepsBelow g ∨ r.nearer tie g = r.stepsBelow g + 1 := by
  unfold nearer
  split
  · exact .inl rfl
  split
  · exact .inr rfl
  split
  · exact .inr rfl
  · split
    · exact .inl rfl
    · exact .inr rfl

theorem onGrid_eq (r : RoundingInterval) (tie : TieRule) (g : ℤ) :
    r.onGrid tie g = match r.hits g (r.stepsBelow g), r.hits g (r.stepsBelow g + 1) with
      | false, false => none
      | true, false => some (r.stepsBelow g)
      | false, true => some (r.stepsBelow g + 1)
      | true, true => some (r.nearer tie g) := by
  unfold nearer
  rw [apply_ite some, apply_ite some]
  cases tie <;> rfl

/-- What the search on a grid finds is next to the float and in the interval. -/
theorem hits_of_onGrid (h : r.onGrid tie g = some d) :
    (d = r.stepsBelow g ∨ d = r.stepsBelow g + 1) ∧ r.hits g d = true := by
  rw [onGrid_eq] at h
  split at h
  · cases h
  · next hbelow _ =>
    cases h
    exact ⟨.inl rfl, hbelow⟩
  · next _ habove =>
    cases h
    exact ⟨.inr rfl, habove⟩
  · next hbelow habove =>
    cases h
    rcases nearer_eq r tie g with heq | heq
    · rw [heq]
      exact ⟨.inl rfl, hbelow⟩
    · rw [heq]
      exact ⟨.inr rfl, habove⟩

/-- It finds something if the next step beyond the float is a hit. -/
theorem exists_onGrid (h : r.hits g (r.stepsBelow g + 1) = true) :
    ∃ d, r.onGrid tie g = some d := by
  rw [onGrid_eq, h]
  cases r.hits g (r.stepsBelow g) with
  | false => exact ⟨_, rfl⟩
  | true => exact ⟨_, rfl⟩

theorem toNat_zpow (a : ℚ) (ha : a ≠ 0) (n : ℤ) : a ^ n.toNat = a ^ n * a ^ (-n).toNat := by
  rw [← zpow_natCast, ← zpow_natCast, ← zpow_add₀ ha]
  congr 1
  omega

/-- Quarter units and steps of a grid are compared as numbers. -/
theorem exists_scale (r : RoundingInterval) (g : ℤ) : ∃ k : ℚ, 0 < k
    ∧ (∀ n : ℕ, ((n * r.gridScale g : ℕ) : ℚ) = r.ofQuarters n * k)
    ∧ ∀ n : ℕ, ((n * r.gridUnit g : ℕ) : ℚ) = n * 10 ^ g * k := by
  refine ⟨2 ^ (-(r.exponent - 2)).toNat * 10 ^ (-g).toNat, by positivity, fun n => ?_, fun n => ?_⟩
  · have hpow := toNat_zpow 2 two_ne_zero (r.exponent - 2)
    simp only [gridScale, Nat.pow_eq]
    push_cast
    rw [hpow, ofQuarters]
    ring
  · have hpow := toNat_zpow 10 (by norm_num) g
    simp only [gridUnit, Nat.pow_eq]
    push_cast
    rw [hpow]
    ring

theorem hits_iff : r.hits g d = true ↔ r.Contains (d * 10 ^ g) := by
  obtain ⟨k, hk, hscale, hunit⟩ := r.exists_scale g
  have hle : ∀ n : ℕ, n * r.gridScale g ≤ d * r.gridUnit g ↔ r.ofQuarters n ≤ d * 10 ^ g := by
    intro n
    rw [← Nat.cast_le (α := ℚ), hscale, hunit, mul_le_mul_iff_of_pos_right hk]
  have hge : ∀ n : ℕ, d * r.gridUnit g ≤ n * r.gridScale g ↔ d * 10 ^ g ≤ r.ofQuarters n := by
    intro n
    rw [← Nat.cast_le (α := ℚ), hscale, hunit, mul_le_mul_iff_of_pos_right hk]
  unfold hits Contains
  split
  · rw [Bool.and_eq_true, decide_eq_true_iff, decide_eq_true_iff, hle, hge]
  · rw [Bool.and_eq_true, decide_eq_true_iff, decide_eq_true_iff, ← not_le, ← not_le, hle, hge,
      not_le, not_le]

/-- The steps to the float do not go beyond it, and one step more does. -/
theorem stepsBelow_bounds (r : RoundingInterval) (g : ℤ) :
    (r.stepsBelow g : ℚ) * 10 ^ g ≤ r.value ∧ r.value < (r.stepsBelow g + 1) * 10 ^ g := by
  obtain ⟨k, hk, hscale, hunit⟩ := r.exists_scale g
  have hvalue : ((r.quarters.2.1 * r.gridScale g : ℕ) : ℚ) = r.value * k := by
    rw [hscale]
    exact congrArg (· * k) (ofQuarters_four r r.mantissa)
  have hpos : 0 < r.gridUnit g := Nat.mul_pos (Nat.pow_pos (by decide)) (Nat.pow_pos (by decide))
  have hlow := Nat.div_mul_le_self (r.quarters.2.1 * r.gridScale g) (r.gridUnit g)
  have hhigh := Nat.lt_mul_of_div_lt (Nat.lt_succ_self (r.stepsBelow g)) hpos
  rw [← Nat.cast_le (α := ℚ), hvalue] at hlow
  rw [← Nat.cast_lt (α := ℚ), hvalue] at hhigh
  have hsteps := hunit (r.stepsBelow g)
  have hnext := hunit (r.stepsBelow g + 1)
  push_cast at hnext
  constructor
  · refine le_of_mul_le_mul_right ?_ hk
    rw [← hsteps]
    exact hlow
  · refine lt_of_mul_lt_mul_right ?_ hk.le
    rw [← hnext]
    exact_mod_cast hhigh

/-! ## The search -/

/-- A grid that is finer than a quarter unit has a hit. -/
theorem exists_onGrid_of_fine (tie : TieRule) (hm : 0 < r.mantissa)
    (h : (10 : ℚ) ^ g ≤ 2 ^ (r.exponent - 2)) : ∃ d, r.onGrid tie g = some d := by
  obtain ⟨hbelow, habove⟩ := r.stepsBelow_bounds g
  have hunit := r.zpow_sub_two_pos
  refine exists_onGrid (hits_iff.2 (contains_of_lt ?_ ?_))
  · push_cast
    exact (low_lt_value hm).trans habove
  · rw [high_eq]
    push_cast
    linarith

/-- The search finds the first grid that has a hit. -/
theorem exists_search {i fuel : ℕ} (hi : i < fuel) (h : ∃ d, r.onGrid tie (g - i) = some d) :
    ∃ d g', r.search tie fuel g = ⟨d, g'⟩ ∧ r.onGrid tie g' = some d ∧ g - i ≤ g' ∧ g' ≤ g := by
  induction fuel generalizing g i with
  | zero => exact absurd hi (Nat.not_lt_zero i)
  | succ fuel ih =>
    rw [search]
    cases hfound : r.onGrid tie g with
    | some d => exact ⟨d, g, rfl, hfound, by omega, le_refl g⟩
    | none =>
      cases i with
      | zero =>
        obtain ⟨d, hd⟩ := h
        rw [Nat.cast_zero, sub_zero, hfound] at hd
        cases hd
      | succ i =>
        have hnext : g - (i + 1 : ℕ) = g - 1 - i := by push_cast; ring
        rw [hnext] at h
        obtain ⟨d, g', hsearch, hgrid, hlow, hhigh⟩ := ih (Nat.lt_of_succ_lt_succ hi) h
        exact ⟨d, g', hsearch, hgrid, by omega, by omega⟩

/-! ## Where the search starts -/

/-- Powers of two and of ten are compared by their exponents, given how two of them compare. -/
theorem zpow_le_zpow_of_le {a b : ℚ} (hb : 1 ≤ b) (ha : 0 < a) {u v : ℤ} {k l : ℕ} (hk : k ≠ 0)
    (h : a ^ ((k : ℤ) * u) ≤ b ^ ((l : ℤ) * u)) (huv : (l : ℤ) * u ≤ k * v) : a ^ u ≤ b ^ v := by
  have hpow : (a ^ u) ^ k ≤ (b ^ v) ^ k := by
    rw [← zpow_natCast, ← zpow_natCast, ← zpow_mul, ← zpow_mul, mul_comm u, mul_comm v]
    exact h.trans (zpow_le_zpow_right₀ hb huv)
  exact (pow_le_pow_iff_left₀ (zpow_pos ha u).le (zpow_pos (by linarith) v).le hk).1 hpow

theorem zpow_mul_le {a b : ℚ} (ha : 0 < a) {k l : ℕ} (h : a ^ k ≤ b ^ l) {u : ℤ} (hu : 0 ≤ u) :
    a ^ ((k : ℤ) * u) ≤ b ^ ((l : ℤ) * u) := by
  obtain ⟨n, rfl⟩ := Int.eq_ofNat_of_zero_le hu
  rw [zpow_mul, zpow_mul, zpow_natCast, zpow_natCast, zpow_natCast, zpow_natCast]
  exact pow_le_pow_left₀ (pow_pos ha k).le h n

theorem zpow_mul_le_of_nonpos {a b : ℚ} (ha : 0 < a) (hb : 0 < b) {k l : ℕ} (h : b ^ l ≤ a ^ k)
    {u : ℤ} (hu : u ≤ 0) : a ^ ((k : ℤ) * u) ≤ b ^ ((l : ℤ) * u) := by
  have hinv := zpow_mul_le hb h (u := -u) (by omega)
  rw [mul_neg, mul_neg, zpow_neg, zpow_neg] at hinv
  exact (inv_le_inv₀ (zpow_pos hb _) (zpow_pos ha _)).1 hinv

theorem log2_mantissa_le (hm : r.mantissa < 2 ^ 53) : r.mantissa.log2 ≤ 52 := by
  by_cases hzero : r.mantissa = 0
  · rw [hzero, Nat.log2_zero]
    omega
  · have hlog := (Nat.log2_lt hzero).2 hm
    omega

/-- The first grid is coarse enough, and the last one is fine enough. -/
theorem coarsest_bounds (hm : r.mantissa < 2 ^ 53) (hlow : -1074 ≤ r.exponent)
    (hhigh : r.exponent ≤ 971) :
    (10 : ℚ) ^ (r.coarsest - 23) ≤ 2 ^ (r.exponent - 2)
      ∧ (2 : ℚ) ^ (r.exponent - 2) ≤ 10 ^ r.coarsest := by
  have hlog := log2_mantissa_le hm
  -- The logarithm of two to the base ten lies between 59 / 196 and 28 / 93.
  have hten : (10 : ℚ) ^ 59 ≤ 2 ^ 196 := by norm_num
  have htwo : (2 : ℚ) ^ 93 ≤ 10 ^ 28 := by norm_num
  unfold coarsest
  generalize hg : ((r.mantissa.log2 : ℤ) + 1 + r.exponent) * 30103 / 100000 = a
  constructor
  · rcases le_total 0 (a + 2 - 23) with hu | hu
    · exact zpow_le_zpow_of_le one_le_two (by norm_num) (by decide)
        (zpow_mul_le (by norm_num) hten hu) (by push_cast; omega)
    · exact zpow_le_zpow_of_le one_le_two (by norm_num) (by decide)
        (zpow_mul_le_of_nonpos (by norm_num) two_pos htwo hu) (by push_cast; omega)
  · rcases le_total 0 (r.exponent - 2) with hv | hv
    · exact zpow_le_zpow_of_le (by norm_num) two_pos (by decide)
        (zpow_mul_le two_pos htwo hv) (by push_cast; omega)
    · exact zpow_le_zpow_of_le (by norm_num) two_pos (by decide)
        (zpow_mul_le_of_nonpos two_pos (by norm_num) hten hv) (by push_cast; omega)

theorem abs_coarsest_le (hm : r.mantissa < 2 ^ 53) (hlow : -1074 ≤ r.exponent)
    (hhigh : r.exponent ≤ 971) : -400 ≤ r.coarsest ∧ r.coarsest ≤ 400 := by
  have hlog := log2_mantissa_le hm
  unfold coarsest
  omega

/-- Among the grids that are searched is the coarsest one that is finer than a quarter unit. -/
theorem exists_fine_grid (hm : r.mantissa < 2 ^ 53) (hlow : -1074 ≤ r.exponent)
    (hhigh : r.exponent ≤ 971) : ∃ i : ℕ, i < 24
      ∧ (10 : ℚ) ^ (r.coarsest - i) ≤ 2 ^ (r.exponent - 2)
      ∧ (2 : ℚ) ^ (r.exponent - 2) < 10 ^ (r.coarsest - i + 1) := by
  have hunit := r.zpow_sub_two_pos
  obtain ⟨hfine, hcoarse⟩ := coarsest_bounds hm hlow hhigh
  generalize hg : Int.log 10 ((2 : ℚ) ^ (r.exponent - 2)) = g
  have hle : (10 : ℚ) ^ g ≤ 2 ^ (r.exponent - 2) := by
    have h := Int.zpow_log_le_self (b := 10) (by decide) hunit
    rw [hg] at h
    exact_mod_cast h
  have hlt : (2 : ℚ) ^ (r.exponent - 2) < 10 ^ (g + 1) := by
    have h := Int.lt_zpow_succ_log_self (b := 10) (by decide) ((2 : ℚ) ^ (r.exponent - 2))
    rw [hg] at h
    exact_mod_cast h
  have hfirst : r.coarsest - 23 ≤ g := by
    rw [← Int.lt_add_one_iff]
    exact (zpow_lt_zpow_iff_right₀ (by norm_num)).1 (hfine.trans_lt hlt)
  have hlast : g ≤ r.coarsest :=
    (zpow_le_zpow_iff_right₀ (by norm_num : (1 : ℚ) < 10)).1 (hle.trans hcoarse)
  obtain ⟨i, hi⟩ := Int.eq_ofNat_of_zero_le (sub_nonneg.2 hlast)
  have hgrid : r.coarsest - i = g := by omega
  exact ⟨i, by omega, hgrid ▸ hle, hgrid ▸ hlt⟩

/-- On a grid whose steps are longer than a tenth of a quarter unit there are not many of them below
the float. -/
theorem stepsBelow_lt (hm : 0 < r.mantissa)
    (h : (2 : ℚ) ^ (r.exponent - 2) < 10 ^ (g + 1)) : r.stepsBelow g < 40 * r.mantissa := by
  have hbelow := (r.stepsBelow_bounds g).1
  have hvalue : r.value = 4 * r.mantissa * 2 ^ (r.exponent - 2) := by
    have hfour := r.ofQuarters_four r.mantissa
    unfold ofQuarters at hfour
    push_cast at hfour
    exact hfour.symm
  have hpos : (0 : ℚ) < 10 ^ g := zpow_pos (by norm_num) g
  have hm' : (0 : ℚ) < r.mantissa := by exact_mod_cast hm
  have hless : (r.stepsBelow g : ℚ) < 40 * r.mantissa := by
    refine lt_of_mul_lt_mul_right ?_ hpos.le
    calc (r.stepsBelow g : ℚ) * 10 ^ g ≤ 4 * r.mantissa * 2 ^ (r.exponent - 2) := by
          rw [← hvalue]
          exact hbelow
      _ < 4 * r.mantissa * 10 ^ (g + 1) := mul_lt_mul_of_pos_left h (by positivity)
      _ = 40 * r.mantissa * 10 ^ g := by
        rw [zpow_add_one₀ (by norm_num)]
        ring
  exact_mod_cast hless

end RoundingInterval

/-! ## Shortest digits -/

namespace Digits

variable {r : RoundingInterval} {tie : TieRule}

theorem value_trimZeros (fuel : ℕ) (d : Digits) : (trimZeros fuel d).value = d.value := by
  induction fuel generalizing d with
  | zero => rfl
  | succ fuel ih =>
    rw [trimZeros]
    split
    · next hzero =>
      simp only [Bool.and_eq_true, bne_iff_ne, ne_eq, beq_iff_eq] at hzero
      have hdigits : (d.digits : ℚ) = (d.digits / 10 : ℕ) * 10 := by
        exact_mod_cast (Nat.div_mul_cancel (Nat.dvd_of_mod_eq_zero hzero.2)).symm
      rw [ih, value, value, hdigits, zpow_add_one₀ (by norm_num)]
      ring
    · rfl

/-- Trimming takes digits away and adds to the exponent. -/
theorem trimZeros_bounds (fuel : ℕ) (d : Digits) :
    (trimZeros fuel d).digits ≤ d.digits ∧ d.exponent ≤ (trimZeros fuel d).exponent
      ∧ (trimZeros fuel d).exponent ≤ d.exponent + fuel := by
  induction fuel generalizing d with
  | zero => exact ⟨le_refl _, le_refl _, by rw [Nat.cast_zero, add_zero]; exact le_refl _⟩
  | succ fuel ih =>
    rw [trimZeros]
    split
    · obtain ⟨hdigits, hlow, hhigh⟩ := ih ⟨d.digits / 10, d.exponent + 1⟩
      simp only at hdigits hlow hhigh
      exact ⟨hdigits.trans (Nat.div_le_self _ _), by omega, by push_cast; omega⟩
    · exact ⟨le_refl _, le_refl _, by push_cast; omega⟩

/-- What can be said of the digits that a double is written with. -/
structure Names (r : RoundingInterval) (d : Digits) : Prop where
  contains : r.Contains d.value
  digits_le : d.digits ≤ 40 * r.mantissa
  exponent_le : d.exponent.natAbs ≤ 1000

theorem Names.digits_ne_zero {d : Digits} (h : d.Names r) (hm : 0 < r.mantissa) :
    d.digits ≠ 0 := by
  intro hzero
  have hlow := (RoundingInterval.low_pos hm).trans_le h.contains.bounds.1
  rw [value, hzero, Nat.cast_zero, zero_mul] at hlow
  exact lt_irrefl _ hlow

/-- **The shortest digits of a double lie in its interval**, and there are not too many of them. -/
theorem names_shortest (hm : 0 < r.mantissa) (hdigits : r.mantissa < 2 ^ 53)
    (hlow : -1074 ≤ r.exponent) (hhigh : r.exponent ≤ 971) : (shortest r tie).Names r := by
  obtain ⟨hleast, hgreatest⟩ := RoundingInterval.abs_coarsest_le hdigits hlow hhigh
  obtain ⟨i, hi, hfine, hcoarse⟩ := RoundingInterval.exists_fine_grid hdigits hlow hhigh
  obtain ⟨d, g, hsearch, hfound, hfirst, hlast⟩ :=
    RoundingInterval.exists_search hi (RoundingInterval.exists_onGrid_of_fine tie hm hfine)
  obtain ⟨hsteps, hhit⟩ := RoundingInterval.hits_of_onGrid hfound
  obtain ⟨htrimmed, hexponentLow, hexponentHigh⟩ := trimZeros_bounds 400 ⟨d, g⟩
  simp only at htrimmed hexponentLow hexponentHigh
  have hcount : d ≤ 40 * r.mantissa := by
    have hstep : (10 : ℚ) ^ (r.coarsest - i + 1) ≤ 10 ^ (g + 1) :=
      zpow_le_zpow_right₀ (by norm_num) (by omega)
    have hless := RoundingInterval.stepsBelow_lt hm (hcoarse.trans_le hstep)
    omega
  have hvalue : (shortest r tie).value = d * 10 ^ g := by
    rw [shortest, value_trimZeros, hsearch]
    rfl
  refine ⟨?_, ?_, ?_⟩
  · rw [hvalue]
    exact RoundingInterval.hits_iff.1 hhit
  · rw [shortest, hsearch]
    exact htrimmed.trans hcount
  · rw [shortest, hsearch]
    omega

end Digits

end BranchingDialogue
