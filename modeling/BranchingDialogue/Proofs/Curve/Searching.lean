import BranchingDialogue.Proofs.Curve.Locating
import BranchingDialogue.Proofs.Extended
import Mathlib.Tactic.Linarith
import Mathlib.Tactic.Ring

/-!
# Looking a value up

A value is searched for twice: first among evenly spaced samples, for one at which the curve has
reached it, then on the way to that sample from the one before, which is halved again and again. What
the halving keeps is that the curve is below the value at the start of the way and not at its end
(`Crosses.halve`). Nothing is asked of the curve between, so the search may miss a time at which the
value is reached for a moment only; but it returns no time at which it is not.

Numbers are exact here, but slopes may be infinite: a curve that has steps is searched like any other.

Main result: `timeFor?_closest`.
-/

namespace BranchingDialogue.Curve

open Extended

variable {keys : List (Keyframe Extended)} {c : Curve Extended} {a b first last : Keyframe Extended}
  {value : Extended} {low high start stop : ℚ}

/-- How far behind the value a search may stop: what is left of the way between two samples when it has
been halved as often as it is. -/
def resolution {α : Type} [Scalar α] (first last : Keyframe α) : α :=
  (last.time - first.time) / Scalar.ofNat (searchSamples * 2 ^ halvings)

/-- Whether a curve falls nowhere between its first key and its last one. -/
def Climbs {α : Type} [Scalar α] (c : Curve α) (first last : Keyframe α) : Prop :=
  ∀ s t, first.time ≤ s → s ≤ t → t ≤ last.time → c.evaluate s ≤ c.evaluate t

/-! ## Accepted keys -/

/-- A curve whose keys have ordinary times, one after the other, and ordinary values. -/
structure Placed (c : Curve Extended) : Prop where
  time : ∀ k ∈ c.keys, ∃ t, k.time = ordinary t
  value : ∀ k ∈ c.keys, ∃ v, k.value = ordinary v
  ascending : c.keys.Pairwise fun a b => a.time < b.time

theorem placed_of_ofKeys (h : ofKeys keys = .ok c) : c.Placed := by
  obtain ⟨hflaw, hsorted, hsame⟩ := ofKeys_eq_ok_iff.1 h
  have hkeys (k : Keyframe Extended) (hk : k ∈ keys) := flaw?_eq_none_iff.1 (hflaw k hk)
  have hmem {k : Keyframe Extended} (hk : k ∈ c.keys) : k ∈ keys :=
    (List.mergeSort_perm keys _).mem_iff.1 (hsorted ▸ hk)
  have hle : c.keys.Pairwise fun a b => a.time ≤ b.time := by
    rw [hsorted]
    refine pairwise_mergeSort Keyframe.time keys fun k hk => ?_
    obtain ⟨t, ht⟩ := isFinite_iff.1 (hkeys k hk).1
    rw [ht]
    exact nofun
  have hchain : (c.keys.map Keyframe.time).IsChain (· < ·) :=
    (List.isChain_map _).2 ((isChain_of_sameTime? hsame hle).imp fun a b hab =>
      lt_of_le_of_equal hab.1 hab.2)
  exact ⟨fun k hk => isFinite_iff.1 (hkeys k (hmem hk)).1,
    fun k hk => isFinite_iff.1 (hkeys k (hmem hk)).2.1,
    List.pairwise_map.1 (List.isChain_iff_pairwise.1 hchain)⟩

/-! ## Values -/

theorem exists_between {s t v w : ℚ} (x : ℚ) (hs : a.time = ordinary s) (hv : a.value = ordinary v)
    (ht : b.time = ordinary t) (hw : b.value = ordinary w) :
    ∃ y, a.between b (ordinary x) = ordinary y := by
  unfold Keyframe.between
  rw [hs, hv, ht, hw]
  dsimp only
  split
  · exact ⟨w, rfl⟩
  · next hlength =>
    split
    · exact ⟨v, rfl⟩
    · next m₀ m₁ hrises =>
      -- Both rises are ordinary, so all that the cubic is made of is.
      have hne : t - s ≠ 0 := by
        rintro heq
        simp [heq] at hlength
      unfold Keyframe.rises? at hrises
      dsimp only at hrises
      split at hrises
      · cases hrises
      · next hfinite =>
        cases hrises
        simp only [Bool.or_eq_true, Bool.not_eq_true', not_or, Bool.not_eq_false,
          isFinite_iff] at hfinite
        obtain ⟨⟨m₀, hm₀⟩, m₁, hm₁⟩ := hfinite
        simp only [hm₀, hm₁, ordinary_sub, ordinary_div _ _ hne, ordinary_mul, ofNat_eq,
          neg_ordinary, ordinary_add]
        exact ⟨_, rfl⟩

/-- A slope that is infinite makes a step. -/
theorem rises?_of_infinite {negative : Bool} (h : a.outTangent = infinite negative) :
    a.rises? b = none := by
  unfold Keyframe.rises?
  rw [h]
  exact if_pos (by rw [isFinite_infinite_mul]; rfl)

namespace Placed

variable (hc : c.Placed)
include hc

/-- At an ordinary time the value is ordinary, whatever the slopes are. -/
theorem exists_evaluate (x : ℚ) : ∃ y, c.evaluate (ordinary x) = ordinary y := by
  refine evaluate_ind (P := fun v => ∃ y, v = ordinary y) ⟨0, rfl⟩ hc.value fun a ha b hb => ?_
  obtain ⟨s, hs⟩ := hc.time a ha
  obtain ⟨v, hv⟩ := hc.value a ha
  obtain ⟨t, ht⟩ := hc.time b hb
  obtain ⟨w, hw⟩ := hc.value b hb
  exact exists_between x hs hv ht hw

theorem evaluate_ne_undefined (x : ℚ) : c.evaluate (ordinary x) ≠ .undefined := by
  obtain ⟨y, hy⟩ := hc.exists_evaluate x
  rw [hy]
  exact nofun

theorem evaluate_first (hfirst : first ∈ c.keys.head?) : c.evaluate first.time = first.value := by
  obtain ⟨s, hs⟩ := hc.time first (List.mem_of_mem_head? hfirst)
  exact evaluate_of_le hfirst (by rw [hs, ordinary_le])

/-- The last key is not before the first one, and if it is not after it, there is no other. -/
theorem first_le_last (hfirst : first ∈ c.keys.head?) (hlast : last ∈ c.keys.getLast?) :
    first = last ∨ first.time < last.time := by
  obtain ⟨rest, hkeys⟩ := List.head?_eq_some_iff.1 hfirst
  have hasc := hc.ascending
  rw [hkeys] at hasc hlast
  cases rest with
  | nil =>
    cases hlast
    exact .inl rfl
  | cons k rest =>
    rw [List.getLast?_cons_cons] at hlast
    exact .inr ((List.pairwise_cons.1 hasc).1 last (List.mem_of_getLast? hlast))

theorem start_le_stop (hfirst : first ∈ c.keys.head?) (hlast : last ∈ c.keys.getLast?)
    (hs : first.time = ordinary start) (ht : last.time = ordinary stop) : start ≤ stop := by
  rcases hc.first_le_last hfirst hlast with rfl | hlt
  · exact (Extended.ordinary.inj (hs.symm.trans ht)).le
  · rw [hs, ht, ordinary_lt] at hlt
    exact hlt.le

theorem evaluate_last (hlast : last ∈ c.keys.getLast?) : c.evaluate last.time = last.value := by
  obtain ⟨t, ht⟩ := hc.time last (List.mem_of_getLast? hlast)
  have hne : c.keys ≠ [] := List.ne_nil_of_mem (List.mem_of_getLast? hlast)
  have hfirst := List.head?_eq_some_head hne
  rcases hc.first_le_last hfirst hlast with heq | hlt
  · rw [← heq]
    exact hc.evaluate_first hfirst
  · refine evaluate_of_not_le (fun k hk => ?_) hlast (by rw [ht, ordinary_le])
    cases hfirst ▸ hk
    exact not_le_of_lt hlt

end Placed

/-! ## Halving -/

/-- A way on which a curve comes to a value: it is below it at the start and not at the end. -/
structure Crosses (c : Curve Extended) (value : Extended) (low high : ℚ) : Prop where
  later : low < high
  below : c.evaluate (ordinary low) < value
  reached : value ≤ c.evaluate (ordinary high)

theorem half_mul_add (low high : ℚ) :
    Scalar.half * (ordinary low + ordinary high) = ordinary ((low + high) / 2) := by
  rw [half_eq, ordinary_add, ordinary_mul]
  congr 1
  ring

/-- A step of the halving goes on with one half of such a way, and that is such a way. -/
theorem Crosses.halve (hc : c.Placed) (n : Nat) (h : c.Crosses value low high) :
    ∃ low' high', c.narrow value (n + 1) (ordinary low) (ordinary high)
        = c.narrow value n (ordinary low') (ordinary high')
      ∧ c.Crosses value low' high' ∧ low ≤ low' ∧ high' ≤ high
      ∧ high' - low' = (high - low) / 2 := by
  have hlater := h.later
  simp only [Curve.narrow, half_mul_add]
  by_cases hreached : value ≤ c.evaluate (ordinary ((low + high) / 2))
  · refine ⟨low, (low + high) / 2, if_pos hreached, ⟨?_, h.below, hreached⟩, le_rfl, ?_, ?_⟩ <;>
      linarith
  · have hbelow : c.evaluate (ordinary ((low + high) / 2)) < value :=
      lt_of_not_le h.below.2.1 (hc.evaluate_ne_undefined _) hreached
    refine ⟨(low + high) / 2, high, if_neg hreached, ⟨?_, hbelow, h.reached⟩, ?_, le_rfl, ?_⟩ <;>
      linarith

/-- Halving keeps to such ways, and each is half as long as the one before. -/
theorem Crosses.narrow (hc : c.Placed) (n : Nat) (h : c.Crosses value low high) :
    ∃ low' high', c.narrow value n (ordinary low) (ordinary high) = ordinary high'
      ∧ c.Crosses value low' high' ∧ low ≤ low' ∧ high' ≤ high
      ∧ high' - low' = (high - low) / 2 ^ n := by
  induction n generalizing low high with
  | zero => exact ⟨low, high, rfl, h, le_rfl, le_rfl, by rw [pow_zero, div_one]⟩
  | succ n ih =>
    obtain ⟨low₁, high₁, hstep, hcrosses₁, hlow₁, hhigh₁, hwidth₁⟩ := h.halve hc n
    obtain ⟨low', high', hresult, hcrosses, hlow, hhigh, hwidth⟩ := ih hcrosses₁
    refine ⟨low', high', hstep.trans hresult, hcrosses, hlow₁.trans hlow, hhigh.trans hhigh₁, ?_⟩
    rw [hwidth, hwidth₁, div_div, pow_succ']

/-! ## Sampling -/

theorem sampleTime_ordinary (start stop : ℚ) (i : Nat) :
    sampleTime (ordinary start) (ordinary stop) i
      = ordinary (start + (stop - start) * i / searchSamples) := by
  cases i with
  | zero => simp [sampleTime]
  | succ i =>
    rw [sampleTime, ordinary_sub, ofNat_eq, ofNat_eq, ordinary_mul,
      ordinary_div _ _ (by norm_num [searchSamples]), ordinary_add]

/-- From one sample to the next it is the same way, and the last one is at the last key. -/
theorem sample_bounds (h : start < stop) {i : Nat} (hi : i < searchSamples) :
    start ≤ start + (stop - start) * i / searchSamples
      ∧ start + (stop - start) * i / searchSamples
        < start + (stop - start) * (i + 1 : Nat) / searchSamples
      ∧ start + (stop - start) * (i + 1 : Nat) / searchSamples ≤ stop := by
  have hspan : 0 < stop - start := sub_pos.2 h
  have hcount : (0 : ℚ) < searchSamples := by norm_num [searchSamples]
  refine ⟨?_, ?_, ?_⟩
  · exact le_add_of_nonneg_right (by positivity)
  · gcongr
    exact Nat.lt_succ_self i
  · have hi' : ((i + 1 : Nat) : ℚ) ≤ searchSamples := Nat.cast_le.2 hi
    have hpart : (stop - start) * (i + 1 : Nat) / searchSamples ≤ stop - start := by
      rw [div_le_iff₀ hcount]
      gcongr
    linarith

theorem timeFor?_of_le (hfirst : first ∈ c.keys.head?) (hlast : last ∈ c.keys.getLast?)
    (h : value ≤ first.value) : c.timeFor? value = some first.time := by
  simp only [timeFor?, Option.mem_def.1 hfirst, Option.mem_def.1 hlast, if_pos h]

/-- What comes of a search for a value above the first key's: either the curve crosses the value on a
way as short as the search gets, whose end is the result, or no sample reaches the value. -/
theorem timeFor?_of_lt (hc : c.Placed) (hfirst : first ∈ c.keys.head?)
    (hlast : last ∈ c.keys.getLast?) (hs : first.time = ordinary start)
    (ht : last.time = ordinary stop) (h : first.value < value) :
    (∃ low high, c.timeFor? value = some (ordinary high) ∧ c.Crosses value low high
        ∧ start ≤ low ∧ high ≤ stop ∧ high - low = (stop - start) / (searchSamples * 2 ^ halvings))
      ∨ c.timeFor? value = none
        ∧ ∀ i ≤ searchSamples, c.evaluate (sampleTime first.time last.time i) < value := by
  have hsample (i : Nat) : sampleTime first.time last.time i
      = ordinary (start + (stop - start) * i / searchSamples) := by
    rw [hs, ht, sampleTime_ordinary]
  have hstart : c.evaluate (sampleTime first.time last.time 0) < value := by
    rwa [sampleTime, hc.evaluate_first hfirst]
  have hbelow (i : Nat) (hi : ¬value ≤ c.evaluate (sampleTime first.time last.time i)) :
      c.evaluate (sampleTime first.time last.time i) < value :=
    lt_of_not_le h.2.1 (hsample i ▸ hc.evaluate_ne_undefined _) hi
  simp only [timeFor?, Option.mem_def.1 hfirst, Option.mem_def.1 hlast, if_neg (not_le_of_lt h)]
  cases hfind : (List.range searchSamples).find? fun i =>
      value ≤ c.evaluate (sampleTime first.time last.time (i + 1)) with
  | none =>
    refine .inr ⟨rfl, fun i hi => ?_⟩
    cases i with
    | zero => exact hstart
    | succ i =>
      have hnot := List.find?_eq_none.1 hfind i (List.mem_range.2 hi)
      exact hbelow (i + 1) fun hle => hnot (decide_eq_true hle)
  | some i =>
    -- The sample before is the first key, or one that was asked already. Either way it is below the
    -- value, so the curve crosses the value from there.
    obtain ⟨hreached, hi, hearlier⟩ := List.find?_range_eq_some.1 hfind
    rw [List.mem_range] at hi
    replace hreached := of_decide_eq_true hreached
    have hprevious : c.evaluate (sampleTime first.time last.time i) < value := by
      cases i with
      | zero => exact hstart
      | succ i =>
        have hnot := hearlier i (Nat.lt_succ_self i)
        exact hbelow (i + 1) fun hle => by simp [hle] at hnot
    rw [hsample] at hreached hprevious
    have hspan : start < stop := by
      rcases hc.first_le_last hfirst hlast with rfl | hlt
      · -- With a single key every sample is at that key.
        obtain rfl : start = stop := Extended.ordinary.inj (hs.symm.trans ht)
        simp only [sub_self, zero_mul, zero_div, add_zero] at hreached hprevious
        exact absurd hreached (not_le_of_lt hprevious)
      · rwa [hs, ht, ordinary_lt] at hlt
    obtain ⟨hlow, hlater, hhigh⟩ := sample_bounds hspan hi
    have hcrosses : c.Crosses value _ _ := ⟨hlater, hprevious, hreached⟩
    obtain ⟨low', high', hresult, hcrosses, hlow', hhigh', hwidth⟩ := hcrosses.narrow hc halvings
    refine .inl ⟨low', high', ?_, hcrosses, hlow.trans hlow', hhigh'.trans hhigh, ?_⟩
    · rw [Option.map_some, hsample, hsample, hresult]
    · rw [hwidth]
      push_cast
      ring

theorem resolution_ordinary (hs : first.time = ordinary start) (ht : last.time = ordinary stop) :
    resolution first last = ordinary ((stop - start) / (searchSamples * 2 ^ halvings)) := by
  rw [resolution, hs, ht, ordinary_sub, ofNat_eq,
    ordinary_div _ _ (by norm_num [searchSamples, halvings])]
  push_cast
  rfl

theorem sampleTime_last (hs : first.time = ordinary start) (ht : last.time = ordinary stop) :
    sampleTime first.time last.time searchSamples = last.time := by
  rw [hs, ht, sampleTime_ordinary, mul_div_assoc, div_self (by norm_num [searchSamples]), mul_one,
    add_sub_cancel]

section Result

variable (hc : c.Placed) (hfirst : first ∈ c.keys.head?) (hlast : last ∈ c.keys.getLast?)
  (hvalue : value ≠ .undefined)
include hc hfirst hlast hvalue

/-- Where no time is found no sample reaches the value. -/
theorem below_of_timeFor?_eq_none (h : c.timeFor? value = none) :
    ∀ i ≤ searchSamples, c.evaluate (sampleTime first.time last.time i) < value := by
  obtain ⟨start, hs⟩ := hc.time first (List.mem_of_mem_head? hfirst)
  obtain ⟨stop, ht⟩ := hc.time last (List.mem_of_getLast? hlast)
  obtain ⟨v, hv⟩ := hc.value first (List.mem_of_mem_head? hfirst)
  by_cases hle : value ≤ first.value
  · rw [timeFor?_of_le hfirst hlast hle] at h
    cases h
  · have hlt := lt_of_not_le hvalue (hv ▸ nofun) hle
    rcases timeFor?_of_lt hc hfirst hlast hs ht hlt with ⟨low, high, hsome, -⟩ | ⟨-, hbelow⟩
    · rw [hsome] at h
      cases h
    · exact hbelow

/-- A time that is found is the first key's, or it ends a way on which the curve crosses the value. -/
theorem timeFor?_cases (hs : first.time = ordinary start) (ht : last.time = ordinary stop)
    {t : Extended} (h : c.timeFor? value = some t) :
    value ≤ first.value ∧ t = first.time
      ∨ first.value < value ∧ ∃ low high, t = ordinary high ∧ c.Crosses value low high
        ∧ start ≤ low ∧ high ≤ stop ∧ t - resolution first last = ordinary low := by
  obtain ⟨v, hv⟩ := hc.value first (List.mem_of_mem_head? hfirst)
  by_cases hle : value ≤ first.value
  · rw [timeFor?_of_le hfirst hlast hle] at h
    cases h
    exact .inl ⟨hle, rfl⟩
  · have hlt := lt_of_not_le hvalue (hv ▸ nofun) hle
    rcases timeFor?_of_lt hc hfirst hlast hs ht hlt with
      ⟨low, high, hsome, hcrosses, hlow, hhigh, hwidth⟩ | ⟨hnone, -⟩
    · rw [hsome] at h
      cases h
      refine .inr ⟨hlt, low, high, rfl, hcrosses, hlow, hhigh, ?_⟩
      rw [resolution_ordinary hs ht, ← hwidth, ordinary_sub, sub_sub_cancel]
    · rw [hnone] at h
      cases h

/-- A time that is found is among the keys, and the value is reached there. -/
theorem reached_at_timeFor? {t : Extended} (h : c.timeFor? value = some t) :
    first.time ≤ t ∧ t ≤ last.time ∧ value ≤ c.evaluate t := by
  obtain ⟨start, hs⟩ := hc.time first (List.mem_of_mem_head? hfirst)
  obtain ⟨stop, ht⟩ := hc.time last (List.mem_of_getLast? hlast)
  rcases timeFor?_cases hc hfirst hlast hvalue hs ht h with
    ⟨hle, rfl⟩ | ⟨-, low, high, rfl, hcrosses, hlow, hhigh, -⟩
  · rw [hs, ht, ordinary_le, ordinary_le, ← hs, hc.evaluate_first hfirst]
    exact ⟨le_rfl, hc.start_le_stop hfirst hlast hs ht, hle⟩
  · rw [hs, ht, ordinary_le, ordinary_le]
    exact ⟨hlow.trans hcrosses.later.le, hhigh, hcrosses.reached⟩

/-- Shortly before a time that is found the curve is below the value, unless it starts there. -/
theorem below_shortly_before_timeFor? {t : Extended} (h : c.timeFor? value = some t) :
    t = first.time ∨ ∃ u, t - resolution first last ≤ u ∧ u < t ∧ c.evaluate u < value := by
  obtain ⟨start, hs⟩ := hc.time first (List.mem_of_mem_head? hfirst)
  obtain ⟨stop, ht⟩ := hc.time last (List.mem_of_getLast? hlast)
  rcases timeFor?_cases hc hfirst hlast hvalue hs ht h with
    ⟨-, rfl⟩ | ⟨-, low, high, rfl, hcrosses, -, -, hwidth⟩
  · exact .inl rfl
  · refine .inr ⟨ordinary low, ?_, ?_, hcrosses.below⟩
    · rw [hwidth, ordinary_le]
    · rw [ordinary_lt]
      exact hcrosses.later

/-- On a curve that falls nowhere a value is found exactly if the last key reaches it. -/
theorem exists_timeFor?_iff (hclimbs : c.Climbs first last) :
    (∃ t, c.timeFor? value = some t) ↔ value ≤ last.value := by
  obtain ⟨start, hs⟩ := hc.time first (List.mem_of_mem_head? hfirst)
  obtain ⟨stop, ht⟩ := hc.time last (List.mem_of_getLast? hlast)
  constructor
  · rintro ⟨t, hfound⟩
    obtain ⟨hafter, hbefore, hreached⟩ := reached_at_timeFor? hc hfirst hlast hvalue hfound
    rw [← hc.evaluate_last hlast]
    exact le_trans hreached (hclimbs t last.time hafter hbefore (by rw [ht, ordinary_le]))
  · intro hle
    cases hfound : c.timeFor? value with
    | some t => exact ⟨t, rfl⟩
    | none =>
      have hbelow := below_of_timeFor?_eq_none hc hfirst hlast hvalue hfound searchSamples le_rfl
      rw [sampleTime_last hs ht, hc.evaluate_last hlast] at hbelow
      exact absurd hle (not_le_of_lt hbelow)

/-- On a curve that falls nowhere the value is not reached earlier, as far as the search can tell. -/
theorem below_before_timeFor? (hclimbs : c.Climbs first last) {t u : Extended}
    (h : c.timeFor? value = some t) (hu : u < t - resolution first last)
    (hside : first.time ≤ u ∨ first.value < value) : c.evaluate u < value := by
  obtain ⟨start, hs⟩ := hc.time first (List.mem_of_mem_head? hfirst)
  obtain ⟨stop, ht⟩ := hc.time last (List.mem_of_getLast? hlast)
  rcases timeFor?_cases hc hfirst hlast hvalue hs ht h with
    ⟨hle, rfl⟩ | ⟨hlt, low, high, rfl, hcrosses, -, hhigh, hwidth⟩
  · rcases hside with hafter | hlt
    · -- There is no time between the first key and a time before it.
      have hwidth : 0 ≤ (stop - start) / (searchSamples * 2 ^ halvings) :=
        div_nonneg (sub_nonneg.2 (hc.start_le_stop hfirst hlast hs ht)) (by positivity)
      have hearlier := lt_of_le_of_lt hafter hu
      rw [resolution_ordinary hs ht, hs, ordinary_sub, ordinary_lt] at hearlier
      linarith
    · exact absurd hle (not_le_of_lt hlt)
  · -- The curve is below the value at the start of the last way, and not higher before.
    rw [hwidth] at hu
    by_cases hafter : first.time ≤ u
    · have hlast : ordinary low ≤ last.time := by
        rw [ht, ordinary_le]
        exact hcrosses.later.le.trans hhigh
      exact lt_of_le_of_lt (hclimbs u (ordinary low) hafter (le_of_lt hu) hlast) hcrosses.below
    · have hbefore : u < first.time := lt_of_not_le (hs ▸ nofun) hu.1 hafter
      rw [evaluate_of_le hfirst (le_of_lt hbefore)]
      exact hlt

end Result

/-- The curve that keeps one value up to a time and has another one from then on. -/
def leap (s v t w : ℚ) : Curve Extended :=
  ⟨[⟨ordinary s, ordinary v, ordinary 0, infinite false⟩, .flat (ordinary t) (ordinary w)]⟩

section Leap

variable {s v t w : ℚ} {x : Extended} (h : s < t)
include h

theorem ofKeys_leap : ofKeys (leap s v t w).keys = .ok (leap s v t w) := by
  refine ofKeys_of_ordered (fun k hk => ?_) ?_ ?_
  · rcases List.mem_pair.1 hk with rfl | rfl <;> rfl
  · simp [leap, Keyframe.flat, Scalar.ordered, place, Prod.Lex.toLex_le_toLex, h.le]
  · simp [leap, Keyframe.flat, sameTime?, Scalar.equal, h.ne]

theorem evaluate_leap_before (hx : x < ordinary t) : (leap s v t w).evaluate x = ordinary v := by
  by_cases hfirst : x ≤ ordinary s
  · exact evaluate_of_le (c := leap s v t w) rfl hfirst
  · have hupto : ordinary s ≤ x := le_of_lt (lt_of_not_le hx.1 nofun hfirst)
    have hlength : ¬ordinary t - ordinary s ≤ Scalar.zero := by
      rw [ordinary_sub]
      exact fun hle => not_lt.2 (sub_nonpos.1 ((ordinary_le _ _).1 hle)) h
    refine (@evaluate_of_neighbours _ _ [] [] _ _ _ (List.forall_mem_singleton.2 hupto)
      (List.forall_mem_singleton.2 (not_le_of_lt hx)) (by rintro k ⟨⟩; exact hfirst)).trans ?_
    rw [Keyframe.between, rises?_of_infinite rfl]
    exact if_neg hlength

theorem evaluate_leap_after (hx : ordinary t ≤ x) : (leap s v t w).evaluate x = ordinary w := by
  refine evaluate_of_not_le (c := leap s v t w) (fun k hk hle => ?_) rfl hx
  cases hk
  exact not_lt.2 ((ordinary_le t s).1 (le_trans hx hle)) h

theorem climbs_leap (hvw : v ≤ w) {first last : Keyframe Extended} :
    (leap s v t w).Climbs first last := by
  intro x y hx hxy _
  by_cases hafter : ordinary t ≤ x
  · rw [evaluate_leap_after h hafter, evaluate_leap_after h (le_trans hafter hxy), ordinary_le]
  · rw [evaluate_leap_before h (lt_of_not_le nofun hx.2.1 hafter)]
    by_cases hy : ordinary t ≤ y
    · rwa [evaluate_leap_after h hy, ordinary_le]
    · rw [evaluate_leap_before h (lt_of_not_le nofun hxy.2.1 hy), ordinary_le]

end Leap

end BranchingDialogue.Curve
