import BranchingDialogue.Proofs.Curve.Segments
import BranchingDialogue.Proofs.Reveal.Refusing

/-!
# Pauses reshape the authored curve

The curve that pauses are put into is a reshaped one: it is scaled once and held for each pause, at times
that are never undefined and for ordinary lengths. So the times of its keys are in order, and its keys
are sound if every one of these changes keeps them so, which very short pauses do not: a pause that is
too short for the times around it leaves two keys at the same time.

What keeps undefined times out is that a curve has its first value there. A time that is looked up is
one at which a value is reached that the curve does not start with.
-/

namespace BranchingDialogue

open Binary32

namespace Curve

section Reaching

variable {α : Type} [Scalar α] {c : Curve α} {value : α}

/-- Halving ends at a time at which the value is reached. -/
theorem narrow_reaches (n : Nat) (low : α) {high : α} (h : value ≤ c.evaluate high) :
    value ≤ c.evaluate (c.narrow value n low high) := by
  induction n generalizing low high with
  | zero => exact h
  | succ n ih =>
    rw [narrow]
    split
    · next hmiddle => exact ih low hmiddle
    · exact ih _ h

/-- What is found is the time of the first key, or a time at which the curve reaches a value that it
does not start with. -/
theorem reaches_of_timeFor? {t : α} (h : c.timeFor? value = some t) :
    ∃ first ∈ c.keys.head?, t = first.time ∨ ¬value ≤ first.value ∧ value ≤ c.evaluate t := by
  unfold timeFor? at h
  split at h
  · next first last hfirst hlast =>
    refine ⟨first, hfirst, ?_⟩
    split at h
    · cases h
      exact .inl rfl
    · next hvalue =>
      obtain ⟨i, hi, rfl⟩ := Option.map_eq_some_iff.1 h
      have hreached := List.find?_some hi
      exact .inr ⟨hvalue, narrow_reaches halvings _ (of_decide_eq_true hreached)⟩
  · cases h

end Reaching

variable {c : Curve Float32} {value t : Float32}

/-- No undefined time is found. -/
theorem isNaN_of_timeFor? (hc : ∀ s ∈ c.times, s.isNaN = false) (h : c.timeFor? value = some t) :
    t.isNaN = false := by
  obtain ⟨first, hfirst, rfl | ⟨hvalue, hreached⟩⟩ := reaches_of_timeFor? h
  · exact hc _ (List.mem_map_of_mem (List.mem_of_mem_head? hfirst))
  · refine Bool.eq_false_iff.2 fun ht => hvalue ?_
    rwa [evaluate_undefined ht hfirst] at hreached

end Curve

/-! ## Parts of a sum -/

namespace Binary32

variable {xs : List Float32} {x y : Float32}

theorem IsTotal.le_add (hx : IsTotal x) (hy : y.isFinite = true) : exact y ≤ exact (x + y) := by
  have hzero : exact (Scalar.zero + y) = exact y := by
    rw [(nearest_add isFinite_zero hy).exact_eq, exact_zero, zero_add, nearest_exact]
  rw [← hzero]
  exact add_mono isNaN_zero hx.isNaN hy (exact_zero.trans_le hx.nonneg)

theorem IsTotal.le_foldl (hx : IsTotal x) (h : ∀ y ∈ xs, IsLength y) :
    exact x ≤ exact (xs.foldl (· + ·) x) := by
  induction xs generalizing x with
  | nil => exact le_rfl
  | cons y ys ih =>
    obtain ⟨hy, hys⟩ := List.forall_mem_cons.1 h
    exact (Binary32.le_add hx.isNaN hy.isFinite hy.exact_nonneg).trans (ih (hx.add hy) hys)

theorem IsTotal.le_foldl_of_mem (hx : IsTotal x) (h : ∀ y ∈ xs, IsLength y) (hy : y ∈ xs) :
    exact y ≤ exact (xs.foldl (· + ·) x) := by
  induction xs generalizing x with
  | nil => cases hy
  | cons z zs ih =>
    obtain ⟨hz, hzs⟩ := List.forall_mem_cons.1 h
    rcases List.mem_cons.1 hy with rfl | hy
    · exact (hx.le_add hz.isFinite).trans ((hx.add hz).le_foldl hzs)
    · exact ih (hx.add hz) hzs hy

/-- Lengths are not longer than what they add up to, rounded as it is. -/
theorem le_sum_of_mem (h : ∀ y ∈ xs, IsLength y) (hy : y ∈ xs) :
    exact y ≤ exact (Scalar.sum xs) :=
  IsTotal.le_foldl_of_mem (x := Scalar.zero) ⟨isNaN_zero, exact_zero.ge⟩ h hy

end Binary32

/-! ## Pauses as changes of the authored curve -/

namespace Reveal

/-- The changes of the authored curve that pauses make: it is scaled, and held for each pause where it
begins on the scaled curve. -/
def reshapings {α : Type} [Scalar α] (r : Reveal α) (pauses : List (Pause α)) (length : Nat) :
    List (Reshaping α) :=
  let effective := r.effectiveDuration
  let scaling : Reshaping α :=
    .scale ((effective - Scalar.sum (pauses.map (·.seconds))) / effective) Scalar.one
  scaling :: (holds (scaling.apply r.authored) effective length pauses).map fun hold =>
    .hold hold.1 hold.2

/-- **The curve with pauses is the authored one, reshaped.** Where pauses are put in there is a scaling,
and it is not refused. -/
theorem inUse_applyPauses {α : Type} [Scalar α] {r : Reveal α} {pauses : List (Pause α)}
    {length : Nat} (hne : pauses ≠ []) (hok : (r.applyPauses pauses length).2 = none) :
    ¬r.effectiveDuration ≤ Scalar.zero
      ∧ ¬r.effectiveDuration ≤ Scalar.sum (pauses.map (·.seconds))
      ∧ (r.applyPauses pauses length).1.inUse
        = (r.reshapings pauses length).foldl Reshaping.apply r.authored := by
  rw [applyPauses] at hok ⊢
  cases hpaused : r.pausedCurve pauses length with
  | error e =>
    rw [hpaused] at hok
    cases hok
  | ok c =>
    unfold pausedCurve at hpaused
    simp only [List.isEmpty_iff, if_neg hne] at hpaused
    split at hpaused
    · cases hpaused
    · next hzero =>
      split at hpaused
      · cases hpaused
      · next hexceed =>
        refine ⟨hzero, hexceed, ?_⟩
        cases hscaled : r.authored.scaled
            ((r.effectiveDuration - Scalar.sum (pauses.map (·.seconds))) / r.effectiveDuration)
            Scalar.one with
        | error e =>
          rw [hscaled] at hpaused
          cases hpaused
        | ok c' =>
          rw [hscaled] at hpaused
          cases hpaused
          have hfirst : Reshaping.apply r.authored (.scale ((r.effectiveDuration
              - Scalar.sum (pauses.map (·.seconds))) / r.effectiveDuration) Scalar.one) = c' := by
            rw [Reshaping.apply, hscaled]
          simp only [reshapings, List.foldl_cons, hfirst, List.foldl_map]
          rfl

variable {r : Reveal Float32} {pauses : List (Pause Float32)} {length : Nat}

/-- A hold for a pause begins at a time that is not undefined. -/
theorem isNaN_of_holdFor? {c : Curve Float32} {effective : Float32} {p : Pause Float32}
    {hold : Float32 × Float32} (hc : InTurn c.times)
    (h : holdFor? c effective length p = some hold) :
    hold.1.isNaN = false ∧ hold.2 = p.seconds / effective := by
  obtain ⟨time, htime, rfl⟩ := Option.map_eq_some_iff.1 h
  refine ⟨?_, rfl⟩
  cases hfound : c.timeFor? (pauseTarget p length) with
  | some time' =>
    rw [hfound] at htime
    cases htime
    exact Curve.isNaN_of_timeFor? hc.isNaN hfound
  | none =>
    rw [hfound] at htime
    obtain ⟨last, hlast, rfl⟩ := Option.map_eq_some_iff.1 htime
    exact hc.isNaN _ (List.mem_map_of_mem (List.mem_of_getLast? hlast))

/-- The changes that pauses of ordinary lengths make are proper. -/
theorem proper_reshapings (hfits : r.FitsRounded) (hauthored : InTurn r.authored.times)
    (hpauses : ∀ p ∈ pauses, IsLength p.seconds) (hzero : ¬r.effectiveDuration ≤ Scalar.zero)
    (hexceed : ¬r.effectiveDuration ≤ Scalar.sum (pauses.map (·.seconds))) :
    ∀ s ∈ r.reshapings pauses length, s.Proper := by
  obtain ⟨hnan, hfinite⟩ := hfits.effectiveDuration
  have hseconds : ∀ x ∈ pauses.map (·.seconds), IsLength x := List.forall_mem_map.2 hpauses
  have htotal := isTotal_sum hseconds
  rw [le_zero_iff hnan, not_le] at hzero
  rw [le_iff hnan htotal.isNaN, not_le] at hexceed
  have heffective : IsLength r.effectiveDuration := isLength_iff.2 ⟨hfinite hzero, hzero.le⟩
  refine List.forall_mem_cons.2 ⟨trivial, List.forall_mem_map.2 fun hold hhold => ?_⟩
  rw [holds, List.mem_mergeSort, List.mem_filterMap] at hhold
  obtain ⟨p, hp, hhold⟩ := hhold
  replace hp := (List.mem_filter.1 hp).1
  have hscaled (scaling : Reshaping Float32) (hscaling : scaling.Proper) :
      InTurn (scaling.apply r.authored).times := Reshaping.inTurn_apply hscaling hauthored
  obtain ⟨htime, hlength⟩ := isNaN_of_holdFor? (hscaled (.scale _ _) trivial) hhold
  refine ⟨htime, ?_⟩
  have hseconds' := hpauses p hp
  rw [hlength]
  exact (inUnit_div hseconds'.isFinite heffective.isFinite hseconds'.exact_nonneg hzero
    ((le_sum_of_mem hseconds (List.mem_map_of_mem hp)).trans hexceed.le)).isFinite

end Reveal

variable {keys : List (Keyframe Float32)} {c : Curve Float32}

/-- **What stays of the order of keys, and what has to be left apart for the rest.** Keys that make a
curve are sound. However the curve is then reshaped, by scalings with any factors and holds of ordinary
lengths, the times of its keys are not undefined and none is after the next; its keys are sound exactly
if every change, from the first on, leaves the numbers that it computes ordinary and apart. The curve
that pauses of ordinary lengths are put into, in a reveal whose offsets fit, is the authored one after
such changes. -/
theorem sound_foldl_iff_of_ofKeys (hkeys : Curve.ofKeys keys = .ok c) :
    c.Sound
      ∧ (∀ rs : List (Reshaping Float32), (∀ r ∈ rs, r.Proper) →
          InTurn (rs.foldl Reshaping.apply c).times
            ∧ ((rs.foldl Reshaping.apply c).Sound
              ↔ ∀ before r after, rs = before ++ r :: after →
                  r.Keeps (before.foldl Reshaping.apply c)))
      ∧ ∀ r : Reveal Float32, r.FitsRounded → r.authored = c →
          ∀ pauses : List (Pause Float32), (∀ p ∈ pauses, IsLength p.seconds) → pauses ≠ [] →
            ∀ length, (r.applyPauses pauses length).2 = none →
              (∀ s ∈ r.reshapings pauses length, s.Proper)
                ∧ (r.applyPauses pauses length).1.inUse
                  = (r.reshapings pauses length).foldl Reshaping.apply c := by
  have hsound := Curve.sound_of_ofKeys hkeys
  have horder := hsound.times.inTurn
  refine ⟨hsound, fun rs hrs => ⟨Reshaping.inTurn_foldl hrs horder, ?_⟩, ?_⟩
  · rw [Reshaping.sound_foldl_iff hrs horder]
    exact and_iff_right hsound
  · rintro r hfits rfl pauses hpauses hne length hok
    obtain ⟨hzero, hexceed, hrun⟩ := Reveal.inUse_applyPauses hne hok
    exact ⟨Reveal.proper_reshapings hfits horder hpauses hzero hexceed, hrun⟩

/-- A straight line over a second, and a pause too short for half way there. -/
theorem sound_foldl_iff_of_ofKeys_short :
    ∃ c : Curve Float32, Curve.ofKeys [⟨0, 0, 1, 1⟩, ⟨1, 1, 1, 1⟩] = .ok c
      ∧ InTurn (c.insertHold 0.5 (Float32.ofBits 0x2B800000)).times
      ∧ ¬(c.insertHold 0.5 (Float32.ofBits 0x2B800000)).Sound
      ∧ ∃ rs : List (Reshaping Float32), (∀ r ∈ rs, r.Proper)
        ∧ ((Reveal.new c 2).applyPauses [⟨5, Float32.ofBits 0x2B800000⟩] 10).1.inUse
          = rs.foldl Reshaping.apply c := by
  have hkeys : Curve.ofKeys [⟨0, 0, 1, 1⟩, ⟨1, 1, 1, 1⟩]
      = .ok (⟨[⟨0, 0, 1, 1⟩, ⟨1, 1, 1, 1⟩]⟩ : Curve Float32) :=
    Curve.ofKeys_of_sorted (by decide +kernel) (by decide +kernel) (by decide +kernel)
  obtain ⟨-, hrun, hpauses⟩ := sound_foldl_iff_of_ofKeys hkeys
  have hproper : ∀ r ∈ [Reshaping.hold 0.5 (Float32.ofBits 0x2B800000)], r.Proper :=
    List.forall_mem_singleton.2 ⟨by decide +kernel, by decide +kernel⟩
  obtain ⟨horder, hsound⟩ := hrun _ hproper
  have hlengths : ∀ p ∈ [(⟨5, Float32.ofBits 0x2B800000⟩ : Pause Float32)], IsLength p.seconds :=
    List.forall_mem_singleton.2 ⟨by decide +kernel, by decide +kernel⟩
  have hfits := Reveal.fits_new ⟨[⟨0, 0, 1, 1⟩, ⟨1, 1, 1, 1⟩]⟩ 2
  have hok := hfits.refused_eq hlengths 10
  refine ⟨_, hkeys, horder, fun h => ?_, _, hpauses _ hfits rfl _ hlengths (by simp) 10 ?_⟩
  · -- The hold ends where it begins.
    obtain ⟨hrising, -⟩ := hsound.1 h [] _ [] rfl ⟨by simp, by decide +kernel⟩
    exact absurd ((rising_cons.1 hrising).2.1 _ List.mem_cons_self) (by decide +kernel)
  · rw [hok]
    decide +kernel

end BranchingDialogue
