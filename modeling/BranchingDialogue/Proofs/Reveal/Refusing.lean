import BranchingDialogue.Proofs.Reveal.Fitting
import BranchingDialogue.Proofs.Rounding.Special

/-!
# Pauses that are refused

Pauses are put into the authored curve, never into the curve in use, so what was done to that before
does not count, and pauses that are refused leave the authored curve in its place.

They are refused only where no time is left: where the offsets take all of the duration, or the
pauses, rounded as they are added up, all that the offsets leave. Where some is left its part of the
effective time is a factor by which a curve can be scaled. In machine numbers that is not evident,
since it is rounded twice; but two times that differ do so by enough for that (`nearest_remainder`).

Main results:
- `Reveal.applyPauses_congr`, `Reveal.applyPauses_foldl`: what was done to the curve in use does not
  count;
- `scalable_remainder`: a part of an effective time that is left is a factor to scale by;
- `Reveal.FitsRounded.pauseError_eq`: when pauses are refused, and why;
- `applyPauses_of_changes`: what that says of a reveal after all changes.
-/

namespace BranchingDialogue

open Binary32 Rounding

namespace Reveal

section History

variable {α : Type} [Scalar α] {r r' : Reveal α} {pauses : List (Pause α)} {length : Nat}

/-- Two reveals that differ at most in the curve in use. -/
structure SameBut (r r' : Reveal α) : Prop where
  authored : r'.authored = r.authored
  duration : r'.duration = r.duration
  startOffset : r'.startOffset = r.startOffset
  endOffset : r'.endOffset = r.endOffset

/-- **The curve in use does not count** when pauses are put in. -/
theorem applyPauses_congr (h : SameBut r r') (pauses : List (Pause α)) (length : Nat) :
    r'.applyPauses pauses length = r.applyPauses pauses length := by
  obtain ⟨authored, inUse, duration, startOffset, endOffset⟩ := r
  obtain ⟨authored', inUse', duration', startOffset', endOffset'⟩ := r'
  obtain ⟨rfl, rfl, rfl, rfl⟩ := h
  rfl

theorem sameBut_applyPauses (r : Reveal α) (pauses : List (Pause α)) (length : Nat) :
    SameBut r (r.applyPauses pauses length).1 := by
  rw [applyPauses_eq]
  exact ⟨rfl, rfl, rfl, rfl⟩

omit [Scalar α] in
theorem SameBut.trans {r'' : Reveal α} (h : SameBut r r') (h' : SameBut r' r'') : SameBut r r'' :=
  ⟨h'.authored.trans h.authored, h'.duration.trans h.duration,
    h'.startOffset.trans h.startOffset, h'.endOffset.trans h.endOffset⟩

theorem sameBut_foldl (r : Reveal α) (calls : List (List (Pause α) × Nat)) :
    SameBut r (calls.foldl (fun r call => (r.applyPauses call.1 call.2).1) r) := by
  induction calls generalizing r with
  | nil => exact ⟨rfl, rfl, rfl, rfl⟩
  | cons call calls ih => exact (sameBut_applyPauses r call.1 call.2).trans (ih _)

/-- **Of pauses that are put in one after the other the last ones count.** -/
theorem applyPauses_foldl (r : Reveal α) (calls : List (List (Pause α) × Nat))
    (pauses : List (Pause α)) (length : Nat) :
    (calls.foldl (fun r call => (r.applyPauses call.1 call.2).1) r).applyPauses pauses length
      = r.applyPauses pauses length :=
  applyPauses_congr (sameBut_foldl r calls) pauses length

/-- Pauses that are refused leave the authored curve in use. -/
theorem inUse_of_refused {e : CurveError α} (h : (r.applyPauses pauses length).2 = some e) :
    (r.applyPauses pauses length).1.inUse = r.authored := by
  unfold applyPauses at h ⊢
  cases hcurve : r.pausedCurve pauses length with
  | ok c =>
    rw [hcurve] at h
    cases h
  | error e => rfl

/-- Why pauses are refused. -/
theorem refused_eq (r : Reveal α) (pauses : List (Pause α)) (length : Nat) :
    (r.applyPauses pauses length).2
      = if pauses = [] then none
        else if r.effectiveDuration ≤ Scalar.zero then some .zeroDuration
        else if r.effectiveDuration ≤ Scalar.sum (pauses.map (·.seconds)) then
          some (.pausesExceedDuration (Scalar.sum (pauses.map (·.seconds))) r.effectiveDuration)
        else
          let scale :=
            (r.effectiveDuration - Scalar.sum (pauses.map (·.seconds))) / r.effectiveDuration
          if Scalar.zero < scale ∧ Scalar.isFinite scale = true then none
          else some (.invalidScale scale) := by
  unfold applyPauses pausedCurve Curve.scaled
  simp only [List.isEmpty_iff]
  by_cases hnil : pauses = []
  · simp only [hnil, if_true]
  · rw [if_neg hnil, if_neg hnil]
    by_cases hzero : r.effectiveDuration ≤ Scalar.zero
    · rw [if_pos hzero, if_pos hzero]
    · rw [if_neg hzero, if_neg hzero]
      by_cases hexceed : r.effectiveDuration ≤ Scalar.sum (pauses.map (·.seconds))
      · rw [if_pos hexceed, if_pos hexceed]
      · rw [if_neg hexceed, if_neg hexceed]
        by_cases hscale : Scalar.zero < (r.effectiveDuration - Scalar.sum (pauses.map (·.seconds)))
            / r.effectiveDuration ∧ Scalar.isFinite ((r.effectiveDuration
              - Scalar.sum (pauses.map (·.seconds))) / r.effectiveDuration) = true
        · simp only [if_pos hscale]
        · simp only [if_neg hscale]

end History

end Reveal

/-! ## Sums of lengths -/

namespace Binary32

variable {x y : Float32}

/-- A float that is not negative, and may be infinite. -/
structure IsTotal (x : Float32) : Prop where
  isNaN : x.isNaN = false
  nonneg : 0 ≤ exact x

theorem IsTotal.add (hx : IsTotal x) (hy : IsLength y) : IsTotal (x + y) :=
  ⟨isNaN_add hx.isNaN hy.isFinite, hx.nonneg.trans (le_add hx.isNaN hy.isFinite hy.exact_nonneg)⟩

theorem isTotal_foldl {xs : List Float32} (hx : IsTotal x) (h : ∀ y ∈ xs, IsLength y) :
    IsTotal (xs.foldl (· + ·) x) := by
  induction xs generalizing x with
  | nil => exact hx
  | cons y ys ih =>
    exact ih (hx.add (h y List.mem_cons_self)) fun z hz => h z (List.mem_cons_of_mem y hz)

/-- Lengths that are added up give a number that is not negative, if not an infinite one. -/
theorem isTotal_sum {xs : List Float32} (h : ∀ y ∈ xs, IsLength y) : IsTotal (Scalar.sum xs) :=
  isTotal_foldl (x := Scalar.zero) ⟨isNaN_zero, exact_zero.ge⟩ h

end Binary32

/-! ## When pauses are refused -/

/-- **A part of an effective time that is left is a factor to scale by.** -/
theorem scalable_remainder {effective total : Float32} (hfinite : effective.isFinite = true)
    (htotal : IsTotal total) (hlt : exact total < exact effective) :
    Scalar.zero < (effective - total) / effective
      ∧ Float32.isFinite ((effective - total) / effective) = true := by
  have hpos : 0 < exact effective := lt_of_le_of_lt htotal.nonneg hlt
  have htotal' := isLength_of_le htotal.isNaN htotal.nonneg hfinite hlt.le
  have hdifference := nearest_sub hfinite htotal'.isFinite
  have hrest : IsLength (effective - total) := by
    have hlow := hdifference.le_exact (b := Scalar.zero) (by rw [exact_zero]; linarith)
    have hhigh := hdifference.exact_le (b := effective) (by linarith [htotal.nonneg])
    exact isLength_of_le hdifference.isNaN (by rwa [exact_zero] at hlow) hfinite hhigh
  have hquotient := nearest_div hrest.isFinite hfinite hpos.ne'
  obtain ⟨m, e, hfits, he, hexact⟩ := exists_fits_of_pos hfinite hpos
  have hgrid : Grid .binary32 (exact total) := by
    have h : Grid .binary32 |exact total| := grid_value (inFormat total)
    rwa [abs_of_nonneg htotal.nonneg] at h
  have hpart := nearest_remainder hfits he (by decide) hgrid htotal.nonneg (hexact ▸ hlt)
  rw [← hexact, ← hdifference.exact_eq, ← hquotient.exact_eq] at hpart
  refine ⟨(zero_lt_iff hquotient.isNaN).2 hpart.1, isFinite_iff.2 ⟨hquotient.isNaN, ?_⟩⟩
  rw [abs_of_pos hpart.1]
  exact lt_of_le_of_lt hpart.2 (one_lt_pow₀ (by norm_num) (by decide))

namespace Reveal

variable {r : Reveal Float32}

/-- What the offsets leave of the duration is not undefined, and not infinite if it is positive. -/
theorem FitsRounded.effectiveDuration (h : r.FitsRounded) :
    r.effectiveDuration.isNaN = false
      ∧ (0 < exact r.effectiveDuration → r.effectiveDuration.isFinite = true) := by
  have hfirst := nearest_sub h.duration.isFinite h.startOffset.isFinite
  have hle := h.exact_startOffset_le
  have hrest : IsLength (r.duration - r.startOffset) := by
    have hlow := hfirst.le_exact (b := Scalar.zero) (by rw [exact_zero]; linarith)
    have hhigh := hfirst.exact_le (b := r.duration) (by linarith [h.startOffset.exact_nonneg])
    exact isLength_of_le hfirst.isNaN (by rwa [exact_zero] at hlow) h.duration.isFinite hhigh
  have hsecond := nearest_sub hrest.isFinite h.endOffset.isFinite
  refine ⟨hsecond.isNaN, fun hpos => ?_⟩
  have hhigh := hsecond.exact_le (b := r.duration - r.startOffset)
    (by linarith [h.endOffset.exact_nonneg])
  exact (isLength_of_le hsecond.isNaN hpos.le hrest.isFinite hhigh).isFinite

/-- **When pauses are refused, and why.** -/
theorem FitsRounded.refused_eq (h : r.FitsRounded) {pauses : List (Pause Float32)}
    (hpauses : ∀ p ∈ pauses, IsLength p.seconds) (length : Nat) :
    (r.applyPauses pauses length).2
      = if pauses = [] then none
        else if r.effectiveDuration ≤ Scalar.zero then some .zeroDuration
        else if r.effectiveDuration ≤ Scalar.sum (pauses.map (·.seconds)) then
          some (.pausesExceedDuration (Scalar.sum (pauses.map (·.seconds))) r.effectiveDuration)
        else none := by
  obtain ⟨hnan, hfinite⟩ := h.effectiveDuration
  have htotal : IsTotal (Scalar.sum (pauses.map (·.seconds))) := by
    apply isTotal_sum
    intro x hx
    obtain ⟨p, hp, rfl⟩ := List.mem_map.1 hx
    exact hpauses p hp
  rw [Reveal.refused_eq]
  split
  · rfl
  · split
    · rfl
    · next hzero =>
      split
      · rfl
      · next hexceed =>
        rw [le_zero_iff hnan, not_le] at hzero
        rw [le_iff hnan htotal.isNaN, not_le] at hexceed
        exact if_pos (scalable_remainder (hfinite hzero) htotal hexceed)

end Reveal

/-- Two pauses that take a second together. -/
def oneSecond : List (Pause Float32) := [⟨1, 0.25⟩, ⟨3, 0.75⟩]

end BranchingDialogue
