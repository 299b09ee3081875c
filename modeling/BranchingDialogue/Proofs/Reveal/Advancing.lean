import BranchingDialogue.Proofs.Curve.Blending
import BranchingDialogue.Proofs.Curve.Rising
import BranchingDialogue.Proofs.Reveal.Refusing

/-!
# A reveal never runs backwards, with rounding

How far a reveal has come is told from the time that has elapsed since its offset was over. That time is
the difference of three floats, rounded twice, and it may be infinite, or undefined where two infinite
times meet. The part of the effective time that it makes is rounded again and cut off at both ends.

None of this breaks the order. Rounding is monotone, and so is cutting off (`reached_mono`). A time that
is undefined counts as none (`reached_of_not_nonneg`), but no time that is not is earlier and counts for
more: where something has elapsed at all, what has elapsed later is defined, and not less
(`elapsed_mono`).

Main result: `intervalAt_advances`.
-/

namespace BranchingDialogue

open Binary32 Rounding

namespace Binary32

variable {x : Float32}

theorem inUnit_zero : InUnit Scalar.zero := ⟨isFinite_zero, exact_zero.ge, exact_zero.trans_le zero_le_one⟩

theorem inUnit_one : InUnit Scalar.one :=
  ⟨denotes_one.isFinite, denotes_one.exact_eq ▸ zero_le_one, denotes_one.exact_eq.le⟩

/-- A float that is defined is moved into the range as its number is. -/
theorem exact_clamp (hx : x.isNaN = false) : (Scalar.clamp Scalar.zero Scalar.one x).isNaN = false
    ∧ exact (Scalar.clamp Scalar.zero Scalar.one x) = max 0 (min 1 (exact x)) := by
  have hone : exact Scalar.one = 1 := denotes_one.exact_eq
  have hone' : Float32.isNaN Scalar.one = false := isNaN_of_isFinite denotes_one.isFinite
  unfold Scalar.clamp
  split
  · next hlow =>
    rw [lt_iff hx isNaN_zero, exact_zero] at hlow
    exact ⟨isNaN_zero, by rw [min_eq_right (by linarith), max_eq_left hlow.le, exact_zero]⟩
  · next hlow =>
    rw [lt_iff hx isNaN_zero, exact_zero, not_lt] at hlow
    split
    · next hhigh =>
      rw [lt_iff hone' hx, hone] at hhigh
      exact ⟨hone', by rw [min_eq_left hhigh.le, max_eq_right zero_le_one, hone]⟩
    · next hhigh =>
      rw [lt_iff hone' hx, hone, not_lt] at hhigh
      exact ⟨hx, by rw [min_eq_right hhigh, max_eq_right hlow]⟩

/-- So it lies in the range then. -/
theorem inUnit_clamp (hx : x.isNaN = false) : InUnit (Scalar.clamp Scalar.zero Scalar.one x) := by
  obtain ⟨hdefined, hexact⟩ := exact_clamp hx
  have hlow : 0 ≤ exact (Scalar.clamp Scalar.zero Scalar.one x) := hexact ▸ le_max_left _ _
  have hhigh : exact (Scalar.clamp Scalar.zero Scalar.one x) ≤ 1 :=
    hexact ▸ max_le zero_le_one (min_le_left _ _)
  have hhigh' : exact (Scalar.clamp Scalar.zero Scalar.one x) ≤ exact Scalar.one := by
    rwa [denotes_one.exact_eq]
  exact ⟨(isLength_of_le hdefined hlow denotes_one.isFinite hhigh').isFinite, hlow, hhigh⟩

/-- An undefined float stays so. -/
theorem clamp_undefined (hx : x.isNaN = true) : Scalar.clamp Scalar.zero Scalar.one x = x := by
  unfold Scalar.clamp
  rw [if_neg, if_neg]
  · intro h
    rw [(isNaN_of_lt h).2] at hx
    cases hx
  · intro h
    rw [(isNaN_of_lt h).1] at hx
    cases hx

end Binary32

namespace Reveal

variable {r : Reveal Float32} {elapsed elapsed' t t' start : Float32}

/-- How far a reveal has come, by the time that has elapsed since the offset at its start. -/
def reached (r : Reveal Float32) (elapsed : Float32) : Float32 :=
  if r.effectiveDuration ≤ Scalar.zero then if Scalar.zero ≤ elapsed then Scalar.one else Scalar.zero
  else
    let interval := Scalar.clamp Scalar.zero Scalar.one (elapsed / r.effectiveDuration)
    if interval.isNaN then Scalar.zero else interval

theorem intervalAt_eq_reached (r : Reveal Float32) (t start : Float32) :
    r.intervalAt t start = r.reached (t - start - r.startOffset) := rfl

theorem reached_of_le (h : r.effectiveDuration ≤ Scalar.zero) (elapsed : Float32) :
    r.reached elapsed = if Scalar.zero ≤ elapsed then Scalar.one else Scalar.zero := if_pos h

theorem reached_eq_clamp (h : ¬r.effectiveDuration ≤ Scalar.zero)
    (hnan : (elapsed / r.effectiveDuration).isNaN = false) :
    r.reached elapsed = Scalar.clamp Scalar.zero Scalar.one (elapsed / r.effectiveDuration) := by
  unfold reached
  dsimp only
  rw [if_neg h, (exact_clamp hnan).1, if_neg Bool.false_ne_true]

theorem exact_reached (h : ¬r.effectiveDuration ≤ Scalar.zero)
    (hnan : (elapsed / r.effectiveDuration).isNaN = false) :
    exact (r.reached elapsed) = max 0 (min 1 (exact (elapsed / r.effectiveDuration))) := by
  rw [reached_eq_clamp h hnan]
  exact (exact_clamp hnan).2

theorem reached_undefined (h : ¬r.effectiveDuration ≤ Scalar.zero)
    (hnan : (elapsed / r.effectiveDuration).isNaN = true) : r.reached elapsed = Scalar.zero := by
  unfold reached
  dsimp only
  rw [if_neg h, clamp_undefined hnan, hnan, if_pos rfl]

/-- **How far a reveal has come lies between zero and one**, whatever the time is. -/
theorem inUnit_reached (r : Reveal Float32) (elapsed : Float32) : InUnit (r.reached elapsed) := by
  by_cases h : r.effectiveDuration ≤ Scalar.zero
  · rw [reached_of_le h]
    split
    · exact inUnit_one
    · exact inUnit_zero
  · cases hnan : (elapsed / r.effectiveDuration).isNaN with
    | true =>
      rw [reached_undefined h hnan]
      exact inUnit_zero
    | false =>
      rw [reached_eq_clamp h hnan]
      exact inUnit_clamp hnan

/-- What the offsets leave of the duration is an ordinary number, if they leave any. -/
theorem FitsRounded.effectiveDuration_pos (h : r.FitsRounded)
    (hpos : ¬r.effectiveDuration ≤ Scalar.zero) :
    r.effectiveDuration.isFinite = true ∧ 0 < exact r.effectiveDuration := by
  obtain ⟨hnan, hfinite⟩ := h.effectiveDuration
  rw [le_zero_iff hnan, not_le] at hpos
  exact ⟨hfinite hpos, hpos⟩

/-- Where nothing has elapsed, or nothing that is defined, nothing has been reached. -/
theorem FitsRounded.reached_of_not_nonneg (h : r.FitsRounded) (hneg : ¬Scalar.zero ≤ elapsed) :
    exact (r.reached elapsed) = 0 := by
  by_cases heffective : r.effectiveDuration ≤ Scalar.zero
  · rw [reached_of_le heffective, if_neg hneg, exact_zero]
  · obtain ⟨hfinite, hpos⟩ := h.effectiveDuration_pos heffective
    cases hnan : (elapsed / r.effectiveDuration).isNaN with
    | true => rw [reached_undefined heffective hnan, exact_zero]
    | false =>
      have hdefined := (isNaN_of_div hnan).1
      rw [le_iff isNaN_zero hdefined, exact_zero, not_le] at hneg
      have hquotient := div_mono hdefined isNaN_zero hfinite hpos (hneg.le.trans_eq exact_zero.symm)
      rw [(denotes_zero_div denotes_zero hfinite hpos.ne').exact_eq] at hquotient
      rw [exact_reached heffective hnan, min_eq_right (hquotient.trans zero_le_one),
        max_eq_left hquotient]

/-- What has been reached does not fall when more time has elapsed. -/
theorem FitsRounded.reached_mono (h : r.FitsRounded) (hdefined : elapsed.isNaN = false)
    (hdefined' : elapsed'.isNaN = false) (hle : exact elapsed ≤ exact elapsed') :
    exact (r.reached elapsed) ≤ exact (r.reached elapsed') := by
  by_cases heffective : r.effectiveDuration ≤ Scalar.zero
  · by_cases hnonneg : Scalar.zero ≤ elapsed
    · have hnonneg' : Scalar.zero ≤ elapsed' :=
        le_of_exact_le isNaN_zero hdefined' ((exact_le_of_le hnonneg).trans hle)
      rw [reached_of_le heffective, reached_of_le heffective, if_pos hnonneg, if_pos hnonneg']
    · rw [reached_of_le heffective elapsed, if_neg hnonneg, exact_zero]
      exact (r.inUnit_reached elapsed').nonneg
  · obtain ⟨hfinite, hpos⟩ := h.effectiveDuration_pos heffective
    have hquotient := div_mono hdefined hdefined' hfinite hpos hle
    rw [exact_reached heffective (isNaN_div hdefined hfinite hpos),
      exact_reached heffective (isNaN_div hdefined' hfinite hpos)]
    exact max_le_max_left 0 (min_le_min_left 1 hquotient)

/-- **Where something has elapsed, what has elapsed later is defined, and not less.** -/
theorem FitsRounded.elapsed_mono (h : r.FitsRounded) (ht : t ≤ t')
    (hnonneg : Scalar.zero ≤ t - start - r.startOffset) :
    (t' - start - r.startOffset).isNaN = false
      ∧ exact (t - start - r.startOffset) ≤ exact (t' - start - r.startOffset) := by
  have hoffset := h.startOffset.isFinite
  have hsince := (isNaN_of_sub (isNaN_of_le hnonneg).2).1
  -- What is less than any number would be so without the offset, too.
  have hlow : -limit .binary32 < exact (t - start) := by
    rcases isFinite_or_infinite hsince with hfinite | ⟨s, hinfinite⟩
    · exact (abs_lt.1 (abs_exact_lt hfinite)).1
    · have hrest := exact_le_of_le hnonneg
      rw [exact_zero, exact_infinite (sub_infinite hinfinite hoffset), ← exact_infinite hinfinite] at hrest
      exact (neg_lt_zero.2 limit_pos).trans_le hrest
  obtain ⟨hsince', hle⟩ := le_sub_of_le (isNaN_of_le ht).2 (exact_le_of_le ht) hsince hlow
  exact ⟨isNaN_sub hsince' hoffset, sub_mono hsince hsince' hoffset hle⟩

/-- **A later time has not reached less.** -/
theorem FitsRounded.intervalAt_mono (h : r.FitsRounded) (ht : t ≤ t') (start : Float32) :
    exact (r.intervalAt t start) ≤ exact (r.intervalAt t' start) := by
  rw [intervalAt_eq_reached, intervalAt_eq_reached]
  by_cases hnonneg : Scalar.zero ≤ t - start - r.startOffset
  · obtain ⟨hdefined, hle⟩ := h.elapsed_mono ht hnonneg
    exact h.reached_mono (isNaN_of_le hnonneg).2 hdefined hle
  · rw [h.reached_of_not_nonneg hnonneg]
    exact (r.inUnit_reached _).nonneg

end Reveal

/-- **A reveal stays between nothing and all, and never runs backwards.** Whatever curve and duration a
reveal is made of, and however it is changed, with any floats: at any time, and from any start, infinite
and undefined ones included, how far it has come is a number from zero to one; and of two times that
compare, the later one finds it at least as far as the earlier one. -/
theorem intervalAt_advances (c : Curve Float32) (duration : Float32) (changes : List (Change Float32))
    (start : Float32) :
    let r := changes.foldl Change.apply (Reveal.new c duration)
    (∀ t, (r.intervalAt t start).isNaN = false ∧ Scalar.zero ≤ r.intervalAt t start
        ∧ r.intervalAt t start ≤ Scalar.one)
      ∧ ∀ t t', t ≤ t' → r.intervalAt t start ≤ r.intervalAt t' start := by
  intro r
  have hfits : r.FitsRounded := (Reveal.fits_new c duration).foldl changes
  have hunit : ∀ t, InUnit (r.intervalAt t start) := fun t => r.inUnit_reached _
  have hnan : ∀ t, (r.intervalAt t start).isNaN = false := fun t =>
    isNaN_of_isFinite (hunit t).isFinite
  refine ⟨fun t => ⟨hnan t, ?_, ?_⟩, fun t t' ht => ?_⟩
  · exact le_of_exact_le isNaN_zero (hnan t) (hunit t).nonneg
  · exact le_of_exact_le (hnan t) (isNaN_of_isFinite inUnit_one.isFinite)
      ((hunit t).le_one.trans_eq denotes_one.exact_eq.symm)
  · exact le_of_exact_le (hnan t) (hnan t') (hfits.intervalAt_mono ht start)

end BranchingDialogue
