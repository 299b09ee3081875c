import BranchingDialogue.Proofs.Curve.Stepped
import BranchingDialogue.Proofs.Reveal.Advancing
import BranchingDialogue.Story.Clip

/-!
# The frames among which a character is looked up

The times that are asked are multiples of a step, rounded one by one, from the start of a reveal to its
end. Whatever the step is, they are in order and none is outside, since rounding is monotone and the
end cuts off what is beyond it (`exact_frameTime_mono`, `frameTime_bounds`); and the end is one of them.
An infinite step leaves the end alone (`isFinite_scanStep`).

The first of these times at which a character is visible is the result. Where the start of the reveal is
asked for, a frame counts if the line begins to show there. That too is the first frame at which it
shows (`find?_range_begins`).

Main result: `timeFor?_first`.
-/

namespace BranchingDialogue

open Binary32 Rounding

/-- The first number for which a test holds is the first one at which it begins to hold. -/
theorem find?_range_begins (p : Nat → Bool) (n : Nat) :
    ((List.range n).find? fun k => (match k with | 0 => true | k + 1 => !p k) && p k)
      = (List.range n).find? p := by
  cases h : (List.range n).find? p with
  | none =>
    refine List.find?_eq_none.2 fun k hk hbegins => List.find?_eq_none.1 h k hk ?_
    exact (Bool.and_eq_true _ _ ▸ hbegins).2
  | some i =>
    obtain ⟨hp, hi, hearlier⟩ := List.find?_range_eq_some.1 h
    refine List.find?_range_eq_some.2 ⟨?_, hi, fun j hj => ?_⟩
    · cases i with
      | zero => exact hp
      | succ i =>
        rw [Bool.and_eq_true]
        exact ⟨hearlier i (Nat.lt_succ_self i), hp⟩
    · have hnot := hearlier j hj
      rw [Bool.not_eq_true'] at hnot
      rw [hnot, Bool.and_false]
      rfl

namespace Binary32

variable {x b : Float32}

/-- Of two floats that are defined the larger one is that of the larger number. -/
theorem exact_max (hx : x.isNaN = false) (hb : b.isNaN = false) :
    exact (Scalar.max x b) = max (exact x) (exact b) := by
  unfold Scalar.max
  split
  · next hnan => exact absurd hnan (Bool.eq_false_iff.1 hx)
  · split
    · next hlt => exact (max_eq_right ((lt_iff hx hb).1 hlt).le).symm
    · next hlt =>
      rw [lt_iff hx hb, not_lt] at hlt
      exact (max_eq_left hlt).symm

theorem toCount_zero {s : Float.Model.UnpackedFloat.Sign} (f : ℕ → ℤ → ℕ)
    (hx : x.toModel.unpack = .zero s) : toCount f x = 0 := by
  unfold toCount
  rw [hx]

end Binary32

namespace Reveal

/-- The times of the frames that are sampled. -/
def samples {α : Type} [Scalar α] (r : Reveal α) (start step : α) : List α :=
  (List.range (r.lastFrame step + 1)).map (r.frameTime start step)

/-- Whether a number of characters counts as visible at a time. If there is an offset at the start, zero
characters do not count before anything is visible. -/
def Shows {α : Type} [Scalar α] (r : Reveal α) (start : α) (length index : Nat) (time : α) : Prop :=
  if index = 0 ∧ Scalar.zero < r.startOffset then Scalar.zero < r.visibilityAt time start
  else index ≤ r.indexAt time start length

instance {α : Type} [Scalar α] (r : Reveal α) (start : α) (length index : Nat) :
    DecidablePred (r.Shows start length index) := fun time =>
  inferInstanceAs (Decidable (if index = 0 ∧ Scalar.zero < r.startOffset then
    Scalar.zero < r.visibilityAt time start else index ≤ r.indexAt time start length))

variable {r : Reveal Float32} {start step t : Float32} {index length j k : Nat}

/-! ## The times -/

/-- The end of the reveal is not before its start. -/
theorem end_bounds (hduration : IsLength r.duration) (hstart : start.isFinite = true) :
    (start + r.duration).isNaN = false ∧ exact start ≤ exact (start + r.duration) :=
  have hdefined := isNaN_of_isFinite hstart
  ⟨isNaN_add hdefined hduration.isFinite, le_add hdefined hduration.isFinite hduration.exact_nonneg⟩

theorem frameTime_last (r : Reveal Float32) (start step : Float32) :
    r.frameTime start step (r.lastFrame step) = start + r.duration := if_pos rfl

theorem lastFrame_le (r : Reveal Float32) (step : Float32) : r.lastFrame step ≤ maxScanFrames :=
  Nat.min_le_right _ _

section Times

variable (hduration : IsLength r.duration) (hstep : Scalar.zero < step)
include hduration hstep

theorem scanStep_pos : (r.scanStep step).isNaN = false ∧ 0 < exact (r.scanStep step) := by
  have hcount : Float32.isFinite (Scalar.ofNat maxScanFrames) = true := by decide +kernel
  have hcount' : exact (Scalar.ofNat maxScanFrames) ≠ 0 := by decide +kernel
  have hleast := (nearest_div hduration.isFinite hcount hcount').isNaN
  have hdefined := (isNaN_of_lt hstep).2
  refine ⟨(max_cases step hleast).1, ?_⟩
  rw [scanStep, exact_max hdefined hleast]
  exact lt_max_of_lt_left ((zero_lt_iff hdefined).1 hstep)

/-- If the step is infinite only one frame is sampled. -/
theorem isFinite_scanStep (hlast : 0 < r.lastFrame step) : (r.scanStep step).isFinite = true := by
  rcases isFinite_or_infinite (scanStep_pos hduration hstep).1 with hfinite | ⟨s, hinfinite⟩
  · exact hfinite
  · -- Then the duration makes no part of a step.
    obtain ⟨s', hzero⟩ := div_by_infinite hduration.isFinite hinfinite
    have hceil : Scalar.ceil (r.duration / r.scanStep step) = 0 := toCount_zero _ hzero
    rw [lastFrame, hceil] at hlast
    exact absurd hlast (Nat.not_lt_of_le (Nat.min_le_left _ _))

theorem exact_multiple_mono (hjk : j ≤ k) (hk : k < r.lastFrame step) :
    (Scalar.ofNat k * r.scanStep step).isNaN = false
      ∧ exact (Scalar.ofNat j * r.scanStep step) ≤ exact (Scalar.ofNat k * r.scanStep step) := by
  have hfinite := isFinite_scanStep hduration hstep (Nat.zero_lt_of_lt hk)
  have hpos := (scanStep_pos hduration hstep).2
  have hsmall : k < 2 ^ 64 :=
    (hk.trans_le (r.lastFrame_le step)).trans (by decide : maxScanFrames < 2 ^ 64)
  have hj := nearest_ofNat (hjk.trans_lt hsmall)
  have hk := nearest_ofNat hsmall
  refine ⟨isNaN_mul hk.isNaN hfinite hpos, mul_mono hj.isNaN hk.isNaN hfinite hpos ?_⟩
  rw [hj.exact_eq, hk.exact_eq]
  exact nearest_mono (Nat.cast_le.2 hjk)

variable (hstart : start.isFinite = true)
include hstart

/-- Before the last frame times are the start, put off by multiples of the step. -/
theorem exact_put_off_mono (hjk : j ≤ k) (hk : k < r.lastFrame step) :
    (start + Scalar.ofNat k * r.scanStep step).isNaN = false
      ∧ exact (start + Scalar.ofNat j * r.scanStep step)
        ≤ exact (start + Scalar.ofNat k * r.scanStep step) := by
  obtain ⟨hdefined, hle⟩ := exact_multiple_mono hduration hstep hjk hk
  obtain ⟨hdefined', -⟩ := exact_multiple_mono hduration hstep le_rfl (hjk.trans_lt hk)
  -- The start is the ordinary operand, whichever the other one is.
  rw [add_swap, add_swap start]
  exact ⟨isNaN_add hdefined hstart, add_mono hdefined' hdefined hstart hle⟩

theorem frameTime_of_lt (hk : k < r.lastFrame step) : (r.frameTime start step k).isNaN = false
    ∧ exact (r.frameTime start step k)
      = min (exact (start + Scalar.ofNat k * r.scanStep step)) (exact (start + r.duration)) := by
  have hdefined := (exact_put_off_mono hduration hstep hstart le_rfl hk).1
  unfold frameTime
  dsimp only
  rw [if_neg hk.ne]
  exact min_cases hdefined (end_bounds hduration hstart).1

/-- No frame is outside the reveal. -/
theorem frameTime_bounds (hk : k ≤ r.lastFrame step) : (r.frameTime start step k).isNaN = false
    ∧ exact start ≤ exact (r.frameTime start step k)
    ∧ exact (r.frameTime start step k) ≤ exact (start + r.duration) := by
  obtain ⟨hend, hlater⟩ := end_bounds hduration hstart
  rcases hk.eq_or_lt with rfl | hlt
  · rw [frameTime_last]
    exact ⟨hend, hlater, le_rfl⟩
  · obtain ⟨hdefined, hexact⟩ := frameTime_of_lt hduration hstep hstart hlt
    refine ⟨hdefined, ?_, hexact ▸ min_le_right _ _⟩
    -- The first frame is at the start itself.
    have hfinite := isFinite_scanStep hduration hstep (Nat.zero_lt_of_lt hlt)
    have hfirst : Denotes (start + Scalar.ofNat 0 * r.scanStep step) (exact start) :=
      denotes_add_zero (denotes_exact hstart) (denotes_zero_mul denotes_zero hfinite)
    have hafter := (exact_put_off_mono hduration hstep hstart (Nat.zero_le k) hlt).2
    rw [hfirst.exact_eq] at hafter
    rw [hexact]
    exact le_min hafter hlater

/-- **The frames are in the order of their times.** -/
theorem exact_frameTime_mono (hjk : j ≤ k) (hk : k ≤ r.lastFrame step) :
    exact (r.frameTime start step j) ≤ exact (r.frameTime start step k) := by
  rcases hk.eq_or_lt with rfl | hlt
  · rw [frameTime_last]
    exact (frameTime_bounds hduration hstep hstart hjk).2.2
  · rw [(frameTime_of_lt hduration hstep hstart hlt).2,
      (frameTime_of_lt hduration hstep hstart (hjk.trans_lt hlt)).2]
    exact min_le_min_right _ (exact_put_off_mono hduration hstep hstart hjk hlt).2

/-- The samples of a reveal: in order, within it, and its end the last of them. -/
theorem samples_spec : (r.samples start step).Pairwise (· ≤ ·)
    ∧ ∀ t ∈ r.samples start step, start ≤ t ∧ t ≤ start + r.duration := by
  have hbounds {k : Nat} (hk : k ∈ List.range (r.lastFrame step + 1)) :=
    frameTime_bounds hduration hstep hstart (Nat.le_of_lt_succ (List.mem_range.1 hk))
  have hend := (end_bounds hduration hstart).1
  refine ⟨List.pairwise_map.2 (List.pairwise_lt_range.imp_of_mem fun hj hk hjk => ?_),
    List.forall_mem_map.2 fun k hk => ?_⟩
  · refine le_of_exact_le (hbounds hj).1 (hbounds hk).1 ?_
    exact exact_frameTime_mono hduration hstep hstart hjk.le (Nat.le_of_lt_succ (List.mem_range.1 hk))
  · obtain ⟨hdefined, hlow, hhigh⟩ := hbounds hk
    exact ⟨le_of_exact_le (isNaN_of_isFinite hstart) hdefined hlow, le_of_exact_le hdefined hend hhigh⟩

end Times

theorem getLast?_samples (r : Reveal Float32) (start step : Float32) :
    (r.samples start step).getLast? = some (start + r.duration) := by
  rw [samples, List.range_succ, List.map_append, List.map_singleton, List.getLast?_concat,
    frameTime_last]

/-! ## The search -/

/-- The line begins to show where it shows and did not a frame before. -/
theorem beginsAt_eq (hvisible : ∀ t, (r.visibilityAt t start).isNaN = false) :
    r.beginsAt start step = fun k =>
      (match k with
        | 0 => true
        | k + 1 => !decide (Scalar.zero < r.visibilityAt (r.frameTime start step k) start))
      && decide (Scalar.zero < r.visibilityAt (r.frameTime start step k) start) := by
  funext k
  cases k with
  | zero =>
    have hzero : decide ((Scalar.zero : Float32) ≤ Scalar.zero) = true := by decide
    simp only [beginsAt, hzero]
  | succ k =>
    have hbefore : decide (r.visibilityAt (r.frameTime start step k) start ≤ Scalar.zero)
        = !decide (Scalar.zero < r.visibilityAt (r.frameTime start step k) start) := by
      rw [← decide_not, decide_eq_decide, le_zero_iff (hvisible _), zero_lt_iff (hvisible _), not_lt]
    simp only [beginsAt, hbefore]

/-- Where visibility is defined, the first frame that counts is the first one that shows what is asked
for. -/
theorem timeFor?_eq_find? (hvisible : ∀ t, (r.visibilityAt t start).isNaN = false)
    (hindex : index ≤ length) (hstep : Scalar.zero < step) :
    r.timeFor? index start length step
      = (r.samples start step).find? fun t => r.Shows start length index t := by
  rw [timeFor?, if_neg (not_or.2 ⟨Nat.not_lt_of_le hindex, not_not_intro hstep⟩), samples,
    List.find?_map]
  unfold Shows
  by_cases hbegin : index = 0 ∧ Scalar.zero < r.startOffset
  · simp only [if_pos hbegin, beginsAt_eq hvisible, find?_range_begins, Function.comp_def]
  · simp only [if_neg hbegin, Function.comp_def]

theorem timeFor?_eq_none_iff (hvisible : ∀ t, (r.visibilityAt t start).isNaN = false) :
    r.timeFor? index start length step = none ↔ length < index ∨ ¬Scalar.zero < step
      ∨ ∀ t ∈ r.samples start step, ¬r.Shows start length index t := by
  by_cases hrefused : length < index ∨ ¬Scalar.zero < step
  · rw [← or_assoc]
    exact iff_of_true (if_pos hrefused) (.inl hrefused)
  · obtain ⟨hindex, hstep⟩ := not_or.1 hrefused
    rw [timeFor?_eq_find? hvisible (Nat.le_of_not_lt hindex) (not_not.1 hstep),
      List.find?_eq_none]
    simp only [hindex, hstep, false_or, decide_eq_true_eq]

theorem exists_before_of_timeFor? (hvisible : ∀ t, (r.visibilityAt t start).isNaN = false)
    (h : r.timeFor? index start length step = some t) :
    ∃ before after, r.samples start step = before ++ t :: after
      ∧ r.Shows start length index t ∧ ∀ s ∈ before, ¬r.Shows start length index s := by
  have hsome : r.timeFor? index start length step ≠ none := by
    rw [h]
    exact Option.some_ne_none t
  rw [ne_eq, timeFor?_eq_none_iff hvisible, not_or, not_or, not_not] at hsome
  obtain ⟨hindex, hstep, -⟩ := hsome
  rw [timeFor?_eq_find? hvisible (Nat.le_of_not_lt hindex) hstep,
    List.find?_eq_some_iff_append] at h
  obtain ⟨hshows, before, after, hsplit, hbefore⟩ := h
  refine ⟨before, after, hsplit, of_decide_eq_true hshows, fun s hs => ?_⟩
  simpa using hbefore s hs

/-- A character that is visible at the end is found. -/
theorem exists_timeFor?_of_le (hvisible : ∀ t, (r.visibilityAt t start).isNaN = false)
    (hstep : Scalar.zero < step) (hpos : 1 ≤ index) (hindex : index ≤ length)
    (hend : index ≤ r.indexAt (start + r.duration) start length) :
    ∃ t, r.timeFor? index start length step = some t := by
  refine Option.ne_none_iff_exists'.1 fun hnone => ?_
  rcases (timeFor?_eq_none_iff hvisible).1 hnone with hbeyond | hnever | hnot
  · exact Nat.not_lt_of_le hindex hbeyond
  · exact hnever hstep
  · refine hnot _ (List.mem_of_getLast? (r.getLast?_samples start step)) ?_
    rw [Shows, if_neg fun hzero => Nat.ne_of_gt hpos hzero.1]
    exact hend

/-- A character is visible at the time at which it is found, whether visibility is defined or not. -/
theorem le_indexAt_of_timeFor? (h : r.timeFor? index start length step = some t) :
    index ≤ r.indexAt t start length := by
  by_cases hindex : index = 0
  · rw [hindex]
    exact Nat.zero_le _
  · -- Only where zero characters are looked up it may be asked for something else.
    unfold timeFor? at h
    split at h
    · cases h
    · simp only [hindex, false_and, if_false] at h
      obtain ⟨k, hfind, rfl⟩ := Option.map_eq_some_iff.1 h
      have hshows := List.find?_some hfind
      exact of_decide_eq_true hshows

end Reveal

/-- What a clip finds is visible in it. -/
theorem Clip.le_visibleChars {clip : Clip Float32} {index : Nat} {step t : Float32}
    (h : clip.revealTime? index step = some t) : index ≤ clip.visibleChars t := by
  unfold revealTime? at h
  unfold visibleChars
  cases hreveal : clip.reveal with
  | some r =>
    rw [hreveal] at h
    exact Reveal.le_indexAt_of_timeFor? h
  | none =>
    rw [hreveal] at h
    dsimp only at h
    split at h
    · next hle => exact hle
    · cases h

/-- **A character is looked up in the first frame that shows it**, for any reveal, whatever curve and
duration it is made of and however it is changed, whose visibility is never undefined. The frames are
at most so many and one, their times are in order, none is outside the reveal, and the last one is its
end. The result is the time of the first frame that shows what is asked for; there is none exactly if
the text has no such character, the step is not positive, or no frame shows it. So a character that is
visible at the end is found; and what a clip finds is visible in it. -/
theorem timeFor?_first (c : Curve Float32) (duration : Float32) (changes : List (Change Float32))
    {r : Reveal Float32} {start : Float32} (hr : r = changes.foldl Change.apply (Reveal.new c duration))
    (hstart : start.isFinite = true) (hvisible : ∀ t, (r.visibilityAt t start).isNaN = false)
    (index length : Nat) (step : Float32) :
    (Scalar.zero < step → (r.samples start step).length ≤ Reveal.maxScanFrames + 1
        ∧ (r.samples start step).Pairwise (· ≤ ·)
        ∧ (∀ t ∈ r.samples start step, start ≤ t ∧ t ≤ start + r.duration)
        ∧ (r.samples start step).getLast? = some (start + r.duration))
      ∧ (∀ t, r.timeFor? index start length step = some t →
          ∃ before after, r.samples start step = before ++ t :: after
            ∧ r.Shows start length index t ∧ ∀ s ∈ before, ¬r.Shows start length index s)
      ∧ (r.timeFor? index start length step = none ↔ length < index ∨ ¬Scalar.zero < step
          ∨ ∀ t ∈ r.samples start step, ¬r.Shows start length index t)
      ∧ (Scalar.zero < step → 1 ≤ index → index ≤ length →
          index ≤ r.indexAt (start + r.duration) start length →
          ∃ t, r.timeFor? index start length step = some t)
      ∧ ∀ (clip : Clip Float32) (t : Float32), clip.revealTime? index step = some t →
          index ≤ clip.visibleChars t := by
  have hfits : r.FitsRounded := hr ▸ (Reveal.fits_new c duration).foldl changes
  refine ⟨fun hstep => ?_, fun t => Reveal.exists_before_of_timeFor? hvisible,
    Reveal.timeFor?_eq_none_iff hvisible, Reveal.exists_timeFor?_of_le hvisible,
    fun clip t => Clip.le_visibleChars⟩
  obtain ⟨hpairwise, hbounds⟩ := Reveal.samples_spec hfits.duration hstep hstart
  refine ⟨?_, hpairwise, hbounds, r.getLast?_samples start step⟩
  rw [Reveal.samples, List.length_map, List.length_range]
  exact Nat.succ_le_succ (r.lastFrame_le step)

/-- A curve all of whose segments are steps has no undefined values. -/
theorem Curve.isNaN_evaluate_of_steps {c : Curve Float32}
    (hsteps : ∀ k ∈ c.keys, k.value.isNaN = false ∧ k.outTangent.isFinite = false) (x : Float32) :
    (c.evaluate x).isNaN = false := by
  refine evaluate_ind (P := fun v => v.isNaN = false) isNaN_zero (fun k hk => (hsteps k hk).1)
    fun a ha b hb => ?_
  by_cases hlength : b.time - a.time ≤ Scalar.zero
  · rw [Keyframe.between, if_pos hlength]
    exact (hsteps b hb).1
  · rw [Keyframe.between_step hlength (Keyframe.rises?_of_slope (.inl (hsteps a ha).2))]
    exact (hsteps a ha).1

/-- A line that shows at once, half way through what an offset leaves, shows in a frame between. -/
theorem timeFor?_first_offset :
    let c : Curve Float32 :=
      ⟨[⟨0, 0, 0, Float32.ofBits 0x7F800000⟩, ⟨1 / 2, 1, 0, Float32.ofBits 0x7F800000⟩]⟩
    let r := [Change.startOffset (1 / 2)].foldl Change.apply (Reveal.new c 1)
    Float32.isFinite 0 = true ∧ (∀ t, (r.visibilityAt t 0).isNaN = false)
      ∧ r.timeFor? 0 0 4 (1 / 4) = some (3 / 4)
      ∧ ∃ before after, r.samples 0 (1 / 4) = before ++ 3 / 4 :: after
        ∧ r.Shows 0 4 0 (3 / 4) ∧ ∀ s ∈ before, ¬r.Shows 0 4 0 s := by
  intro c r
  have hfinite : Float32.isFinite 0 = true := by decide
  have hvisible : ∀ t, (r.visibilityAt t 0).isNaN = false := fun t =>
    (exact_clamp (Curve.isNaN_evaluate_of_steps (c := c) (by decide +kernel) _)).1
  have hfound : r.timeFor? 0 0 4 (1 / 4) = some (3 / 4) := by decide +kernel
  obtain ⟨-, hfirst, -⟩ :=
    timeFor?_first c 1 [Change.startOffset (1 / 2)] rfl hfinite hvisible 0 4 (1 / 4)
  exact ⟨hfinite, hvisible, hfound, hfirst _ hfound⟩

end BranchingDialogue
