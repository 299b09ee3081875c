import BranchingDialogue.Proofs.Reveal.Pausing

/-!
# Reveals that only move forward

A line that shows more and more of itself goes on to do so when pauses are put into its reveal: they
put things off, but nothing comes before what it came after (`Holding.monotone`). At the end of its
time it shows as a whole, since pauses take no more than the time by which the curve has been
compressed (`paced_of_applyPauses`).

From the interval between the offsets this carries over to times (`forward_of_paced`): the number of
visible characters never falls, ends at their count, and stands still for each pause for at least as
long as it lasts. Reveals at constant speed are of this kind (`spans_steady`).
-/

namespace BranchingDialogue

/-! ## Holds keep the order -/

section Order

variable {holds : List (ℚ × ℚ)} {f F : ℚ → ℚ}

/-- What is held at a time and before it lies before everything that comes later. -/
theorem leadTime_add_stayTime_le (hnonneg : ∀ hold ∈ holds, 0 ≤ hold.2) {x x' : ℚ} (h : x < x') :
    leadTime holds x + stayTime holds x ≤ leadTime holds x' := by
  rw [leadTime, stayTime, leadTime, ← List.sum_map_add]
  refine List.sum_le_sum fun hold hmem => ?_
  have hlength := hnonneg hold hmem
  rcases lt_trichotomy hold.1 x with hx | hx | hx
  · rw [if_pos hx, if_neg hx.ne, if_pos (hx.trans h), add_zero]
  · rw [if_neg hx.not_lt, if_pos hx, if_pos (hx ▸ h), zero_add]
  · rw [if_neg hx.not_gt, if_neg hx.ne', add_zero]
    split
    · exact hlength
    · exact le_rfl

theorem leadTime_le_sum (hnonneg : ∀ hold ∈ holds, 0 ≤ hold.2) (x : ℚ) :
    leadTime holds x ≤ (holds.map (·.2)).sum := by
  refine List.sum_le_sum fun hold hmem => ?_
  have hlength := hnonneg hold hmem
  split
  · exact le_rfl
  · exact hlength

/-- What is held at a time and before it is part of what is held at all. -/
theorem leadTime_add_stayTime_le_sum (hnonneg : ∀ hold ∈ holds, 0 ≤ hold.2) (x : ℚ) :
    leadTime holds x + stayTime holds x ≤ (holds.map (·.2)).sum :=
  (leadTime_add_stayTime_le hnonneg (lt_add_one x)).trans (leadTime_le_sum hnonneg (x + 1))

/-- A hold is part of what is held where it begins. -/
theorem le_stayTime (hnonneg : ∀ hold ∈ holds, 0 ≤ hold.2) {hold : ℚ × ℚ} (hmem : hold ∈ holds) :
    hold.2 ≤ stayTime holds hold.1 := by
  have hterm : (if hold.1 = hold.1 then hold.2 else 0)
      ∈ holds.map fun h => if h.1 = hold.1 then h.2 else 0 :=
    List.mem_map.2 ⟨hold, hmem, rfl⟩
  rw [if_pos rfl] at hterm
  refine List.single_le_sum (fun y hy => ?_) _ hterm
  obtain ⟨other, hother, rfl⟩ := List.mem_map.1 hy
  split
  · exact hnonneg other hother
  · exact le_rfl

/-- Every value with holds is one without, of a time whose hold or place this is. -/
theorem Holding.exists_place (h : Holding holds f F) (hnonneg : ∀ hold ∈ holds, 0 ≤ hold.2)
    (y : ℚ) :
    ∃ x, x + leadTime holds x ≤ y ∧ y ≤ x + leadTime holds x + stayTime holds x ∧ F y = f x := by
  rcases moves_or_stays hnonneg y with ⟨x, rfl⟩ | ⟨t, hty, hyt⟩
  · exact ⟨x, le_rfl, le_add_of_nonneg_right (stayTime_nonneg hnonneg x), h.moves x⟩
  · exact ⟨t, hty, hyt, h.stays t y hty hyt⟩

/-- **Holds let nothing come before what it came after.** -/
theorem Holding.monotone (h : Holding holds f F) (hf : Monotone f)
    (hnonneg : ∀ hold ∈ holds, 0 ≤ hold.2) : Monotone F := by
  intro y y' hy
  obtain ⟨x, hxy, -, hFx⟩ := h.exists_place hnonneg y
  obtain ⟨x', -, hyx', hFx'⟩ := h.exists_place hnonneg y'
  rw [hFx, hFx']
  refine hf (not_lt.1 fun hlt => ?_)
  have hbefore := leadTime_add_stayTime_le hnonneg hlt
  linarith

end Order

/-! ## Constant speed -/

/-- The curve at constant speed, as a function. -/
theorem spans_steady :
    Curve.Spans (.line Scalar.zero Scalar.zero Scalar.one Scalar.one) (fun x => max 0 (min 1 x))
      0 1 := by
  have hkeys : (Curve.line Scalar.zero Scalar.zero Scalar.one Scalar.one : Curve ℚ)
      = ⟨[⟨0, 0, 1, 1⟩, ⟨1, 1, 1, 1⟩]⟩ := by
    simp [Curve.line]
  rw [hkeys]
  have hline : (⟨0, 0, 1, 0, 0⟩ : Cubic).Joins ⟨0, 0, 1, 1⟩ ⟨1, 1, 1, 1⟩ := by
    constructor <;> simp [Cubic.value, Cubic.slope]
  refine ⟨⟨List.isChain_pair.2 ⟨zero_lt_one, ?_⟩, ?_, ?_⟩, rfl, rfl⟩
  · intro x hx hx'
    have hx : 0 ≤ x := hx
    have hx' : x ≤ 1 := hx'
    rw [hline.between zero_lt_one, min_eq_right hx', max_eq_right hx]
    simp [Cubic.value]
  · intro first hfirst x hx
    cases hfirst
    have hx : x ≤ 0 := hx
    rw [min_eq_right (hx.trans zero_le_one), max_eq_left hx]
  · intro last hlast x hx
    cases hlast
    have hx : 1 ≤ x := hx
    rw [min_eq_left hx, max_eq_right zero_le_one]
    rfl

theorem monotone_steady : Monotone fun x : ℚ => max 0 (min 1 x) := fun _ _ h =>
  max_le_max_left 0 (min_le_min_left 1 h)

namespace Reveal

variable {r : Reveal ℚ} {pauses : List (Pause ℚ)} {length : Nat} {f : ℚ → ℚ} {start t x : ℚ}

/-! ## Offsets -/

/-- The offsets lie in the duration, one after the other. -/
structure Fits (r : Reveal ℚ) : Prop where
  startOffset : 0 ≤ r.startOffset
  endOffset : 0 ≤ r.endOffset
  sum_le : r.startOffset + r.endOffset ≤ r.duration

theorem Fits.effectiveDuration_nonneg (h : r.Fits) : 0 ≤ r.effectiveDuration := by
  have hsum := h.sum_le
  rw [effectiveDuration]
  linarith

theorem fitOffset_mem {wanted other duration : ℚ} (h : other ≤ duration) :
    0 ≤ fitOffset wanted other duration ∧ fitOffset wanted other duration + other ≤ duration := by
  have hsettled : fitOffset wanted other duration
      = max (min (max wanted 0) (duration - other)) 0
      ∨ fitOffset wanted other duration = 0 := by
    simp only [fitOffset, max_exact, min_exact, zero_exact, settle_exact]
    split
    · exact .inl rfl
    · exact .inr rfl
  rcases hsettled with heq | heq <;> rw [heq]
  · refine ⟨le_max_right _ _, ?_⟩
    have hle : max (min (max wanted 0) (duration - other)) 0 ≤ duration - other :=
      max_le (min_le_right _ _) (by linarith)
    linarith
  · exact ⟨le_rfl, by linarith⟩

theorem duration_new (c : Curve ℚ) {duration : ℚ} (h : 0 ≤ duration) :
    (new c duration).duration = duration := by
  rw [new, Scalar.finiteOrZero, isFinite_exact, if_pos rfl, max_exact, zero_exact, max_eq_left h]

/-- Offsets that are set fit into the duration, whatever they were meant to be. -/
theorem fits_withOffsets (c : Curve ℚ) {duration : ℚ} (h : 0 ≤ duration) (first last : ℚ) :
    ((new c duration).withOffsets first last).Fits := by
  have hend : (new c duration).endOffset = 0 := zero_exact
  have hroom : (0 : ℚ) ≤ (new c duration).duration := by
    rw [duration_new c h]
    exact h
  obtain ⟨hstart, hle⟩ : 0 ≤ fitOffset first 0 (new c duration).duration
      ∧ fitOffset first 0 (new c duration).duration + 0 ≤ (new c duration).duration :=
    fitOffset_mem hroom
  rw [add_zero] at hle
  obtain ⟨hlast, hsum⟩ : 0 ≤ fitOffset last _ (new c duration).duration
      ∧ fitOffset last _ (new c duration).duration + _ ≤ (new c duration).duration :=
    fitOffset_mem hle
  refine ⟨?_, ?_, ?_⟩ <;> simp only [withOffsets, setStartOffset, setEndOffset, hend]
  · exact hstart
  · exact hlast
  · rw [add_comm]
    exact hsum

/-! ## The curve in use -/

/-- What a curve in use has to do for a line with pauses: never to fall, to be at its end when the
interval is over, and to stand still for each pause. -/
structure Paced (r : Reveal ℚ) (pauses : List (Pause ℚ)) : Prop where
  forward : Monotone r.inUse.evaluate
  whole : 1 ≤ r.inUse.evaluate 1
  waits : ∀ p ∈ pauses, 0 < p.seconds → 0 < r.effectiveDuration ∧ ∃ x₀ x₁, 0 ≤ x₀ ∧ x₁ ≤ 1
    ∧ p.seconds ≤ r.effectiveDuration * (x₁ - x₀)
    ∧ ∀ x, x₀ ≤ x → x ≤ x₁ → r.inUse.evaluate x = r.inUse.evaluate x₀

/-- Pauses are accepted only where there is more time than they take. -/
theorem sum_lt_of_pausedCurve {c : Curve ℚ} (hne : pauses ≠ [])
    (h : r.pausedCurve pauses length = .ok c) :
    0 < r.effectiveDuration ∧ (pauses.map (·.seconds)).sum < r.effectiveDuration := by
  have hempty : pauses.isEmpty = false := by
    rw [← Bool.not_eq_true, List.isEmpty_iff]
    exact hne
  simp only [pausedCurve, hempty, sum_exact, zero_exact, Bool.false_eq_true, if_false] at h
  split at h
  · cases h
  · next hE =>
    split at h
    · cases h
    · next hsum => exact ⟨not_le.1 hE, not_le.1 hsum⟩

/-- Pauses that are accepted change the curve in use and nothing else. -/
theorem exists_inUse_of_applyPauses {r' : Reveal ℚ}
    (h : r.applyPauses pauses length = (r', none)) :
    ∃ c, r.pausedCurve pauses length = .ok c ∧ r' = { r with inUse := c } := by
  rw [applyPauses] at h
  split at h
  · next c hpaused =>
    cases h
    exact ⟨c, hpaused, rfl⟩
  · cases h

/-- The compressed curve and the pauses together take the whole interval. -/
theorem remainder_add_sum (hE : 0 < r.effectiveDuration) (pauses : List (Pause ℚ))
    (position : Pause ℚ → ℚ) :
    r.remainder pauses + ((r.pauseHolds position pauses).map (·.2)).sum = 1 := by
  have hholds : ((r.pauseHolds position pauses).map (·.2)).sum
      = (pauses.map (·.seconds)).sum / r.effectiveDuration := by
    rw [pauseHolds, List.map_map]
    simp only [Function.comp_def, div_eq_mul_inv, List.sum_map_mul_right]
  rw [hholds, remainder, ← add_div, sub_add_cancel, div_self hE.ne']

/-- **Pauses that are accepted leave a reveal that moves forward**: the curve in use does what it has
to, if the authored curve never falls and is at its end when the interval is over. -/
theorem paced_of_applyPauses {r' : Reveal ℚ} (hauthored : r.authored.Spans f 0 1)
    (hf : Monotone f) (hone : 1 ≤ f 1) (hpos : ∀ p ∈ pauses, 0 ≤ p.seconds)
    (h : r.applyPauses pauses length = (r', none)) : r'.Paced pauses := by
  obtain ⟨c, hpaused, rfl⟩ := exists_inUse_of_applyPauses h
  by_cases hne : pauses = []
  · subst hne
    cases hpaused
    have heval : r.authored.evaluate = f := funext hauthored.evaluate
    refine ⟨heval ▸ hf, ?_, fun p hp => absurd hp List.not_mem_nil⟩
    rw [heval]
    exact hone
  · obtain ⟨hE, hsum⟩ := sum_lt_of_pausedCurve hne hpaused
    obtain ⟨compressed, run, position, hscaled, hposition, hrun, hlaw, -⟩ :=
      exists_paused hauthored hE hpos hsum length
    rw [hpaused] at hrun
    cases hrun
    have hremainder := remainder_pos hE hsum
    have htotal := remainder_add_sum hE pauses position
    have hnonneg : ∀ hold ∈ r.pauseHolds position pauses, 0 ≤ hold.2 := by
      intro hold hmem
      obtain ⟨p, hp, rfl⟩ := List.mem_map.1 hmem
      exact div_nonneg (hpos p hp) hE.le
    have hmonotone : Monotone c.evaluate := by
      refine hlaw.monotone (fun x y hxy => ?_) hnonneg
      exact hf (div_le_div_of_nonneg_right hxy hremainder.le)
    refine ⟨hmonotone, ?_, fun p hp hseconds => ⟨hE, ?_⟩⟩
    · -- The end of the compressed curve comes no later than the end of the interval.
      have hend := hlaw.moves (r.remainder pauses)
      rw [div_self hremainder.ne'] at hend
      have hlead := leadTime_le_sum hnonneg (r.remainder pauses)
      have hle := hmonotone
        (show r.remainder pauses + leadTime _ (r.remainder pauses) ≤ 1 by linarith)
      exact hone.trans (hend ▸ hle)
    · -- The pause begins on the compressed curve, and what is held there includes it.
      have hwithin : 0 ≤ position p ∧ position p ≤ r.remainder pauses := by
        rw [scaled_eq_ok hremainder] at hscaled
        cases hscaled
        obtain ⟨t, ht, hstart, hstop⟩ :=
          exists_position (hauthored.stretched hremainder) (pauseTarget p length)
        rw [hposition p] at ht
        cases ht
        rw [zero_mul] at hstart
        rw [one_mul] at hstop
        exact ⟨hstart, hstop⟩
      have hlead := leadTime_nonneg hnonneg (position p)
      have hheld := leadTime_add_stayTime_le_sum hnonneg (position p)
      have hhold : (position p, p.seconds / r.effectiveDuration)
          ∈ r.pauseHolds position pauses := List.mem_map_of_mem hp
      have hstay := le_stayTime hnonneg hhold
      refine ⟨position p + leadTime (r.pauseHolds position pauses) (position p),
        position p + leadTime (r.pauseHolds position pauses) (position p)
          + stayTime (r.pauseHolds position pauses) (position p), ?_, ?_, ?_, ?_⟩
      · linarith
      · linarith
      · rw [div_le_iff₀ hE] at hstay
        have hE' : ({ r with inUse := c } : Reveal ℚ).effectiveDuration
            = r.effectiveDuration := rfl
        rw [hE', add_sub_cancel_left, mul_comm]
        exact hstay
      · intro x hx hx'
        have hfirst := hlaw.stays (position p) _ le_rfl
          (le_add_of_nonneg_right (stayTime_nonneg hnonneg (position p)))
        rw [hlaw.stays (position p) x hx hx', hfirst]

/-! ## Times -/

theorem intervalAt_of_pos (hE : 0 < r.effectiveDuration) (t start : ℚ) :
    r.intervalAt t start = max 0 (min 1 ((t - start - r.startOffset) / r.effectiveDuration)) := by
  simp only [intervalAt, zero_exact, one_exact, if_neg (not_le.2 hE), isNaN_exact,
    Bool.false_eq_true, if_false, clamp_exact _ 0 1 zero_le_one]

theorem intervalAt_of_nonpos (hE : r.effectiveDuration ≤ 0) (t start : ℚ) :
    r.intervalAt t start = if 0 ≤ t - start - r.startOffset then 1 else 0 := by
  simp only [intervalAt, zero_exact, one_exact, if_pos hE]

/-- The interval is passed through in one direction. -/
theorem monotone_intervalAt (r : Reveal ℚ) (start : ℚ) :
    Monotone fun t => r.intervalAt t start := by
  intro t t' ht
  rcases le_or_gt r.effectiveDuration 0 with hE | hE
  · simp only [intervalAt_of_nonpos hE]
    split
    · next h => rw [if_pos (by linarith)]
    · split
      · exact zero_le_one
      · exact le_rfl
  · simp only [intervalAt_of_pos hE]
    refine max_le_max_left 0 (min_le_min_left 1 ?_)
    exact div_le_div_of_nonneg_right (by linarith) hE.le

/-- When the duration is over, the interval has been passed through. -/
theorem intervalAt_of_end_le (h : r.Fits) (ht : start + r.duration ≤ t) :
    r.intervalAt t start = 1 := by
  have helapsed : r.effectiveDuration ≤ t - start - r.startOffset := by
    have hend := h.endOffset
    rw [effectiveDuration]
    linarith
  rcases le_or_gt r.effectiveDuration 0 with hE | hE
  · rw [intervalAt_of_nonpos hE, if_pos (h.effectiveDuration_nonneg.trans helapsed)]
  · rw [intervalAt_of_pos hE, min_eq_left ((one_le_div hE).2 helapsed), max_eq_right zero_le_one]

/-- Each place of the interval has its time. -/
theorem intervalAt_place (hE : 0 < r.effectiveDuration) (h₀ : 0 ≤ x) (h₁ : x ≤ 1) :
    r.intervalAt (start + r.startOffset + r.effectiveDuration * x) start = x := by
  have helapsed : start + r.startOffset + r.effectiveDuration * x - start - r.startOffset
      = r.effectiveDuration * x := by ring
  rw [intervalAt_of_pos hE, helapsed, mul_div_cancel_left₀ x hE.ne', min_eq_right h₁,
    max_eq_right h₀]

/-- What part of a line is visible, as a number of its characters. -/
theorem indexAt_eq (r : Reveal ℚ) (t start : ℚ) (length : Nat) :
    r.indexAt t start length
      = ⌊max 0 (min 1 (r.inUse.evaluate (r.intervalAt t start))) * length + 1 / 2⌋.toNat := by
  rw [indexAt, visibilityAt, zero_exact, one_exact, clamp_exact _ 0 1 zero_le_one, ofNat_exact]
  rfl

/-- **A paced reveal moves forward, shows the whole line and waits.** At no time fewer characters are
visible than before, never more than there are, and all of them when the duration is over; and for
each pause there is a stretch of time of at least its length in which none is added. -/
theorem forward_of_paced (hfits : r.Fits) (h : r.Paced pauses) (start : ℚ) (length : Nat) :
    Monotone (fun t => r.indexAt t start length)
      ∧ (∀ t, r.indexAt t start length ≤ length)
      ∧ (∀ t, start + r.duration ≤ t → r.indexAt t start length = length)
      ∧ ∀ p ∈ pauses, 0 < p.seconds →
          ∃ t₀ t₁, start ≤ t₀ ∧ t₁ ≤ start + r.duration ∧ p.seconds ≤ t₁ - t₀
            ∧ ∀ t, t₀ ≤ t → t ≤ t₁ →
                r.indexAt t start length = r.indexAt t₀ start length := by
  have hrounded : ∀ v : ℚ, v ≤ 1 → ⌊v * length + 1 / 2⌋.toNat ≤ length := by
    intro v hv
    have hfloor : ⌊v * length + 1 / 2⌋ ≤ (length : Int) := by
      have hproduct : v * length ≤ 1 * length :=
        mul_le_mul_of_nonneg_right hv (Nat.cast_nonneg length)
      have hlt : v * length + 1 / 2 < ((length : Int) : ℚ) + 1 := by
        push_cast
        linarith
      exact Int.lt_add_one_iff.1 (Int.floor_lt.2 (by push_cast at hlt ⊢; exact hlt))
    omega
  refine ⟨fun t t' ht => ?_, fun t => ?_, fun t ht => ?_, fun p hp hseconds => ?_⟩
  · simp only [indexAt_eq]
    have hpart := h.forward (monotone_intervalAt r start ht)
    refine Int.toNat_le_toNat (Int.floor_le_floor ?_)
    have hclamped := max_le_max_left 0 (min_le_min_left 1 hpart)
    exact add_le_add_left (mul_le_mul_of_nonneg_right hclamped (Nat.cast_nonneg length)) _
  · rw [indexAt_eq]
    exact hrounded _ (max_le zero_le_one (min_le_left _ _))
  · rw [indexAt_eq, intervalAt_of_end_le hfits ht, min_eq_left h.whole, max_eq_right zero_le_one,
      one_mul]
    have hfloor : ⌊(length : ℚ) + 1 / 2⌋ = (length : Int) := by
      rw [Int.floor_eq_iff]
      push_cast
      constructor <;> linarith
    rw [hfloor, Int.toNat_natCast]
  · obtain ⟨hE, x₀, x₁, h₀, h₁, hlength, hstands⟩ := h.waits p hp hseconds
    have hpositive : 0 < x₁ - x₀ := by
      by_contra hle
      have hproduct := mul_nonpos_of_nonneg_of_nonpos hE.le (not_lt.1 hle)
      linarith
    refine ⟨start + r.startOffset + r.effectiveDuration * x₀,
      start + r.startOffset + r.effectiveDuration * x₁, ?_, ?_, ?_, ?_⟩
    · have hfirst := hfits.startOffset
      have hplace := mul_nonneg hE.le h₀
      linarith
    · have hlast := hfits.endOffset
      have hplace := mul_le_mul_of_nonneg_left h₁ hE.le
      have hduration : r.effectiveDuration = r.duration - r.startOffset - r.endOffset := rfl
      linarith
    · have hdistance : start + r.startOffset + r.effectiveDuration * x₁
          - (start + r.startOffset + r.effectiveDuration * x₀)
          = r.effectiveDuration * (x₁ - x₀) := by ring
      rw [hdistance]
      exact hlength
    · intro t ht ht'
      -- A time in the stretch is that of a place between the two.
      obtain ⟨x, rfl⟩ : ∃ x, t = start + r.startOffset + r.effectiveDuration * x :=
        ⟨(t - start - r.startOffset) / r.effectiveDuration, by
          rw [mul_div_cancel₀ _ hE.ne']
          ring⟩
      have hx₀ : x₀ ≤ x := le_of_mul_le_mul_left (by linarith) hE
      have hx₁ : x ≤ x₁ := le_of_mul_le_mul_left (by linarith) hE
      rw [indexAt_eq, indexAt_eq, intervalAt_place hE (h₀.trans hx₀) (hx₁.trans h₁),
        intervalAt_place hE h₀ (by linarith), hstands x hx₀ hx₁]

end Reveal

end BranchingDialogue
