import BranchingDialogue.Proofs.Orbit
import BranchingDialogue.Proofs.Rounding.Single
import BranchingDialogue.Reveal.Pauses

/-!
# Offsets fit into their duration

In machine numbers the difference of two times and the sum of two times are rounded apart, so an
offset cut to what another one leaves of a duration may still be too long beside it. That is why it
is asked for the sum, and goes down float by float until it fits. It does so at zero at the latest:
a float that is not longer than the duration is a bound that rounding does not exceed.

Main results:
- `length_fitOffset`: an offset that is fitted is an ordinary time and fits;
- `exists_orbit_lower`: whatever it is fitted to, going down comes to an end there;
- `FitsRounded.apply`: no change of a reveal, whatever it is given, makes the offsets longer than
  fits;
- `fits_of_changes`: so they fit after all changes.
-/

namespace BranchingDialogue

open Binary32 Rounding

/-- An ordinary time that is not negative. -/
structure IsLength (x : Float32) : Prop where
  isFinite : x.isFinite = true
  nonneg : Scalar.zero ≤ x

namespace Binary32

variable {x y b : Float32}

theorem isLength_iff : IsLength x ↔ x.isFinite = true ∧ 0 ≤ exact x := by
  constructor
  · intro h
    refine ⟨h.isFinite, ?_⟩
    rw [← exact_zero, ← le_iff isNaN_zero (isNaN_of_isFinite h.isFinite)]
    exact h.nonneg
  · intro h
    refine ⟨h.1, ?_⟩
    rw [le_iff isNaN_zero (isNaN_of_isFinite h.1), exact_zero]
    exact h.2

end Binary32

theorem IsLength.exact_nonneg {x : Float32} (h : IsLength x) : 0 ≤ exact x := (isLength_iff.1 h).2

theorem IsLength.isNaN {x : Float32} (h : IsLength x) : x.isNaN = false :=
  isNaN_of_isFinite h.isFinite

namespace Binary32

variable {x y b : Float32}

theorem isLength_zero : IsLength Scalar.zero := isLength_iff.2 ⟨rfl, le_refl _⟩

/-- What lies between zero and a length is a length. -/
theorem isLength_of_le (hx : x.isNaN = false) (hnonneg : 0 ≤ exact x) (hb : b.isFinite = true)
    (hle : exact x ≤ exact b) : IsLength x :=
  isLength_iff.2 ⟨isFinite_of_between hx isFinite_zero hnonneg hb hle, hnonneg⟩

/-- The larger of two floats is not undefined unless the second one is. -/
theorem max_cases (x : Float32) (hb : b.isNaN = false) :
    (Scalar.max x b).isNaN = false ∧ exact b ≤ exact (Scalar.max x b)
      ∧ (Scalar.max x b = x ∨ Scalar.max x b = b) := by
  unfold Scalar.max
  split
  · exact ⟨hb, le_refl _, .inr rfl⟩
  · next hx =>
    have hx' : x.isNaN = false := Bool.eq_false_iff.2 hx
    split
    · exact ⟨hb, le_refl _, .inr rfl⟩
    · next hlt =>
      rw [lt_iff hx' hb, not_lt] at hlt
      exact ⟨hx', hlt, .inl rfl⟩

theorem min_cases (hx : x.isNaN = false) (hb : b.isNaN = false) :
    (Scalar.min x b).isNaN = false ∧ exact (Scalar.min x b) = min (exact x) (exact b) := by
  unfold Scalar.min
  split
  · next hnan => exact absurd hnan (Bool.eq_false_iff.1 hx)
  · split
    · next hlt =>
      rw [lt_iff hb hx] at hlt
      exact ⟨hb, (min_eq_right hlt.le).symm⟩
    · next hlt =>
      rw [lt_iff hb hx, not_lt] at hlt
      exact ⟨hx, (min_eq_left hlt).symm⟩

theorem isLength_finiteOrZero (x : Float32) : IsLength (Scalar.finiteOrZero x) := by
  unfold Scalar.finiteOrZero
  split
  · next hx =>
    obtain ⟨-, hle, hmax⟩ := max_cases x isNaN_zero
    have hfinite : (Scalar.max x Scalar.zero).isFinite = true := by
      rcases hmax with h | h <;> rw [h]
      · exact hx
      · exact isFinite_zero
    exact isLength_iff.2 ⟨hfinite, by rwa [exact_zero] at hle⟩
  · exact isLength_zero

/-! ## Going down float by float -/

/-- One step down, where a float is positive and not accepted. -/
def lower (ok : Float32 → Bool) (x : Float32) : Option Float32 :=
  if Scalar.zero < x ∧ ok x = false then some (.ofBits (x.toBits - 1)) else none

theorem lower_of_accepted {ok : Float32 → Bool} (h : ok x = true) : lower ok x = none := by
  unfold lower
  rw [if_neg]
  intro hnot
  rw [h] at hnot
  exact Bool.false_ne_true hnot.2.symm

theorem ofBits_zero : Float32.ofBits 0 = Scalar.zero := by decide

/-- Floats that are settled on are lengths, and accepted unless they are zero. -/
theorem settleBits_spec (ok : Float32 → Bool) {n : ℕ} (hn : n < infinityBits) :
    IsLength (settleBits ok n) ∧ (ok (settleBits ok n) = true ∨ exact (settleBits ok n) = 0) := by
  induction n with
  | zero =>
    rw [settleBits, ofBits_zero]
    exact ⟨isLength_zero, .inr exact_zero⟩
  | succ n ih =>
    have hup := upward_ofBits hn.le
    rw [settleBits]
    split
    · next hok => exact ⟨isLength_iff.2 ⟨hup.isFinite hn, hup.nonneg⟩, .inl hok⟩
    · exact ih (by omega)

/-- Going down ends where it is settled. -/
theorem exists_orbit_settleBits (ok : Float32 → Bool) {n : ℕ} (hn : n ≤ infinityBits) :
    ∃ k, orbit (lower ok) (.ofBits n.toUInt32) k = some (settleBits ok n)
      ∧ lower ok (settleBits ok n) = none := by
  induction n with
  | zero =>
    have hnot : ¬(Scalar.zero : Float32) < Scalar.zero := by
      rw [zero_lt_iff isNaN_zero, exact_zero]
      exact lt_irrefl 0
    rw [settleBits, ofBits_zero]
    exact ⟨0, congrArg some ofBits_zero, if_neg fun h => hnot h.1⟩
  | succ n ih =>
    rw [settleBits]
    split
    · next hok => exact ⟨0, rfl, lower_of_accepted hok⟩
    · next hok =>
      obtain ⟨k, hk, hend⟩ := ih (by omega)
      refine ⟨k + 1, ?_, hend⟩
      have hup := upward_ofBits hn
      have hpos : Scalar.zero < Float32.ofBits (n + 1).toUInt32 :=
        (zero_lt_iff (isNaN_eq_false_iff.2 hup.isNaN)).2 (hup.pos (by omega))
      have hbits : (n + 1).toUInt32 - 1 = n.toUInt32 := by
        show UInt32.ofNat (n + 1) - 1 = UInt32.ofNat n
        rw [UInt32.ofNat_add]
        exact UInt32.add_sub_cancel _ _
      have hstep : lower ok (.ofBits (n + 1).toUInt32) = some (.ofBits n.toUInt32) := by
        unfold lower
        rw [if_pos ⟨hpos, Bool.eq_false_iff.2 hok⟩, toBits_ofBits hn, hbits]
      rw [orbit_succ', hstep]
      exact hk

/-- What is settled on, going down from a length. -/
theorem settle_spec (ok : Float32 → Bool) (hx : IsLength x) :
    IsLength (settle ok x) ∧ (ok (settle ok x) = true ∨ exact (settle ok x) = 0) := by
  unfold settle
  split
  · next hpos =>
    have hpos' := (zero_lt_iff hx.isNaN).1 hpos
    exact settleBits_spec ok ((toBits_le_of_pos hpos').2 hx.isFinite)
  · next hpos =>
    have hnot : ¬0 < exact x := fun h => hpos ((zero_lt_iff hx.isNaN).2 h)
    exact ⟨hx, .inr (le_antisymm (not_lt.1 hnot) hx.exact_nonneg)⟩

theorem exists_orbit_settle (ok : Float32 → Bool) (hx : x.isNaN = false) :
    ∃ k, orbit (lower ok) x k = some (settle ok x) ∧ lower ok (settle ok x) = none := by
  unfold settle
  split
  · next hpos =>
    have hpos' := (zero_lt_iff hx).1 hpos
    have hbits : Float32.ofBits x.toBits.toNat.toUInt32 = x := by
      show Float32.ofBits (UInt32.ofNat x.toBits.toNat) = x
      rw [UInt32.ofNat_toNat, Float32.ofBits_toBits]
    have horbit := exists_orbit_settleBits ok (toBits_le_of_pos hpos').1
    rwa [hbits] at horbit
  · next hpos => exact ⟨0, rfl, if_neg fun h => hpos h.1⟩

end Binary32

/-! ## Fitting an offset -/

namespace Reveal

/-- Whether an offset fits beside another one. -/
def fitsBeside (other duration offset : Float32) : Bool := !decide (duration < offset + other)

/-- The offset from which a search for one that fits goes down. -/
def fitStart (wanted other duration : Float32) : Float32 :=
  Scalar.max (Scalar.min (Scalar.max wanted Scalar.zero) (duration - other)) Scalar.zero

theorem fitOffset_eq (wanted other duration : Float32) :
    fitOffset wanted other duration
      = settle (fitsBeside other duration) (fitStart wanted other duration) := rfl

/-- **Whatever an offset is fitted to, going down comes to an end**, and there it is fitted. -/
theorem exists_orbit_lower (wanted other duration : Float32) :
    ∃ k, orbit (lower (fitsBeside other duration)) (fitStart wanted other duration) k
        = some (fitOffset wanted other duration)
      ∧ lower (fitsBeside other duration) (fitOffset wanted other duration) = none :=
  exists_orbit_settle _ (max_cases _ isNaN_zero).1

variable {wanted other duration : Float32}

/-- The search begins at a length. -/
theorem isLength_fitStart (wanted : Float32) (hother : IsLength other) (hduration : IsLength duration)
    (hle : exact other ≤ exact duration) : IsLength (fitStart wanted other duration) := by
  have hdifference := nearest_sub hduration.isFinite hother.isFinite
  have hnonneg := hdifference.le_exact (b := Scalar.zero) (by rw [exact_zero]; linarith)
  have hupper := hdifference.exact_le (b := duration) (by linarith [hother.exact_nonneg])
  rw [exact_zero] at hnonneg
  obtain ⟨hwanted, hpositive, -⟩ := max_cases wanted isNaN_zero
  rw [exact_zero] at hpositive
  obtain ⟨hmin, hexact⟩ := min_cases hwanted hdifference.isNaN
  have hcut : IsLength (Scalar.min (Scalar.max wanted Scalar.zero) (duration - other)) := by
    refine isLength_of_le hmin ?_ hduration.isFinite ?_
    · rw [hexact]
      exact le_min hpositive hnonneg
    · rw [hexact]
      exact (min_le_right _ _).trans hupper
  rcases (max_cases (Scalar.min (Scalar.max wanted Scalar.zero) (duration - other)) isNaN_zero).2.2
    with h | h
  · unfold fitStart
    rwa [h]
  · unfold fitStart
    rw [h]
    exact isLength_zero

/-- **An offset that is fitted is a length and fits**, however long the wanted one is, beside an
offset that is not longer than the duration. -/
theorem length_fitOffset (wanted : Float32) (hother : IsLength other) (hduration : IsLength duration)
    (hle : exact other ≤ exact duration) :
    IsLength (fitOffset wanted other duration)
      ∧ exact (fitOffset wanted other duration + other) ≤ exact duration := by
  rw [fitOffset_eq]
  obtain ⟨hlength, hfits⟩ :=
    settle_spec (fitsBeside other duration) (isLength_fitStart wanted hother hduration hle)
  have hsum := nearest_add hlength.isFinite hother.isFinite
  refine ⟨hlength, ?_⟩
  rcases hfits with hok | hzero
  · replace hok : (!decide (duration < _ + other)) = true := hok
    rwa [Bool.not_eq_true', decide_eq_false_iff_not, lt_iff hduration.isNaN hsum.isNaN,
      not_lt] at hok
  · apply hsum.exact_le
    rwa [hzero, zero_add]

/-! ## Changes of a reveal -/

/-- The times of a reveal are lengths, and its offsets fit into the duration together. -/
structure FitsRounded (r : Reveal Float32) : Prop where
  duration : IsLength r.duration
  startOffset : IsLength r.startOffset
  endOffset : IsLength r.endOffset
  sum_le : r.startOffset + r.endOffset ≤ r.duration

variable {r : Reveal Float32}

/-- The offsets of a reveal fit if the exact numbers say so. -/
theorem FitsRounded.of_exact (hduration : IsLength r.duration) (hstart : IsLength r.startOffset)
    (hstop : IsLength r.endOffset)
    (hle : exact (r.startOffset + r.endOffset) ≤ exact r.duration) : r.FitsRounded := by
  have hsum := nearest_add hstart.isFinite hstop.isFinite
  exact ⟨hduration, hstart, hstop, (le_iff hsum.isNaN hduration.isNaN).2 hle⟩

theorem FitsRounded.exact_sum_le (h : r.FitsRounded) :
    exact (r.startOffset + r.endOffset) ≤ exact r.duration := by
  have hsum := nearest_add h.startOffset.isFinite h.endOffset.isFinite
  exact (le_iff hsum.isNaN h.duration.isNaN).1 h.sum_le

/-- Each of two offsets that fit together is not longer than the duration, since neither is longer
than their sum. -/
theorem FitsRounded.exact_startOffset_le (h : r.FitsRounded) :
    exact r.startOffset ≤ exact r.duration := by
  have hsum := nearest_add h.startOffset.isFinite h.endOffset.isFinite
  have hle := hsum.le_exact (b := r.startOffset) (by linarith [h.endOffset.exact_nonneg])
  exact hle.trans h.exact_sum_le

theorem FitsRounded.exact_endOffset_le (h : r.FitsRounded) :
    exact r.endOffset ≤ exact r.duration := by
  have hsum := nearest_add h.startOffset.isFinite h.endOffset.isFinite
  have hle := hsum.le_exact (b := r.endOffset) (by linarith [h.startOffset.exact_nonneg])
  exact hle.trans h.exact_sum_le

theorem fits_new (c : Curve Float32) (duration : Float32) : (new c duration).FitsRounded := by
  have hduration := isLength_finiteOrZero duration
  refine FitsRounded.of_exact hduration isLength_zero isLength_zero ?_
  have hsum := nearest_add (x := Scalar.zero) (y := Scalar.zero) rfl rfl
  apply hsum.exact_le
  rw [exact_zero, add_zero]
  exact hduration.exact_nonneg

theorem FitsRounded.setEndOffset (h : r.FitsRounded) (offset : Float32) :
    (r.setEndOffset offset).FitsRounded := by
  obtain ⟨hlength, hle⟩ :=
    length_fitOffset offset h.startOffset h.duration h.exact_startOffset_le
  refine FitsRounded.of_exact h.duration h.startOffset hlength ?_
  -- The sum is asked for the other way round than it is stated.
  have hsum := nearest_add hlength.isFinite h.startOffset.isFinite
  have hsum' := nearest_add h.startOffset.isFinite hlength.isFinite
  rw [add_comm] at hsum'
  exact (hsum'.exact_eq_exact hsum).trans_le hle

theorem FitsRounded.setStartOffset (h : r.FitsRounded) (offset : Float32) :
    (r.setStartOffset offset).FitsRounded := by
  obtain ⟨hlength, hle⟩ :=
    length_fitOffset offset h.endOffset h.duration h.exact_endOffset_le
  exact FitsRounded.of_exact h.duration hlength h.endOffset hle

/-- A shorter duration takes from the offset at the end first, then from the one at the start. -/
theorem FitsRounded.setDuration (h : r.FitsRounded) (duration : Float32) :
    (r.setDuration duration).FitsRounded := by
  have hduration := isLength_finiteOrZero duration
  have hsum := nearest_add h.startOffset.isFinite h.endOffset.isFinite
  unfold Reveal.setDuration
  simp only
  split
  · obtain ⟨hmin, hexact⟩ := min_cases h.startOffset.isNaN hduration.isNaN
    have hstart : IsLength (Scalar.min r.startOffset (Scalar.finiteOrZero duration)) := by
      refine isLength_of_le hmin ?_ hduration.isFinite ?_
      · rw [hexact]
        exact le_min h.startOffset.exact_nonneg hduration.exact_nonneg
      · rw [hexact]
        exact min_le_right _ _
    have hshort : exact (Scalar.min r.startOffset (Scalar.finiteOrZero duration))
        ≤ exact (Scalar.finiteOrZero duration) := by
      rw [hexact]
      exact min_le_right _ _
    obtain ⟨hlength, hle⟩ := length_fitOffset r.endOffset hstart hduration hshort
    refine FitsRounded.of_exact hduration hstart hlength ?_
    have hnew := nearest_add hlength.isFinite hstart.isFinite
    have hnew' := nearest_add hstart.isFinite hlength.isFinite
    rw [add_comm] at hnew'
    exact (hnew'.exact_eq_exact hnew).trans_le hle
  · next hnot =>
    refine FitsRounded.of_exact hduration h.startOffset h.endOffset ?_
    exact not_lt.1 fun hlt => hnot ((lt_iff hduration.isNaN hsum.isNaN).2 hlt)

end Reveal

/-- A change of a reveal. -/
inductive Change (α : Type) where
  | startOffset (x : α)
  | endOffset (x : α)
  /-- Both offsets, the one at the start first. -/
  | offsets (x y : α)
  | duration (x : α)
  | authored (c : Curve α)
  | reset
  | pauses (ps : List (Pause α)) (length : Nat)

/-- Changes a reveal; whether pauses are refused is not looked at. -/
def Change.apply {α : Type} [Scalar α] (r : Reveal α) : Change α → Reveal α
  | .startOffset x => r.setStartOffset x
  | .endOffset x => r.setEndOffset x
  | .offsets x y => r.withOffsets x y
  | .duration x => r.setDuration x
  | .authored c => r.setAuthored c
  | .reset => r.reset
  | .pauses ps length => (r.applyPauses ps length).1

/-- Pauses leave all but the curve in use as it is. -/
theorem Reveal.applyPauses_eq {α : Type} [Scalar α] (r : Reveal α) (pauses : List (Pause α))
    (length : Nat) : (r.applyPauses pauses length).1
      = { r with inUse := (r.applyPauses pauses length).1.inUse } := by
  unfold applyPauses
  split <;> rfl

/-- **Every change keeps the offsets within the duration**, whatever it is given. -/
theorem Reveal.FitsRounded.apply {r : Reveal Float32} (h : r.FitsRounded) (change : Change Float32) :
    (change.apply r).FitsRounded := by
  cases change with
  | startOffset x => exact h.setStartOffset x
  | endOffset x => exact h.setEndOffset x
  | offsets x y => exact (h.setStartOffset x).setEndOffset y
  | duration x => exact h.setDuration x
  | authored c => exact ⟨h.duration, h.startOffset, h.endOffset, h.sum_le⟩
  | reset => exact ⟨h.duration, h.startOffset, h.endOffset, h.sum_le⟩
  | pauses ps length =>
    rw [Change.apply, applyPauses_eq]
    exact ⟨h.duration, h.startOffset, h.endOffset, h.sum_le⟩

theorem Reveal.FitsRounded.foldl {r : Reveal Float32} (h : r.FitsRounded)
    (changes : List (Change Float32)) :
    (changes.foldl Change.apply r).FitsRounded := by
  induction changes generalizing r with
  | nil => exact h
  | cons change changes ih => exact ih (h.apply change)

end BranchingDialogue
