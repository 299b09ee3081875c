import BranchingDialogue.Proofs.Curve.Change
import Mathlib

/-!
# Curves interpolate their keys

In exact arithmetic a curve is, between two neighbouring keys, the only polynomial of degree at most
three that has their values and slopes, and its derivative is the derivative of that polynomial.
Outside the keys it stays at the value of the first or the last one, without a slope.

A polynomial with the values and slopes of two keys is told by them since the difference of two such
polynomials has two double roots (`eq_zero_of_double_roots`). Since neighbouring segments meet in the
value of a key, the curve is continuous (`Traces.continuous`).

Main result: `evaluate_interpolates`.
-/

namespace BranchingDialogue

open Polynomial

/-- A polynomial that joins two keys: it has degree at most three, and their values and slopes. -/
structure Interpolates (p : ℚ[X]) (a b : Keyframe ℚ) : Prop where
  degree : p.natDegree ≤ 3
  leaves : p.eval a.time = a.value
  leavesAt : p.derivative.eval a.time = a.outTangent
  arrives : p.eval b.time = b.value
  arrivesAt : p.derivative.eval b.time = b.inTangent

variable {keys : List (Keyframe ℚ)} {f : ℚ → ℚ} {a b : Keyframe ℚ} {p q : ℚ[X]}

/-! ## Cubics as polynomials -/

namespace Cubic

/-- The polynomial with the coefficients of a cubic around its center. -/
noncomputable def polynomial (p : Cubic) : ℚ[X] :=
  C p.c₀ + C p.c₁ * (X - C p.center) + C p.c₂ * (X - C p.center) ^ 2
    + C p.c₃ * (X - C p.center) ^ 3

theorem eval_polynomial (p : Cubic) (x : ℚ) : p.polynomial.eval x = p.value x := by
  simp only [polynomial, value, eval_add, eval_mul, eval_pow, eval_sub, eval_C, eval_X]

theorem eval_derivative_polynomial (p : Cubic) (x : ℚ) :
    p.polynomial.derivative.eval x = p.slope x := by
  simp only [polynomial, slope, derivative_add, derivative_C_mul, derivative_C, derivative_X_sub_C_pow,
    derivative_X_sub_C, eval_add, eval_mul, eval_pow, eval_sub, eval_C, eval_X, eval_one, eval_zero]
  ring

theorem natDegree_polynomial_le (p : Cubic) : p.polynomial.natDegree ≤ 3 := by
  unfold polynomial
  compute_degree

theorem Joins.interpolates {p : Cubic} (h : p.Joins a b) : Interpolates p.polynomial a b := by
  refine ⟨p.natDegree_polynomial_le, ?_, ?_, ?_, ?_⟩
  · rw [eval_polynomial, h.leaves]
  · rw [eval_derivative_polynomial, h.leavesAt]
  · rw [eval_polynomial, h.arrives]
  · rw [eval_derivative_polynomial, h.arrivesAt]

end Cubic

/-! ## The polynomial between two keys -/

/-- A polynomial of degree at most three with two double roots is zero. -/
theorem eq_zero_of_double_roots {s t : ℚ} (hdegree : p.natDegree ≤ 3) (hne : s ≠ t)
    (hs : p.IsRoot s ∧ p.derivative.IsRoot s) (ht : p.IsRoot t ∧ p.derivative.IsRoot t) : p = 0 := by
  by_contra hp
  have htwice : Multiset.replicate 2 s + Multiset.replicate 2 t ≤ p.roots := by
    rw [Multiset.le_iff_count]
    intro r
    have hs' := (one_lt_rootMultiplicity_iff_isRoot hp).2 hs
    have ht' := (one_lt_rootMultiplicity_iff_isRoot hp).2 ht
    rw [Multiset.count_add, Multiset.count_replicate, Multiset.count_replicate, count_roots]
    split
    · next hrs =>
      subst hrs
      rw [if_neg hne.symm]
      exact hs'
    · split
      · next hrt =>
        subst hrt
        rw [zero_add]
        exact ht'
      · exact Nat.zero_le _
  have hcard := (Multiset.card_le_card htwice).trans (card_roots' p)
  rw [Multiset.card_add, Multiset.card_replicate, Multiset.card_replicate] at hcard
  omega

/-- Two keys at different times are joined by one polynomial only. -/
theorem Interpolates.unique (hp : Interpolates p a b) (hq : Interpolates q a b)
    (h : a.time < b.time) : p = q := by
  have hdegree : (p - q).natDegree ≤ 3 := (natDegree_sub_le p q).trans (max_le hp.degree hq.degree)
  refine sub_eq_zero.1 (eq_zero_of_double_roots hdegree h.ne ⟨?_, ?_⟩ ⟨?_, ?_⟩)
  · rw [IsRoot, eval_sub, hp.leaves, hq.leaves, sub_self]
  · rw [IsRoot, derivative_sub, eval_sub, hp.leavesAt, hq.leavesAt, sub_self]
  · rw [IsRoot, eval_sub, hp.arrives, hq.arrives, sub_self]
  · rw [IsRoot, derivative_sub, eval_sub, hp.arrivesAt, hq.arrivesAt, sub_self]

/-- The cubic between two keys is the polynomial that joins them, and its slope is the derivative of
that polynomial. -/
theorem exists_interpolates (h : a.time < b.time) :
    ∃ p, Interpolates p a b ∧ (∀ q, Interpolates q a b → q = p)
      ∧ (∀ x, a.between b x = p.eval x) ∧ ∀ x, a.slopeBetween b x = p.derivative.eval x := by
  obtain ⟨p, hp⟩ := Cubic.exists_joins h
  refine ⟨p.polynomial, hp.interpolates, fun q hq => hq.unique hp.interpolates h, fun x => ?_,
    fun x => ?_⟩
  · rw [hp.between h, p.eval_polynomial]
  · rw [hp.slopeBetween h, p.eval_derivative_polynomial]

/-! ## Continuity -/

theorem Segment.continuousOn (h : Segment f a b) : ContinuousOn f (Set.Icc a.time b.time) := by
  obtain ⟨p, -, -, hp, -⟩ := exists_interpolates h.later
  refine p.continuous.continuousOn.congr fun x hx => ?_
  rw [h.eq_between x hx.1 hx.2, hp]

/-- From a key on, a function that is cubic between the keys and constant after them is
continuous. -/
theorem continuousOn_of_isChain (h : (a :: keys).IsChain (Segment f))
    (hafter : ∀ last ∈ (a :: keys).getLast?, ∀ x, last.time ≤ x → f x = last.value) :
    ContinuousOn f (Set.Ici a.time) := by
  induction keys generalizing a with
  | nil => exact continuousOn_const.congr fun x hx => hafter a rfl x hx
  | cons b rest ih =>
    obtain ⟨hab, hrest⟩ := List.isChain_cons_cons.1 h
    rw [List.getLast?_cons_cons] at hafter
    rw [← Set.Icc_union_Ici_eq_Ici hab.later.le]
    exact hab.continuousOn.union_of_isClosed (ih hrest hafter) isClosed_Icc isClosed_Ici

theorem Traces.continuous (h : Traces f keys) (hne : keys ≠ []) : Continuous f := by
  obtain ⟨first, rest, rfl⟩ := List.exists_cons_of_ne_nil hne
  have hbefore : ContinuousOn f (Set.Iic first.time) :=
    continuousOn_const.congr fun x hx => h.before first rfl x hx
  rw [← continuousOn_univ, ← Set.Iic_union_Ici]
  exact hbefore.union_of_isClosed (continuousOn_of_isChain h.segments h.after) isClosed_Iic
    isClosed_Ici

/-! ## The slope of a curve -/

namespace Curve

/-- Inside its keys the slope of a curve is that of the segment that a time falls into. -/
theorem derivative_inside {before after : List (Keyframe ℚ)} {first : Keyframe ℚ} {x : ℚ}
    (hasc : Ascending (before ++ a :: b :: after))
    (hfirst : (before ++ a :: b :: after).head? = some first) (hstart : first.time < x)
    (ha : a.time ≤ x) (hb : x < b.time) :
    derivative (⟨before ++ a :: b :: after⟩ : Curve ℚ) x = a.slopeBetween b x := by
  have hall : ∀ k ∈ (before ++ a :: b :: after).head?, k.time < x := by
    intro k hk
    rw [hfirst] at hk
    cases hk
    exact hstart
  rw [derivative, segment?_eq hasc hall ha hb]

/-- **A curve interpolates its keys.** It is made of the given keys, in ascending order. Before the
first key and after the last one it has their values and no slope. Each time between them lies
between two neighbouring keys, and there the curve is the only polynomial of degree at most three
with the values and the slopes of these keys; its slope is the derivative of that polynomial, at a
key that of the segment which begins there. So the curve passes through all keys, and it is
continuous. -/
theorem evaluate_interpolates {c : Curve ℚ} (hkeys : ofKeys keys = .ok c) (hne : keys ≠ []) :
    c.keys.Perm keys ∧ Ascending c.keys
      ∧ (∃ first last, c.keys.head? = some first ∧ c.keys.getLast? = some last
          ∧ (∀ x ≤ first.time, c.evaluate x = first.value ∧ c.derivative x = 0)
          ∧ (∀ x, last.time ≤ x → c.evaluate x = last.value ∧ c.derivative x = 0)
          ∧ (∀ x, first.time < x → x < last.time →
              ∃ before a b after, c.keys = before ++ a :: b :: after ∧ a.time ≤ x ∧ x < b.time)
          ∧ ∀ before a b after, c.keys = before ++ a :: b :: after →
              ∃ p, Interpolates p a b ∧ (∀ q, Interpolates q a b → q = p)
                ∧ (∀ x, a.time ≤ x → x ≤ b.time → c.evaluate x = p.eval x)
                ∧ ∀ x, first.time < x → a.time ≤ x → x < b.time →
                    c.derivative x = p.derivative.eval x)
      ∧ (∀ k ∈ c.keys, c.evaluate k.time = k.value)
      ∧ Continuous c.evaluate := by
  obtain ⟨hasc, hperm⟩ := ofKeys_eq_ok hkeys
  have hne' : c.keys ≠ [] := fun hnil => hne (by rwa [hnil, List.nil_perm] at hperm)
  have htraces : Traces c.evaluate c.keys := traces_evaluate hasc hne'
  have hfirst := List.head?_eq_some_head hne'
  have hlast := List.getLast?_eq_some_getLast hne'
  refine ⟨hperm, hasc, ⟨c.keys.head hne', c.keys.getLast hne', hfirst, hlast, ?_, ?_, ?_, ?_⟩, ?_,
    htraces.continuous hne'⟩
  · exact fun x hx => ⟨htraces.before _ hfirst x hx,
      (derivative_outside hfirst hlast (.inl hx)).trans zero_exact⟩
  · exact fun x hx => ⟨htraces.after _ hlast x hx,
      (derivative_outside hfirst hlast (.inr hx)).trans zero_exact⟩
  · exact fun x hstart hend => hasc.exists_neighbours hfirst hstart hlast hend
  · intro before a b after hsplit
    rw [hsplit] at htraces
    have hab := htraces.segment
    obtain ⟨p, hp, hunique, hbetween, hslope⟩ := exists_interpolates hab.later
    refine ⟨p, hp, hunique, fun x hax hxb => ?_, fun x hstart hax hxb => ?_⟩
    · rw [hab.eq_between x hax hxb, hbetween]
    · obtain ⟨cs⟩ := c
      subst hsplit
      rw [derivative_inside hasc hfirst hstart hax hxb, hslope]
  · intro k hk
    obtain ⟨before, after, hsplit⟩ := List.append_of_mem hk
    rw [hsplit] at htraces
    exact htraces.eq_value

/-- Three keys at uneven distances: from the second one to the third one there is one polynomial. -/
theorem evaluate_interpolates_uneven :
    ∃ c : Curve ℚ, ofKeys [⟨0, 0, 7, 2⟩, ⟨1, 4, 0, 3⟩, ⟨3, 1, -1, 5⟩] = .ok c
      ∧ (∀ k ∈ c.keys, c.evaluate k.time = k.value) ∧ Continuous c.evaluate
      ∧ c.evaluate 2 = 7 / 2 ∧ c.derivative 1 = 3 := by
  have hkeys : ofKeys [⟨0, 0, 7, 2⟩, ⟨1, 4, 0, 3⟩, ⟨3, 1, -1, 5⟩]
      = .ok (⟨[⟨0, 0, 7, 2⟩, ⟨1, 4, 0, 3⟩, ⟨3, 1, -1, 5⟩]⟩ : Curve ℚ) :=
    ofKeys_of_ascending (by simp [Ascending])
  obtain ⟨-, -, ⟨first, -, hfirst, -, -, -, -, hsegments⟩, hthrough, hcontinuous⟩ :=
    evaluate_interpolates hkeys (List.cons_ne_nil _ _)
  cases hfirst
  obtain ⟨p, -, hunique, hvalue, hslope⟩ := hsegments [⟨0, 0, 7, 2⟩] ⟨1, 4, 0, 3⟩ ⟨3, 1, -1, 5⟩ [] rfl
  have hjoins : (⟨1, 4, 3, -19 / 4, 5 / 4⟩ : Cubic).Joins ⟨1, 4, 0, 3⟩ ⟨3, 1, -1, 5⟩ := by
    constructor <;> norm_num [Cubic.value, Cubic.slope]
  obtain rfl := hunique _ hjoins.interpolates
  refine ⟨_, hkeys, hthrough, hcontinuous, ?_, ?_⟩
  · rw [hvalue 2 (by norm_num) (by norm_num), Cubic.eval_polynomial]
    norm_num [Cubic.value]
  · rw [hslope 1 (by norm_num) le_rfl (by norm_num), Cubic.eval_derivative_polynomial]
    norm_num [Cubic.slope]

end Curve

end BranchingDialogue
