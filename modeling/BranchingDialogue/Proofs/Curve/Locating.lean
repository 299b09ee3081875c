import BranchingDialogue.Curve.Change
import Mathlib.Data.List.Chain

/-!
# Where a time falls among keys

Segments are looked up, and holds inserted, at a place that is found by halving the keys. These are the
places that are found, in any arithmetic: it is only asked of the keys on either side how they compare
with the time.
-/

namespace BranchingDialogue

/-! ## Halving -/

theorem bisectFrom_eq {p : Nat → Bool} {base size cut : Nat} (hsize : 0 < size) (hlow : base ≤ cut)
    (hhigh : cut ≤ base + size) (hp : ∀ i < base + size, p i = decide (i < cut)) :
    bisectFrom p base size = cut := by
  induction size using Nat.strongRecOn generalizing base with
  | ind size ih =>
    rw [bisectFrom]
    by_cases hone : size ≤ 1
    · rw [if_pos hone, hp base (by omega)]
      by_cases hcut : base < cut
      · rw [decide_eq_true hcut, if_pos rfl]
        omega
      · rw [decide_eq_false hcut, if_neg Bool.false_ne_true]
        omega
    · rw [if_neg hone, hp (base + size / 2) (by omega)]
      by_cases hcut : base + size / 2 < cut
      · rw [decide_eq_true hcut, if_pos rfl]
        exact ih (size - size / 2) (by omega) (by omega) (by omega) (by omega)
          fun i hi => hp i (by omega)
      · rw [decide_eq_false hcut, if_neg Bool.false_ne_true]
        exact ih (size - size / 2) (by omega) (by omega) (by omega) (by omega)
          fun i hi => hp i (by omega)

/-- Halving finds where a list changes from elements for which a test holds to others. -/
theorem bisect_append {β : Type} {p : β → Bool} {before after : List β}
    (hbefore : ∀ x ∈ before, p x = true) (hafter : ∀ x ∈ after, p x = false) :
    bisect p (before ++ after) = before.length := by
  rw [bisect]
  split
  · next h => rw [(List.append_eq_nil_iff.1 (List.isEmpty_iff.1 h)).1, List.length_nil]
  · next h =>
    have hpos : 0 < (before ++ after).length := by
      rw [List.length_pos_iff, ne_eq, ← List.isEmpty_iff]
      exact h
    refine bisectFrom_eq hpos (Nat.zero_le _) (by rw [List.length_append]; omega) fun i hi => ?_
    rw [Nat.zero_add] at hi
    rw [List.getElem?_eq_getElem hi, Option.any_some]
    by_cases hcut : i < before.length
    · rw [List.getElem_append_left hcut, decide_eq_true hcut]
      exact hbefore _ (List.getElem_mem hcut)
    · rw [List.getElem_append_right (Nat.le_of_not_lt hcut), decide_eq_false hcut]
      exact hafter _ (List.getElem_mem _)

/-- Of elements that are made of others, halving asks what it would have asked of those. -/
theorem bisect_map {β γ : Type} (g : β → γ) (p : γ → Bool) (xs : List β) :
    bisect p (xs.map g) = bisect (fun x => p (g x)) xs := by
  unfold bisect
  simp only [List.isEmpty_map, List.getElem?_map, List.length_map, Option.any_map]

/-- A test that earlier elements pass if later ones do divides a list in two. -/
theorem exists_split_of_pairwise {β : Type} {R : β → β → Prop} {xs : List β} (h : xs.Pairwise R)
    (p : β → Bool) (hp : ∀ a b, R a b → p b = true → p a = true) :
    ∃ before after, xs = before ++ after ∧ (∀ x ∈ before, p x = true)
      ∧ ∀ x ∈ after, p x = false := by
  induction xs with
  | nil => exact ⟨[], [], rfl, nofun, nofun⟩
  | cons a rest ih =>
    obtain ⟨hfirst, hrest⟩ := List.pairwise_cons.1 h
    cases ha : p a with
    | true =>
      obtain ⟨before, after, rfl, hbefore, hafter⟩ := ih hrest
      exact ⟨a :: before, after, rfl, List.forall_mem_cons.2 ⟨ha, hbefore⟩, hafter⟩
    | false =>
      refine ⟨[], a :: rest, rfl, nofun, List.forall_mem_cons.2 ⟨ha, fun k hk => ?_⟩⟩
      refine Bool.eq_false_iff.2 fun hk' => ?_
      rw [hp a k (hfirst k hk) hk'] at ha
      cases ha

/-- If some element passes such a test and another one does not, there are neighbours of which the first
one passes it and the second one does not. -/
theorem exists_neighbours_of_pairwise {β : Type} {R : β → β → Prop} {xs : List β} {a b : β}
    (h : xs.Pairwise R) (p : β → Bool) (hp : ∀ a b, R a b → p b = true → p a = true)
    (ha : a ∈ xs) (hpa : p a = true) (hb : b ∈ xs) (hpb : p b = false) :
    ∃ before c d after, xs = before ++ c :: d :: after ∧ p c = true ∧ p d = false := by
  obtain ⟨upto, beyond, rfl, hupto, hbeyond⟩ := exists_split_of_pairwise h p hp
  have hupto_ne : upto ≠ [] := by
    rintro rfl
    rw [hbeyond a ha] at hpa
    cases hpa
  have hbeyond_ne : beyond ≠ [] := by
    rintro rfl
    rw [List.append_nil] at hb
    rw [hupto b hb] at hpb
    cases hpb
  obtain ⟨before, c, rfl⟩ : ∃ before c, upto = before ++ [c] :=
    ⟨_, _, (List.dropLast_concat_getLast hupto_ne).symm⟩
  obtain ⟨d, after, rfl⟩ := List.exists_cons_of_ne_nil hbeyond_ne
  exact ⟨before, c, d, after, by rw [List.append_assoc, List.singleton_append],
    hupto c (List.mem_append_right before List.mem_cons_self), hbeyond d List.mem_cons_self⟩

namespace Curve

variable {α : Type} [Scalar α] {keys before after : List (Keyframe α)} {a b k : Keyframe α}
  {x t length : α}

/-- Where no two neighbours have the same time, what relates all keys relates neighbours that differ. -/
theorem isChain_of_sameTime? {R : Keyframe α → Keyframe α → Prop} (hsame : sameTime? keys = none)
    (h : keys.Pairwise R) : keys.IsChain fun a b => R a b ∧ Scalar.equal a.time b.time = false := by
  fun_induction sameTime? keys with
  | case1 a b rest hequal => cases hsame
  | case2 a b rest hequal ih =>
    obtain ⟨hfirst, hrest⟩ := List.pairwise_cons.1 h
    exact List.isChain_cons_cons.2
      ⟨⟨hfirst b List.mem_cons_self, Bool.eq_false_iff.2 hequal⟩, ih hsame hrest⟩
  | case3 keys hshort =>
    match keys, hshort with
    | [], _ => exact .nil
    | [k], _ => exact .singleton k
    | a :: b :: rest, hshort => exact absurd rfl (hshort a b rest)

theorem flaw?_eq_none_iff : k.flaw? = none ↔ Scalar.isFinite k.time = true
    ∧ Scalar.isFinite k.value = true ∧ Scalar.isNaN k.inTangent = false
    ∧ Scalar.isNaN k.outTangent = false := by
  unfold Keyframe.flaw?
  cases Scalar.isFinite k.time <;> cases Scalar.isFinite k.value <;>
    cases Scalar.isNaN k.inTangent <;> cases Scalar.isNaN k.outTangent <;> decide

/-- What is asked of the keys of a curve when it is made. -/
theorem ofKeys_eq_ok_iff {c : Curve α} : ofKeys keys = .ok c ↔
    (∀ k ∈ keys, k.flaw? = none) ∧ c.keys = keys.mergeSort (fun a b => Scalar.ordered a.time b.time)
      ∧ sameTime? c.keys = none := by
  rw [ofKeys, ← List.findSome?_eq_none_iff]
  obtain ⟨sorted⟩ := c
  cases keys.findSome? Keyframe.flaw? with
  | some field => exact ⟨nofun, nofun⟩
  | none =>
    dsimp only
    split
    · next k hsame =>
      refine ⟨nofun, ?_⟩
      rintro ⟨-, rfl, hnone⟩
      rw [hnone] at hsame
      cases hsame
    · next hsame =>
      refine ⟨?_, ?_⟩
      · rintro ⟨⟩
        exact ⟨rfl, rfl, hsame⟩
      · rintro ⟨-, rfl, -⟩
        rfl

/-- Keys without flaws that stand in order already are accepted as they are. -/
theorem ofKeys_of_ordered (hflaw : ∀ k ∈ keys, k.flaw? = none)
    (hsorted : keys.Pairwise fun a b => Scalar.ordered a.time b.time = true)
    (hsame : sameTime? keys = none) : ofKeys keys = .ok ⟨keys⟩ :=
  ofKeys_eq_ok_iff.2 ⟨hflaw, (List.mergeSort_of_pairwise hsorted).symm, hsame⟩

/-! ## Segments -/

/-- Outside its keys a curve has no slope. -/
theorem derivative_outside {c : Curve α} {first last : Keyframe α} (hfirst : c.keys.head? = some first)
    (hlast : c.keys.getLast? = some last) (hx : x ≤ first.time ∨ last.time ≤ x) :
    c.derivative x = Scalar.zero := by
  have hnone : c.segment? x = none := by
    simp only [segment?, startTime?, endTime?, hfirst, hlast, Option.map_some, if_pos hx]
  rw [derivative, hnone]

/-- The segment around a time is that of the last key which is not after it and the next one. -/
theorem segment?_of_neighbours (hupto : ∀ k ∈ before ++ [a], k.time ≤ x)
    (hfrom : ∀ k ∈ b :: after, ¬k.time ≤ x)
    (hfirst : ∀ k ∈ (before ++ a :: b :: after).head?, ¬x ≤ k.time) :
    segment? (⟨before ++ a :: b :: after⟩ : Curve α) x = some (a, b) := by
  have hsplit : before ++ a :: b :: after = (before ++ [a]) ++ b :: after := by
    rw [List.append_assoc, List.singleton_append]
  have hbisect : bisect (fun k : Keyframe α => decide (k.time ≤ x)) (before ++ a :: b :: after)
      = before.length + 1 := by
    rw [hsplit, bisect_append (fun k hk => decide_eq_true (hupto k hk)) fun k hk =>
      decide_eq_false (hfrom k hk), List.length_append, List.length_singleton]
  obtain ⟨first, hhead⟩ : ∃ first, (before ++ a :: b :: after).head? = some first := by
    cases before <;> exact ⟨_, rfl⟩
  obtain ⟨last, hlast⟩ : ∃ last, (b :: after).getLast? = some last :=
    ⟨_, List.getLast?_eq_some_getLast (List.cons_ne_nil b after)⟩
  have hstart : startTime? (⟨before ++ a :: b :: after⟩ : Curve α) = some first.time := by
    rw [startTime?, hhead, Option.map_some]
  have hend : endTime? (⟨before ++ a :: b :: after⟩ : Curve α) = some last.time := by
    rw [endTime?, List.getLast?_append, List.getLast?_cons_cons, hlast, Option.some_or,
      Option.map_some]
  have hinside : ¬(x ≤ first.time ∨ last.time ≤ x) :=
    not_or.2 ⟨hfirst first hhead, hfrom last (List.mem_of_getLast? hlast)⟩
  have hprevious : (before ++ a :: b :: after)[before.length]? = some a := by
    rw [List.getElem?_append_right (Nat.le_refl _), Nat.sub_self]
    rfl
  have hnext : (before ++ a :: b :: after)[before.length + 1]? = some b := by
    rw [List.getElem?_append_right (Nat.le_succ _), Nat.succ_sub (Nat.le_refl _), Nat.sub_self]
    rfl
  simp only [segment?, hstart, hend, if_neg hinside, hbisect, Nat.add_sub_cancel, hprevious, hnext]

theorem mem_of_segment? {c : Curve α} (h : c.segment? x = some (a, b)) : a ∈ c.keys ∧ b ∈ c.keys := by
  unfold segment? at h
  split at h
  · split at h
    · cases h
    · dsimp only at h
      split at h
      · next ha hb =>
        cases h
        exact ⟨List.mem_of_getElem? ha, List.mem_of_getElem? hb⟩
      · cases h
  · cases h

/-! ## Values -/

theorem evaluate_of_le {c : Curve α} {first : Keyframe α} (hfirst : first ∈ c.keys.head?)
    (hx : x ≤ first.time) : c.evaluate x = first.value := by
  obtain ⟨rest, hkeys⟩ := List.head?_eq_some_iff.1 hfirst
  have hlast : c.keys.getLast? = some _ :=
    List.getLast?_eq_some_getLast (by rw [hkeys]; exact List.cons_ne_nil first rest)
  simp only [evaluate, Option.mem_def.1 hfirst, hlast, if_pos hx]

theorem evaluate_of_not_le {c : Curve α} {last : Keyframe α}
    (hfirst : ∀ k ∈ c.keys.head?, ¬x ≤ k.time) (hlast : last ∈ c.keys.getLast?)
    (hx : last.time ≤ x) : c.evaluate x = last.value := by
  have hne : c.keys ≠ [] := List.ne_nil_of_mem (List.mem_of_getLast? hlast)
  have hhead := List.head?_eq_some_head hne
  simp only [evaluate, hhead, Option.mem_def.1 hlast, if_pos hx, if_neg (hfirst _ hhead)]

/-- What holds of the values of the keys, and of what lies between two keys, holds of every value. -/
theorem evaluate_ind {c : Curve α} {P : α → Prop} (hzero : P Scalar.zero)
    (hvalue : ∀ k ∈ c.keys, P k.value) (hbetween : ∀ a ∈ c.keys, ∀ b ∈ c.keys, P (a.between b x)) :
    P (c.evaluate x) := by
  unfold evaluate
  split
  · next first last hfirst hlast =>
    have hend := hvalue last (List.mem_of_getLast? hlast)
    split
    · exact hvalue first (List.mem_of_mem_head? hfirst)
    · split
      · exact hend
      · split
        · next a b hsegment =>
          obtain ⟨ha, hb⟩ := mem_of_segment? hsegment
          exact hbetween a ha b hb
        · exact hend
  · exact hzero

theorem evaluate_of_neighbours (hupto : ∀ k ∈ before ++ [a], k.time ≤ x)
    (hfrom : ∀ k ∈ b :: after, ¬k.time ≤ x)
    (hfirst : ∀ k ∈ (before ++ a :: b :: after).head?, ¬x ≤ k.time) :
    evaluate (⟨before ++ a :: b :: after⟩ : Curve α) x = a.between b x := by
  obtain ⟨first, hhead⟩ : ∃ first, (before ++ a :: b :: after).head? = some first := by
    cases before <;> exact ⟨_, rfl⟩
  obtain ⟨last, hlast⟩ : ∃ last, (b :: after).getLast? = some last :=
    ⟨_, List.getLast?_eq_some_getLast (List.cons_ne_nil b after)⟩
  have hend : (before ++ a :: b :: after).getLast? = some last := by
    rw [List.getLast?_append, List.getLast?_cons_cons, hlast, Option.some_or]
  simp only [evaluate, hhead, hend, if_neg (hfirst first hhead),
    if_neg (hfrom last (List.mem_of_getLast? hlast)), segment?_of_neighbours hupto hfrom hfirst]

theorem derivative_of_neighbours (hupto : ∀ k ∈ before ++ [a], k.time ≤ x)
    (hfrom : ∀ k ∈ b :: after, ¬k.time ≤ x)
    (hfirst : ∀ k ∈ (before ++ a :: b :: after).head?, ¬x ≤ k.time) :
    derivative (⟨before ++ a :: b :: after⟩ : Curve α) x = a.slopeBetween b x := by
  rw [derivative, segment?_of_neighbours hupto hfrom hfirst]

/-! ## Holds -/

section Hold

variable (hlength : ¬length ≤ Scalar.zero) (hbefore : ∀ k ∈ before, k.time < t)
  (hafter : ∀ k ∈ after, ¬k.time < t)
include hlength hbefore hafter

/-- A hold at the time of a key makes two keys of it. -/
theorem insertHold_at (hk : ¬k.time < t) (hequal : Scalar.equal k.time t = true) :
    insertHold (⟨before ++ k :: after⟩ : Curve α) t length
      = ⟨before ++ { k with outTangent := Scalar.zero }
          :: ⟨t + length, k.value, Scalar.zero, k.outTangent⟩ :: after.map (.delay length)⟩ := by
  have hkeys : ¬((before ++ k :: after).isEmpty = true ∨ length ≤ Scalar.zero) := by
    rw [not_or, List.isEmpty_iff]
    exact ⟨by simp, hlength⟩
  have hbisect : bisect (fun k : Keyframe α => decide (k.time < t)) (before ++ k :: after)
      = before.length :=
    bisect_append (fun k hk => decide_eq_true (hbefore k hk)) (List.forall_mem_cons.2
      ⟨decide_eq_false hk, fun k hk => decide_eq_false (hafter k hk)⟩)
  simp only [insertHold, if_neg hkeys, hbisect, List.take_left, List.drop_left, hequal, if_true]

/-- A hold at any other time puts two new keys there, with the value of the curve, and with its slope
unless all keys are on one side. -/
theorem insertHold_beside (hne : before ++ after ≠ [])
    (hequal : ∀ k ∈ after.head?, Scalar.equal k.time t = false) :
    insertHold (⟨before ++ after⟩ : Curve α) t length
      = (let slope := if before.isEmpty || after.isEmpty then Scalar.zero
          else derivative (⟨before ++ after⟩ : Curve α) t
        let value := evaluate (⟨before ++ after⟩ : Curve α) t
        ⟨before ++ ⟨t, value, slope, Scalar.zero⟩ :: ⟨t + length, value, Scalar.zero, slope⟩
          :: after.map (.delay length)⟩) := by
  have hkeys : ¬((before ++ after).isEmpty = true ∨ length ≤ Scalar.zero) := by
    rw [not_or, List.isEmpty_iff]
    exact ⟨hne, hlength⟩
  have hbisect : bisect (fun k : Keyframe α => decide (k.time < t)) (before ++ after)
      = before.length :=
    bisect_append (fun k hk => decide_eq_true (hbefore k hk)) fun k hk =>
      decide_eq_false (hafter k hk)
  simp only [insertHold, if_neg hkeys, hbisect, List.take_left, List.drop_left]
  cases after with
  | nil => rfl
  | cons b rest => simp only [hequal b rfl, Bool.false_eq_true, if_false]

end Hold

end Curve

end BranchingDialogue
