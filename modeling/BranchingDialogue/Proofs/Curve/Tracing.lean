import BranchingDialogue.Proofs.Curve.Cubic
import BranchingDialogue.Proofs.Curve.Locating

/-!
# The function that a curve is

`Traces f keys` says what it is for a function to be the curve through keys: the cubic between
neighbours, the first value before them and the last value after them. Through keys in ascending
order of their times there is exactly one such function (`exists_traces`, `Traces.evaluate`), and
evaluation, which looks the segment up by halving, computes it. What changes the keys of a curve is
understood by the function that the new keys trace; how they are stored no longer matters.
-/

namespace BranchingDialogue

/-! ## Keys in ascending order -/

/-- The keys stand in ascending order of their times, no two at the same time. -/
def Ascending (keys : List (Keyframe ℚ)) : Prop := keys.Pairwise fun a b => a.time < b.time

variable {keys : List (Keyframe ℚ)} {f : ℚ → ℚ} {a b k : Keyframe ℚ} {x t : ℚ}

theorem ascending_of_isChain (h : keys.IsChain fun a b => a.time < b.time) : Ascending keys := by
  have hchain : (keys.map Keyframe.time).IsChain (· < ·) := (List.isChain_map _).2 h
  exact List.pairwise_map.1 (List.isChain_iff_pairwise.1 hchain)

theorem Ascending.first_le (h : Ascending keys) (ha : a ∈ keys.head?) (hk : k ∈ keys) :
    a.time ≤ k.time := by
  obtain ⟨rest, rfl⟩ := List.head?_eq_some_iff.1 ha
  rcases List.mem_cons.1 hk with rfl | hk
  · exact le_rfl
  · exact ((List.pairwise_cons.1 h).1 k hk).le

theorem Ascending.le_last (h : Ascending keys) (hb : b ∈ keys.getLast?) (hk : k ∈ keys) :
    k.time ≤ b.time := by
  obtain ⟨rest, rfl⟩ := List.getLast?_eq_some_iff.1 hb
  rcases List.mem_append.1 hk with hk | hk
  · exact ((List.pairwise_append.1 h).2.2 k hk b List.mem_cons_self).le
  · rw [List.mem_singleton.1 hk]

/-- A time after the first key and before the last one lies between two neighbours. -/
theorem Ascending.exists_neighbours (h : Ascending keys) (ha : a ∈ keys.head?) (hax : a.time < x)
    (hb : b ∈ keys.getLast?) (hxb : x < b.time) :
    ∃ before c d after, keys = before ++ c :: d :: after ∧ c.time ≤ x ∧ x < d.time := by
  obtain ⟨before, c, d, after, hkeys, hc, hd⟩ :=
    exists_neighbours_of_pairwise h (fun k => decide (k.time ≤ x))
      (fun a b hab hb => decide_eq_true (hab.le.trans (of_decide_eq_true hb)))
      (List.mem_of_mem_head? ha) (decide_eq_true hax.le) (List.mem_of_getLast? hb)
      (decide_eq_false (not_le.2 hxb))
  exact ⟨before, c, d, after, hkeys, of_decide_eq_true hc, not_le.1 (of_decide_eq_false hd)⟩

/-! ## Looking a segment up -/

section Neighbours

variable {before after : List (Keyframe ℚ)} (hasc : Ascending (before ++ a :: b :: after))
include hasc

theorem Ascending.le_of_mem_upto (hk : k ∈ before ++ [a]) : k.time ≤ a.time := by
  rcases List.mem_append.1 hk with hk | hk
  · exact ((List.pairwise_append.1 hasc).2.2 k hk a List.mem_cons_self).le
  · rw [List.mem_singleton.1 hk]

theorem Ascending.le_of_mem_from (hk : k ∈ b :: after) : b.time ≤ k.time := by
  have hfrom := (List.pairwise_cons.1 (List.pairwise_append.1 hasc).2.1).2
  exact Ascending.first_le hfrom rfl hk

/-- The segment around a time between two neighbours is theirs. -/
theorem segment?_eq (hfirst : ∀ k ∈ (before ++ a :: b :: after).head?, k.time < x)
    (ha : a.time ≤ x) (hb : x < b.time) :
    Curve.segment? (⟨before ++ a :: b :: after⟩ : Curve ℚ) x = some (a, b) :=
  Curve.segment?_of_neighbours (fun _ hk => (hasc.le_of_mem_upto hk).trans ha)
    (fun _ hk => not_le.2 (hb.trans_le (hasc.le_of_mem_from hk)))
    fun k hk => not_le.2 (hfirst k hk)

end Neighbours

/-! ## Functions through keys -/

/-- A function is the cubic between two neighbours. -/
structure Segment (f : ℚ → ℚ) (a b : Keyframe ℚ) : Prop where
  later : a.time < b.time
  eq_between : ∀ x, a.time ≤ x → x ≤ b.time → f x = a.between b x

/-- A function is the curve through keys. -/
structure Traces (f : ℚ → ℚ) (keys : List (Keyframe ℚ)) : Prop where
  segments : keys.IsChain (Segment f)
  before : ∀ first ∈ keys.head?, ∀ x ≤ first.time, f x = first.value
  after : ∀ last ∈ keys.getLast?, ∀ x, last.time ≤ x → f x = last.value

theorem Traces.ascending (h : Traces f keys) : Ascending keys :=
  ascending_of_isChain (h.segments.imp fun _ _ hab => hab.later)

theorem Traces.segment {before after : List (Keyframe ℚ)}
    (h : Traces f (before ++ a :: b :: after)) : Segment f a b :=
  (List.isChain_append_cons_cons.1 h.segments).2.1

/-- At a key the function has its value. -/
theorem Traces.eq_value {before after : List (Keyframe ℚ)} (h : Traces f (before ++ k :: after)) :
    f k.time = k.value := by
  cases after with
  | nil => exact h.after k List.getLast?_concat k.time le_rfl
  | cons b after =>
    have hkb := h.segment
    rw [hkb.eq_between k.time le_rfl hkb.later.le, Keyframe.between_left hkb.later]

/-- Evaluation computes the function that the keys trace. -/
theorem Traces.evaluate (h : Traces f keys) (hne : keys ≠ []) (x : ℚ) :
    Curve.evaluate (⟨keys⟩ : Curve ℚ) x = f x := by
  obtain ⟨first, hhead⟩ : ∃ first, keys.head? = some first :=
    ⟨_, List.head?_eq_some_head hne⟩
  obtain ⟨last, hlast⟩ : ∃ last, keys.getLast? = some last :=
    ⟨_, List.getLast?_eq_some_getLast hne⟩
  simp only [Curve.evaluate, hhead, hlast]
  split
  · next hx => exact (h.before first hhead x hx).symm
  · next hafter =>
    split
    · next hx => exact (h.after last hlast x hx).symm
    · next hbefore =>
      have hfirst := not_le.1 hafter
      obtain ⟨before, a, b, after, rfl, ha, hb⟩ :=
        h.ascending.exists_neighbours hhead hfirst hlast (not_le.1 hbefore)
      have hall : ∀ k ∈ (before ++ a :: b :: after).head?, k.time < x := by
        intro k hk
        rw [hhead] at hk
        cases hk
        exact hfirst
      rw [segment?_eq h.ascending hall ha hb]
      exact (h.segment.eq_between x ha hb.le).symm

/-- A function that begins with another key, before those that it goes through. -/
def begun (f : ℚ → ℚ) (a b : Keyframe ℚ) (x : ℚ) : ℚ :=
  if x ≤ a.time then a.value else if x ≤ b.time then a.between b x else f x

theorem begun_of_le (hx : x ≤ a.time) : begun f a b x = a.value := if_pos hx

theorem begun_of_mem (hab : a.time < b.time) (hax : a.time ≤ x) (hxb : x ≤ b.time) :
    begun f a b x = a.between b x := by
  rcases hax.eq_or_lt with rfl | hlt
  · rw [begun_of_le le_rfl, Keyframe.between_left hab]
  · rw [begun, if_neg (not_le.2 hlt), if_pos hxb]

/-- From the second key on, where the new segment ends, it is the function through the others. -/
theorem Traces.begun_of_ge {rest : List (Keyframe ℚ)} (h : Traces f (b :: rest))
    (hab : a.time < b.time) (hx : b.time ≤ x) : begun f a b x = f x := by
  rcases hx.eq_or_lt with rfl | hlt
  · rw [h.before b rfl b.time le_rfl, begun_of_mem hab hab.le le_rfl, Keyframe.between_right hab]
  · rw [begun, if_neg (not_le.2 (hab.trans hlt)), if_neg (not_le.2 hlt)]

theorem Traces.cons {rest : List (Keyframe ℚ)} (h : Traces f (b :: rest)) (hab : a.time < b.time) :
    Traces (begun f a b) (a :: b :: rest) := by
  refine ⟨List.isChain_cons_cons.2 ⟨⟨hab, fun x => begun_of_mem hab⟩, ?_⟩, ?_, ?_⟩
  · refine h.segments.imp_of_mem_imp fun c d hc _ hcd => ⟨hcd.later, fun x hcx hxd => ?_⟩
    have hbc : b.time ≤ c.time := h.ascending.first_le rfl hc
    rw [h.begun_of_ge hab (hbc.trans hcx), hcd.eq_between x hcx hxd]
  · rintro k hk x hx
    cases hk
    exact begun_of_le hx
  · intro last hlast x hx
    rw [List.getLast?_cons_cons] at hlast
    have hbl : b.time ≤ last.time := h.ascending.le_last hlast List.mem_cons_self
    rw [h.begun_of_ge hab (hbl.trans hx), h.after last hlast x hx]

/-- Through keys in ascending order there is a function. -/
theorem exists_traces (h : Ascending keys) : ∃ f, Traces f keys := by
  induction keys with
  | nil => exact ⟨fun _ => 0, .nil, nofun, nofun⟩
  | cons a rest ih =>
    obtain ⟨hfirst, hrest⟩ := List.pairwise_cons.1 h
    obtain ⟨f, hf⟩ := ih hrest
    cases rest with
    | nil =>
      refine ⟨fun _ => a.value, .singleton a, ?_, ?_⟩ <;>
      · rintro k hk _ _
        cases hk
        rfl
    | cons b rest => exact ⟨_, hf.cons (hfirst b List.mem_cons_self)⟩

/-- Evaluation is the function through the keys of a curve. -/
theorem traces_evaluate (h : Ascending keys) (hne : keys ≠ []) :
    Traces (Curve.evaluate (⟨keys⟩ : Curve ℚ)) keys := by
  obtain ⟨f, hf⟩ := exists_traces h
  have heq : Curve.evaluate (⟨keys⟩ : Curve ℚ) = f := funext (hf.evaluate hne)
  rwa [heq]

end BranchingDialogue
