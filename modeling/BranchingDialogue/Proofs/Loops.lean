import Mathlib.Data.List.Forall2

/-!
# Loops that end at the first error

A loop over a list that may fail succeeds exactly when every turn does, whatever error an earlier
end would have had. What the turns give is a second list that runs parallel to the first, so a few
facts about parallel lists stand here too.
-/

namespace BranchingDialogue

variable {ε α β σ : Type}

theorem foldlM_cons_eq_ok_iff {f : σ → α → Except ε σ} {s t : σ} {x : α} {xs : List α} :
    (x :: xs).foldlM f s = .ok t ↔ ∃ u, f s x = .ok u ∧ xs.foldlM f u = .ok t := by
  rw [List.foldlM_cons]
  cases hx : f s x with
  | error e => exact ⟨fun h => (by cases h), fun ⟨_, h, _⟩ => by cases h⟩
  | ok u =>
    constructor
    · exact fun h => ⟨u, rfl, h⟩
    · rintro ⟨_, ⟨⟩, h⟩
      exact h

/-- If each turn appends to a part of the state what belongs to its element, if anything does, a loop
appends what belongs to its elements, in order. -/
theorem exists_appended_of_foldlM {f : σ → α → Except ε σ} {part : σ → List β} {p : α → Bool}
    {R : α → β → Prop}
    (turn : ∀ {s t x}, f s x = .ok t →
      ∃ ys, part t = part s ++ ys ∧ List.Forall₂ R ([x].filter p) ys) {s t : σ} {xs : List α}
    (h : xs.foldlM f s = .ok t) :
    ∃ ys, part t = part s ++ ys ∧ List.Forall₂ R (xs.filter p) ys := by
  induction xs generalizing s with
  | nil =>
    cases h
    exact ⟨[], (List.append_nil _).symm, .nil⟩
  | cons x xs ih =>
    obtain ⟨u, hfirst, hrest⟩ := foldlM_cons_eq_ok_iff.1 h
    obtain ⟨ys, hys, hall⟩ := turn hfirst
    obtain ⟨zs, hzs, hall'⟩ := ih hrest
    refine ⟨ys ++ zs, by rw [hzs, hys, List.append_assoc], ?_⟩
    rw [← List.singleton_append, List.filter_append]
    exact List.rel_append hall hall'

/-- A loop whose turns first read their element reads the whole list. -/
theorem foldlM_read_eq_ok_iff {turn : σ → α → Except ε σ} {f : α → Except ε β}
    {k : σ → β → Except ε σ}
    (hturn : ∀ {s x t}, turn s x = .ok t ↔ ∃ y, f x = .ok y ∧ k s y = .ok t) {s t : σ}
    {xs : List α} :
    xs.foldlM turn s = .ok t
      ↔ ∃ ys, List.Forall₂ (fun x y => f x = .ok y) xs ys ∧ ys.foldlM k s = .ok t := by
  induction xs generalizing s with
  | nil =>
    simp only [List.foldlM_nil, List.forall₂_nil_left_iff]
    exact ⟨fun h => ⟨[], rfl, h⟩, fun ⟨_, hys, h⟩ => by rwa [hys] at h⟩
  | cons x xs ih =>
    rw [foldlM_cons_eq_ok_iff]
    constructor
    · rintro ⟨u, hu, h⟩
      obtain ⟨y, hy, hk⟩ := hturn.1 hu
      obtain ⟨ys, hall, hys⟩ := ih.1 h
      exact ⟨y :: ys, .cons hy hall, foldlM_cons_eq_ok_iff.2 ⟨u, hk, hys⟩⟩
    · rintro ⟨ys, hall, h⟩
      obtain ⟨y, ys, hy, hrest, rfl⟩ := List.forall₂_cons_left_iff.1 hall
      obtain ⟨u, hu, hys⟩ := foldlM_cons_eq_ok_iff.1 h
      exact ⟨u, hturn.2 ⟨y, hy, hu⟩, ih.2 ⟨ys, hrest, hys⟩⟩

/-- A list is mapped without an error exactly when each of its elements is. -/
theorem mapM_eq_ok_iff {f : α → Except ε β} {xs : List α} {ys : List β} :
    xs.mapM f = .ok ys ↔ List.Forall₂ (fun x y => f x = .ok y) xs ys := by
  induction xs generalizing ys with
  | nil =>
    rw [List.mapM_nil, List.forall₂_nil_left_iff]
    exact ⟨fun h => (by cases h; rfl), fun h => (by rw [h]; rfl)⟩
  | cons x xs ih =>
    rw [List.mapM_cons, List.forall₂_cons_left_iff]
    cases hx : f x with
    | error e => exact ⟨fun h => (by cases h), fun ⟨_, _, h, _⟩ => by cases h⟩
    | ok y =>
      cases hxs : xs.mapM f with
      | error e =>
        constructor
        · intro h
          cases h
        · rintro ⟨_, ws, -, hws, -⟩
          rw [ih.2 hws] at hxs
          cases hxs
      | ok zs =>
        constructor
        · intro h
          cases h
          exact ⟨y, zs, rfl, ih.1 hxs, rfl⟩
        · rintro ⟨_, ws, ⟨⟩, hws, rfl⟩
          rw [ih.2 hws] at hxs
          cases hxs
          rfl

/-- A loop that fails does so at one of its turns, after those before it succeeded. -/
theorem exists_turn_of_foldlM_error {f : σ → α → Except ε σ} {s : σ} {xs : List α} {e : ε}
    (h : xs.foldlM f s = .error e) :
    ∃ before x after t, xs = before ++ x :: after ∧ before.foldlM f s = .ok t
      ∧ f t x = .error e := by
  induction xs generalizing s with
  | nil => cases h
  | cons x xs ih =>
    rw [List.foldlM_cons] at h
    cases hx : f s x with
    | error e' =>
      rw [hx] at h
      cases h
      exact ⟨[], x, xs, s, rfl, rfl, hx⟩
    | ok u =>
      rw [hx] at h
      obtain ⟨before, y, after, t, rfl, hbefore, hy⟩ := ih h
      exact ⟨x :: before, y, after, t, rfl, foldlM_cons_eq_ok_iff.2 ⟨u, hx, hbefore⟩, hy⟩

theorem exists_mem_of_mapM_error {f : α → Except ε β} {xs : List α} {e : ε}
    (h : xs.mapM f = .error e) : ∃ x ∈ xs, f x = .error e := by
  induction xs with
  | nil => cases h
  | cons x xs ih =>
    rw [List.mapM_cons] at h
    cases hx : f x with
    | error e' =>
      rw [hx] at h
      cases h
      exact ⟨x, List.mem_cons_self, hx⟩
    | ok y =>
      rw [hx] at h
      cases hxs : xs.mapM f with
      | ok ys =>
        rw [hxs] at h
        cases h
      | error e' =>
        rw [hxs] at h
        cases h
        obtain ⟨z, hz, hfails⟩ := ih hxs
        exact ⟨z, List.mem_cons_of_mem x hz, hfails⟩

/-! ## Parallel lists -/

theorem forall₂_iff_getElem? {R : α → β → Prop} {xs : List α} {ys : List β} :
    List.Forall₂ R xs ys
      ↔ xs.length = ys.length ∧ ∀ (i : Nat) x y, xs[i]? = some x → ys[i]? = some y → R x y := by
  rw [List.forall₂_iff_get]
  refine and_congr_right fun _ => ⟨fun h i x y hx hy => ?_, fun h i hx hy => ?_⟩
  · obtain ⟨hi, rfl⟩ := List.getElem?_eq_some_iff.1 hx
    obtain ⟨hj, rfl⟩ := List.getElem?_eq_some_iff.1 hy
    exact h i hi hj
  · exact h i _ _ (List.getElem?_eq_getElem hx) (List.getElem?_eq_getElem hy)

theorem getElem?_of_forall₂ {R : α → β → Prop} {xs : List α} {ys : List β}
    (h : List.Forall₂ R xs ys) (i : Nat) :
    xs[i]? = none ∧ ys[i]? = none ∨ ∃ x y, xs[i]? = some x ∧ ys[i]? = some y ∧ R x y := by
  obtain ⟨hlen, hR⟩ := forall₂_iff_getElem?.1 h
  by_cases hi : i < xs.length
  · have hx := List.getElem?_eq_getElem hi
    have hy := List.getElem?_eq_getElem (hlen ▸ hi)
    exact Or.inr ⟨_, _, hx, hy, hR i _ _ hx hy⟩
  · rw [List.getElem?_eq_none (by omega), List.getElem?_eq_none (by omega)]
    exact Or.inl ⟨rfl, rfl⟩

/-- Where one of two parallel lists has an element, the other one has its counterpart. -/
theorem exists_right_of_forall₂ {R : α → β → Prop} {xs : List α} {ys : List β}
    (h : List.Forall₂ R xs ys) {i : Nat} {x : α} (hx : xs[i]? = some x) :
    ∃ y, ys[i]? = some y ∧ R x y := by
  rcases getElem?_of_forall₂ h i with ⟨hnone, -⟩ | ⟨x', y, hx', hy, hxy⟩
  · rw [hx] at hnone
    cases hnone
  · rw [hx, Option.some.injEq] at hx'
    exact ⟨y, hy, hx' ▸ hxy⟩

theorem exists_left_of_forall₂ {R : α → β → Prop} {xs : List α} {ys : List β}
    (h : List.Forall₂ R xs ys) {i : Nat} {y : β} (hy : ys[i]? = some y) :
    ∃ x, xs[i]? = some x ∧ R x y :=
  exists_right_of_forall₂ (R := fun y x => R x y) h.flip hy

theorem exists_mem_of_forall₂ {R : α → β → Prop} {xs : List α} {ys : List β}
    (h : List.Forall₂ R xs ys) {y : β} (hy : y ∈ ys) : ∃ x ∈ xs, R x y := by
  induction h with
  | nil => exact absurd hy List.not_mem_nil
  | cons hhead _ ih =>
    rcases List.mem_cons.1 hy with rfl | hy
    · exact ⟨_, List.mem_cons_self, hhead⟩
    · obtain ⟨x, hx, hxy⟩ := ih hy
      exact ⟨x, List.mem_cons_of_mem _ hx, hxy⟩

/-- Where a list falls apart at an element, a list parallel to it falls apart at its counterpart. -/
theorem exists_split_of_forall₂ {R : α → β → Prop} {xs : List α} {y : β} {ys ys' : List β}
    (h : List.Forall₂ R xs (ys ++ y :: ys')) :
    ∃ before x after, xs = before ++ x :: after ∧ R x y ∧ List.Forall₂ R after ys' := by
  induction ys generalizing xs with
  | nil =>
    obtain ⟨x, after, hxy, hafter, rfl⟩ := List.forall₂_cons_right_iff.1 h
    exact ⟨[], x, after, rfl, hxy, hafter⟩
  | cons z ys ih =>
    obtain ⟨w, rest, -, hrest, rfl⟩ := List.forall₂_cons_right_iff.1 h
    obtain ⟨before, x, after, rfl, hxy, hafter⟩ := ih hrest
    exact ⟨w :: before, x, after, rfl, hxy, hafter⟩

theorem forall₂_map_self {R : α → β → Prop} {f : α → β} {xs : List α} (h : ∀ x ∈ xs, R x (f x)) :
    List.Forall₂ R xs (xs.map f) := by
  rw [List.forall₂_map_right_iff, List.forall₂_same]
  exact h

theorem filterMap_of_forall₂ {f : α → Option β} {xs : List α} {ys : List β}
    (h : List.Forall₂ (fun x y => f x = some y) xs ys) : xs.filterMap f = ys := by
  induction h with
  | nil => rfl
  | cons hhead _ ih => rw [List.filterMap_cons_some hhead, ih]

theorem map_eq_of_forall₂ {γ : Type} {f : α → γ} {g : β → γ} {xs : List α} {ys : List β}
    (h : List.Forall₂ (fun x y => f x = g y) xs ys) : xs.map f = ys.map g := by
  induction h with
  | nil => rfl
  | cons hhead _ ih => rw [List.map_cons, List.map_cons, hhead, ih]

/-- What is found first in a list has its counterpart found first in a list parallel to it. -/
theorem rel_find?_of_forall₂ {R : α → β → Prop} {xs : List α} {ys : List β}
    (h : List.Forall₂ R xs ys) {p : α → Bool} {q : β → Bool} (hpq : ∀ {x y}, R x y → p x = q y) :
    Option.Rel R (xs.find? p) (ys.find? q) := by
  induction h with
  | nil => exact .none
  | @cons x y xs ys hhead _ ih =>
    rw [List.find?_cons, List.find?_cons, hpq hhead]
    cases q y with
    | true => exact .some hhead
    | false => exact ih

/-- Two counterparts of the same thing have in common what all its counterparts have. -/
theorem map_eq_of_rel {γ δ : Type} {R : α → β → Prop} {S : α → γ → Prop} {f : β → δ} {g : γ → δ}
    {x : Option α} {y : Option β} {z : Option γ} (hy : Option.Rel R x y) (hz : Option.Rel S x z)
    (h : ∀ {a b c}, R a b → S a c → f b = g c) : y.map f = z.map g := by
  cases hy with
  | none =>
    cases hz
    rfl
  | some hb =>
    cases hz with
    | some hc => exact congrArg some (h hb hc)

/-- What is found first in a list is found first in any other order of it, if nothing else of its
kind is there. -/
theorem find?_eq_of_perm {xs ys : List α} (h : xs.Perm ys) {p : α → Bool}
    (hone : xs.Pairwise fun x y => ¬(p x = true ∧ p y = true)) : xs.find? p = ys.find? p := by
  have hfilter : xs.filter p = ys.filter p := by
    have hperm := h.filter p
    -- At most one element is left, so there is only one order.
    match hfound : xs.filter p with
    | [] =>
      rw [hfound] at hperm
      rw [List.nil_perm.1 hperm]
    | [x] =>
      rw [hfound] at hperm
      rw [List.singleton_perm.1 hperm]
    | x :: y :: _ =>
      have hpair := hone.filter p
      rw [hfound] at hpair
      have hx : x ∈ xs.filter p := hfound ▸ List.mem_cons_self
      have hy : y ∈ xs.filter p := hfound ▸ List.mem_cons_of_mem x List.mem_cons_self
      exact absurd ⟨(List.mem_filter.1 hx).2, (List.mem_filter.1 hy).2⟩
        ((List.pairwise_cons.1 hpair).1 y List.mem_cons_self)
  rw [← List.head?_filter, ← List.head?_filter, hfilter]

theorem exists_forall₂ {R : α → β → Prop} {xs : List α} (h : ∀ x ∈ xs, ∃ y, R x y) :
    ∃ ys, List.Forall₂ R xs ys := by
  induction xs with
  | nil => exact ⟨[], .nil⟩
  | cons x xs ih =>
    rw [List.forall_mem_cons] at h
    obtain ⟨y, hy⟩ := h.1
    obtain ⟨ys, hys⟩ := ih h.2
    exact ⟨y :: ys, .cons hy hys⟩

/-- A condition on all pairs of a list is one on all pairs of a list parallel to it. -/
theorem pairwise_iff_of_forall₂ {P : α → β → Prop} {R : α → α → Prop} {S : β → β → Prop}
    {xs : List α} {ys : List β} (h : List.Forall₂ P xs ys)
    (hRS : ∀ {x x' y y'}, P x y → P x' y' → (R x x' ↔ S y y')) :
    xs.Pairwise R ↔ ys.Pairwise S := by
  obtain ⟨hlen, hP⟩ := forall₂_iff_getElem?.1 h
  rw [List.pairwise_iff_getElem, List.pairwise_iff_getElem]
  have hat : ∀ i (hi : i < xs.length) (hi' : i < ys.length), P xs[i] ys[i] := fun i hi hi' =>
    hP i _ _ (List.getElem?_eq_getElem hi) (List.getElem?_eq_getElem hi')
  constructor
  · intro hR i j hi hj hij
    exact (hRS (hat i (hlen ▸ hi) hi) (hat j (hlen ▸ hj) hj)).1
      (hR i j (hlen ▸ hi) (hlen ▸ hj) hij)
  · intro hS i j hi hj hij
    exact (hRS (hat i hi (hlen ▸ hi)) (hat j hj (hlen ▸ hj))).2
      (hS i j (hlen ▸ hi) (hlen ▸ hj) hij)

/-- A symmetric condition on all pairs is one on any two positions. -/
theorem pairwise_iff_getElem?_ne {R : α → α → Prop} (hR : ∀ {a b}, R a b → R b a) {l : List α} :
    l.Pairwise R ↔ ∀ (i j : Nat) a b, i ≠ j → l[i]? = some a → l[j]? = some b → R a b := by
  rw [List.pairwise_iff_getElem]
  constructor
  · intro h i j a b hne ha hb
    obtain ⟨hi, rfl⟩ := List.getElem?_eq_some_iff.1 ha
    obtain ⟨hj, rfl⟩ := List.getElem?_eq_some_iff.1 hb
    rcases Nat.lt_or_gt_of_ne hne with hlt | hgt
    · exact h i j hi hj hlt
    · exact hR (h j i hj hi hgt)
  · intro h i j hi hj hij
    exact h i j _ _ (Nat.ne_of_lt hij) (List.getElem?_eq_getElem hi) (List.getElem?_eq_getElem hj)

end BranchingDialogue
