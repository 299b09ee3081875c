import Mathlib.Combinatorics.Enumerative.DyckWord

/-!
# Brackets in a list

Some elements of a list open something and some close something; `f` says which. The elements pair up
like brackets when what they do, read in order, is a Dyck word. `height` counts what is open after
some elements.

An opening element is closed by the first closing one after it in front of which everything is
balanced: `exists_closing`, and a closing element closes the last opening one after which everything
is: `exists_open`. Neither has a second partner: `closing_unique`, `eq_or_height_pos`.
-/

namespace BranchingDialogue

variable {α : Type} {f : α → Option DyckStep} {x y : α} {xs ys before after : List α}

/-- How much more some elements open than they close. -/
def height (f : α → Option DyckStep) (xs : List α) : Int :=
  (xs.filterMap f).count .U - (xs.filterMap f).count .D

/-- Nothing is closed that was not opened before. -/
def Upright (f : α → Option DyckStep) (xs : List α) : Prop :=
  ∀ before after, xs = before ++ after → 0 ≤ height f before

/-- What is opened is closed again, and nothing else is. -/
def Balanced (f : α → Option DyckStep) (xs : List α) : Prop :=
  ∃ w : DyckWord, w.toList = xs.filterMap f

/-! ## Heights -/

@[simp] theorem height_nil : height f [] = 0 := rfl

theorem height_append (xs ys : List α) : height f (xs ++ ys) = height f xs + height f ys := by
  simp only [height, List.filterMap_append, List.count_append]
  omega

theorem height_of_none (h : f x = none) : height f [x] = 0 := by
  simp [height, h]

theorem height_of_opening (h : f x = some .U) : height f [x] = 1 := by
  simp [height, h]

theorem height_of_closing (h : f x = some .D) : height f [x] = -1 := by
  simp [height, h]

theorem height_cons (x : α) (xs : List α) : height f (x :: xs) = height f [x] + height f xs :=
  height_append [x] xs

theorem upright_nil : Upright f [] := by
  intro before after h
  rw [(List.append_eq_nil_iff.1 h.symm).1]
  exact Int.le_refl _

theorem Upright.nonneg (h : Upright f xs) : 0 ≤ height f xs := h xs [] (by simp)

theorem upright_concat_iff :
    Upright f (xs ++ [x]) ↔ Upright f xs ∧ 0 ≤ height f (xs ++ [x]) := by
  constructor
  · intro h
    exact ⟨fun before after hsplit => h before (after ++ [x]) (by rw [hsplit, List.append_assoc]),
      h.nonneg⟩
  · rintro ⟨h, hall⟩ before after hsplit
    -- A part is the whole or a part of what comes before the last element.
    cases after using List.reverseRecOn with
    | nil =>
      rw [List.append_nil] at hsplit
      rwa [← hsplit]
    | append_singleton after y =>
      rw [← List.append_assoc] at hsplit
      exact h before after (List.append_inj_left' hsplit rfl)

theorem balanced_iff : Balanced f xs ↔ Upright f xs ∧ height f xs = 0 := by
  constructor
  · rintro ⟨w, hw⟩
    have htotal := w.count_U_eq_count_D
    rw [hw] at htotal
    refine ⟨?_, by rw [height]; omega⟩
    rintro before after rfl
    have hpart := w.count_D_le_count_U (before.filterMap f).length
    rw [hw, List.filterMap_append, List.take_left'] at hpart
    · rw [height]
      omega
    · rfl
  · rintro ⟨hupright, htotal⟩
    refine ⟨⟨xs.filterMap f, by rw [height] at htotal; omega, fun i => ?_⟩, rfl⟩
    obtain ⟨before, ⟨after, rfl⟩, htake⟩ :=
      List.prefix_filterMap_iff.1 (List.take_prefix i (xs.filterMap f))
    have hpart := hupright before after rfl
    rw [height] at hpart
    rw [htake]
    omega

/-! ## Partners -/

/-- What is open after some elements was opened by one of them, and after it nothing more is closed
than what was opened in between. -/
theorem exists_open {k : Int} (hk : 0 ≤ k) (h : k < height f xs) :
    ∃ before x after, xs = before ++ x :: after ∧ f x = some .U ∧ Upright f after
      ∧ height f after = k := by
  induction xs using List.reverseRecOn generalizing k with
  | nil =>
    rw [height_nil] at h
    omega
  | append_singleton xs x ih =>
    rw [height_append] at h
    -- What is wanted in front of the last element depends on what that one does.
    have hlast : ∀ k' : Int, 0 ≤ k' → k' + height f [x] = k → k' < height f xs →
        ∃ before y after, xs ++ [x] = before ++ y :: after ∧ f y = some .U ∧ Upright f after
          ∧ height f after = k := by
      intro k' hk' hsum hlt
      obtain ⟨before, y, after, rfl, hy, hupright, hheight⟩ := ih hk' hlt
      have hsame : height f (after ++ [x]) = k := by rw [height_append, hheight, hsum]
      exact ⟨before, y, after ++ [x], by simp, hy,
        upright_concat_iff.2 ⟨hupright, by rw [hsame]; exact hk⟩, hsame⟩
    cases hx : f x with
    | none =>
      rw [height_of_none hx] at h hlast
      exact hlast k hk (by omega) (by omega)
    | some step =>
      cases step with
      | U =>
        rw [height_of_opening hx] at h hlast
        rcases Int.lt_or_eq_of_le hk with hpos | rfl
        · exact hlast (k - 1) (by omega) (by omega) (by omega)
        · exact ⟨xs, x, [], rfl, hx, upright_nil, rfl⟩
      | D =>
        rw [height_of_closing hx] at h hlast
        exact hlast (k + 1) (by omega) (by omega) (by omega)

/-- Where more is closed than was opened, an element closes too much, and up to it all is balanced. -/
theorem exists_closing (h : ¬Upright f xs) :
    ∃ before x after, xs = before ++ x :: after ∧ f x = some .D ∧ Balanced f before := by
  induction xs using List.reverseRecOn with
  | nil => exact absurd upright_nil h
  | append_singleton xs x ih =>
    by_cases hupright : Upright f xs
    · have hneg : height f (xs ++ [x]) < 0 := by
        by_contra hle
        exact h (upright_concat_iff.2 ⟨hupright, by omega⟩)
      have hnonneg := hupright.nonneg
      rw [height_append] at hneg
      cases hx : f x with
      | none =>
        rw [height_of_none hx] at hneg
        omega
      | some step =>
        cases step with
        | U =>
          rw [height_of_opening hx] at hneg
          omega
        | D =>
          rw [height_of_closing hx] at hneg
          exact ⟨xs, x, [], rfl, hx, balanced_iff.2 ⟨hupright, by omega⟩⟩
    · obtain ⟨before, y, after, rfl, hy, hbalanced⟩ := ih hupright
      exact ⟨before, y, after ++ [x], by simp, hy, hbalanced⟩

/-- A closing element up to which all is balanced is not within balanced elements. -/
theorem not_balanced_append_closing (h : Balanced f xs) (hx : f x = some .D) :
    ¬Balanced f (xs ++ x :: ys) := by
  intro hall
  have hpart := (balanced_iff.1 hall).1 (xs ++ [x]) ys (by simp)
  rw [height_append, (balanced_iff.1 h).2, height_of_closing hx] at hpart
  omega

/-- There is one closing element up to which all is balanced. -/
theorem closing_unique (h : Balanced f xs) (h' : Balanced f ys) (hx : f x = some .D)
    (hy : f y = some .D) (heq : xs ++ x :: before = ys ++ y :: after) : xs = ys := by
  rcases List.append_eq_append_iff.1 heq with ⟨more, rfl, hrest⟩ | ⟨more, rfl, hrest⟩
  · cases more with
    | nil => simp
    | cons z more =>
      cases hrest
      exact absurd h' (not_balanced_append_closing h hx)
  · cases more with
    | nil => simp
    | cons z more =>
      cases hrest
      exact absurd h (not_balanced_append_closing h' hy)

/-- Of the opening elements whose brackets are not closed only one has balanced elements after it;
after the others something is open. -/
theorem eq_or_height_pos {xs' ys' : List α} (hbalanced : Balanced f xs') (hupright : Upright f ys')
    (hx : f x = some .U) (hy : f y = some .U) (heq : xs ++ x :: xs' = ys ++ y :: ys') :
    ys = xs ∨ 0 < height f ys' := by
  obtain ⟨hupright', hzero⟩ := balanced_iff.1 hbalanced
  rcases List.append_eq_append_iff.1 heq with ⟨more, rfl, hrest⟩ | ⟨more, rfl, hrest⟩
  · cases more with
    | nil => simp
    | cons z more =>
      -- The second one stands within the balanced elements and would be closed there.
      rw [List.cons_append, List.cons.injEq] at hrest
      obtain ⟨rfl, rfl⟩ := hrest
      have hpart := hupright' more (y :: ys') rfl
      have hnonneg := hupright.nonneg
      rw [height_append, height_cons, height_of_opening hy] at hzero
      omega
  · cases more with
    | nil => simp
    | cons z more =>
      right
      rw [List.cons_append, List.cons.injEq] at hrest
      obtain ⟨rfl, rfl⟩ := hrest
      have hpart := hupright more (x :: xs') rfl
      rw [height_append, height_cons, height_of_opening hx, hzero]
      omega

end BranchingDialogue
