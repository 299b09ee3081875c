import BranchingDialogue.Proofs.Curve.Change
import Mathlib.Algebra.Order.BigOperators.Group.List

/-!
# Several holds in one curve

A list of holds, each with the time at which it begins on the curve without holds and with its
length, moves what comes after a time by `leadTime`, and keeps the curve for `stayTime` at its value
there. `Holding` states this as a law about the function with holds. It determines the function
(`Holding.unique`), and neither of the two sums looks at the order of the holds.

Holds that are inserted latest first satisfy the law (`spans_foldl`): the one inserted last begins
before all others, so it moves everything they did, and nothing that they did moves it.
-/

namespace BranchingDialogue

/-- How long the holds before a time last together. -/
def leadTime (holds : List (ℚ × ℚ)) (x : ℚ) : ℚ :=
  (holds.map fun h => if h.1 < x then h.2 else 0).sum

/-- How long the holds at a time last together. -/
def stayTime (holds : List (ℚ × ℚ)) (x : ℚ) : ℚ :=
  (holds.map fun h => if h.1 = x then h.2 else 0).sum

variable {holds holds' : List (ℚ × ℚ)} {f F F' : ℚ → ℚ} {t length x : ℚ}

theorem leadTime_cons (t length : ℚ) (holds : List (ℚ × ℚ)) (x : ℚ) :
    leadTime ((t, length) :: holds) x = (if t < x then length else 0) + leadTime holds x :=
  List.sum_cons

theorem stayTime_cons (t length : ℚ) (holds : List (ℚ × ℚ)) (x : ℚ) :
    stayTime ((t, length) :: holds) x = (if t = x then length else 0) + stayTime holds x :=
  List.sum_cons

theorem leadTime_perm (h : holds.Perm holds') : leadTime holds = leadTime holds' :=
  funext fun _ => (h.map _).sum_eq

theorem stayTime_perm (h : holds.Perm holds') : stayTime holds = stayTime holds' :=
  funext fun _ => (h.map _).sum_eq

/-- Nothing comes before a time that no hold is before. -/
theorem leadTime_eq_zero (h : ∀ hold ∈ holds, x ≤ hold.1) : leadTime holds x = 0 := by
  refine List.sum_eq_zero fun y hy => ?_
  obtain ⟨hold, hmem, rfl⟩ := List.mem_map.1 hy
  exact if_neg (not_lt.2 (h hold hmem))

theorem stayTime_eq_zero (h : ∀ hold ∈ holds, x < hold.1) : stayTime holds x = 0 := by
  refine List.sum_eq_zero fun y hy => ?_
  obtain ⟨hold, hmem, rfl⟩ := List.mem_map.1 hy
  exact if_neg (h hold hmem).ne'

theorem leadTime_nonneg (h : ∀ hold ∈ holds, 0 ≤ hold.2) (x : ℚ) : 0 ≤ leadTime holds x := by
  refine List.sum_nonneg fun y hy => ?_
  obtain ⟨hold, hmem, rfl⟩ := List.mem_map.1 hy
  split
  · exact h hold hmem
  · exact le_rfl

theorem stayTime_nonneg (h : ∀ hold ∈ holds, 0 ≤ hold.2) (x : ℚ) : 0 ≤ stayTime holds x := by
  refine List.sum_nonneg fun y hy => ?_
  obtain ⟨hold, hmem, rfl⟩ := List.mem_map.1 hy
  split
  · exact h hold hmem
  · exact le_rfl

/-! ## The law of holds -/

/-- A function with holds, against the one without: what is not held comes later by the holds before
it, and where a hold begins the value stays for as long as the holds there last. -/
structure Holding (holds : List (ℚ × ℚ)) (f F : ℚ → ℚ) : Prop where
  moves : ∀ x, F (x + leadTime holds x) = f x
  stays : ∀ t x, t + leadTime holds t ≤ x → x ≤ t + leadTime holds t + stayTime holds t → F x = f t

/-- The law looks at the two sums only. -/
theorem Holding.congr (h : Holding holds f F) (hlead : ∀ x, leadTime holds x = leadTime holds' x)
    (hstay : ∀ x, stayTime holds x = stayTime holds' x) : Holding holds' f F := by
  obtain ⟨hmoves, hstays⟩ := h
  simp only [hlead, hstay] at hmoves hstays
  exact ⟨hmoves, hstays⟩

theorem Holding.perm (h : Holding holds f F) (hperm : holds.Perm holds') : Holding holds' f F :=
  h.congr (congrFun (leadTime_perm hperm)) (congrFun (stayTime_perm hperm))

theorem holding_nil (f : ℚ → ℚ) : Holding [] f f := by
  have hlead : ∀ x, leadTime [] x = 0 := fun _ => List.sum_nil
  have hstay : ∀ x, stayTime [] x = 0 := fun _ => List.sum_nil
  constructor
  · intro x
    rw [hlead, add_zero]
  · intro t x htx hxt
    rw [hlead, add_zero] at htx hxt
    rw [hstay, add_zero] at hxt
    rw [le_antisymm hxt htx]

/-- One more hold, before the others or where the first of them begins. -/
theorem Holding.held (h : Holding holds f F) (hnonneg : ∀ hold ∈ holds, 0 ≤ hold.2)
    (hlength : 0 < length) (hlater : ∀ hold ∈ holds, t ≤ hold.1) :
    Holding ((t, length) :: holds) f (held F t length) := by
  have hlead : ∀ x ≤ t, leadTime holds x = 0 := fun x hx =>
    leadTime_eq_zero fun hold hmem => hx.trans (hlater hold hmem)
  have hsame : ∀ x ≤ t, F x = f x := fun x hx => by
    have hmoves := h.moves x
    rwa [hlead x hx, add_zero] at hmoves
  constructor
  · intro x
    rw [leadTime_cons]
    rcases le_or_gt x t with hx | hx
    · rw [if_neg (not_lt.2 hx), hlead x hx, add_zero, add_zero, held_of_le hx, hsame x hx]
    · have hmore := leadTime_nonneg hnonneg x
      rw [if_pos hx, held_of_ge hlength (by linarith), ← h.moves x]
      congr 1
      ring
  · intro s x hsx hxs
    rw [leadTime_cons] at hsx hxs
    rw [stayTime_cons] at hxs
    rcases lt_trichotomy s t with hs | rfl | hs
    · -- Before the new hold there is nothing.
      have hstay := stayTime_eq_zero fun hold hmem => hs.trans_le (hlater hold hmem)
      rw [if_neg (not_lt.2 hs.le), hlead s hs.le] at hsx hxs
      rw [if_neg hs.ne', hstay] at hxs
      have hx : x = s := by linarith
      rw [hx, held_of_le hs.le, hsame s hs.le]
    · rw [if_neg (lt_irrefl s), hlead s le_rfl] at hsx hxs
      rw [if_pos rfl] at hxs
      rcases le_or_gt x (s + length) with hx | hx
      · rw [held_of_mem (by linarith) hx, hsame s le_rfl]
      · rw [held_of_ge hlength hx.le]
        refine h.stays s (x - length) ?_ ?_ <;> rw [hlead s le_rfl] <;> linarith
    · have hmore := leadTime_nonneg hnonneg s
      rw [if_pos hs] at hsx hxs
      rw [if_neg hs.ne] at hxs
      rw [held_of_ge hlength (by linarith)]
      exact h.stays s (x - length) (by linarith) (by linarith)

/-! ## No other function -/

theorem moves_or_stays_of_sorted (hsorted : holds.Pairwise fun a b => a.1 ≤ b.1)
    (hnonneg : ∀ hold ∈ holds, 0 ≤ hold.2) (y : ℚ) :
    (∃ x, x + leadTime holds x = y)
      ∨ ∃ t, t + leadTime holds t ≤ y ∧ y ≤ t + leadTime holds t + stayTime holds t := by
  induction holds generalizing y with
  | nil => exact .inl ⟨y, add_zero y⟩
  | cons hold holds ih =>
    obtain ⟨t, length⟩ := hold
    obtain ⟨hfirst, hrest⟩ := List.pairwise_cons.1 hsorted
    obtain ⟨hlength, hothers⟩ := List.forall_mem_cons.1 hnonneg
    have hlead : ∀ x ≤ t, leadTime holds x = 0 := fun x hx =>
      leadTime_eq_zero fun hold hmem => hx.trans (hfirst hold hmem)
    simp only [leadTime_cons, stayTime_cons]
    rcases le_or_gt y t with hy | hy
    · exact .inl ⟨y, by rw [if_neg (not_lt.2 hy), hlead y hy, add_zero, add_zero]⟩
    · rcases le_or_gt y (t + length) with hy' | hy'
      · have hstay := stayTime_nonneg hothers t
        refine .inr ⟨t, ?_⟩
        rw [if_neg (lt_irrefl t), if_pos rfl, hlead t le_rfl]
        exact ⟨by linarith, by linarith⟩
      · -- After the first hold it is the other holds that decide, so much earlier.
        rcases ih hrest hothers (y - length) with ⟨x, hx⟩ | ⟨s, hsy, hys⟩
        · have htx : t < x := by
            by_contra hle
            rw [hlead x (not_lt.1 hle)] at hx
            linarith
          exact .inl ⟨x, by rw [if_pos htx]; linarith⟩
        · refine .inr ⟨s, ?_⟩
          rcases lt_trichotomy s t with hs | rfl | hs
          · rw [hlead s hs.le, stayTime_eq_zero fun hold hmem => hs.trans_le (hfirst hold hmem)]
              at hys
            linarith
          · rw [if_neg (lt_irrefl s), if_pos rfl]
            exact ⟨by linarith, by linarith⟩
          · rw [if_pos hs, if_neg hs.ne]
            exact ⟨by linarith, by linarith⟩

/-- Every time is either one that something comes at or lies in a hold. -/
theorem moves_or_stays (hnonneg : ∀ hold ∈ holds, 0 ≤ hold.2) (y : ℚ) :
    (∃ x, x + leadTime holds x = y)
      ∨ ∃ t, t + leadTime holds t ≤ y ∧ y ≤ t + leadTime holds t + stayTime holds t := by
  -- Neither sum looks at the order, so the holds may be taken in the order of their times.
  have hperm : (holds.mergeSort fun a b => Scalar.ordered a.1 b.1).Perm holds :=
    List.mergeSort_perm holds _
  rw [← leadTime_perm hperm, ← stayTime_perm hperm]
  exact moves_or_stays_of_sorted (pairwise_mergeSort_exact Prod.fst holds)
    (fun hold hmem => hnonneg hold (hperm.mem_iff.1 hmem)) y

theorem Holding.unique (h : Holding holds f F) (h' : Holding holds f F')
    (hnonneg : ∀ hold ∈ holds, 0 ≤ hold.2) : F = F' := by
  funext y
  rcases moves_or_stays hnonneg y with ⟨x, rfl⟩ | ⟨t, hty, hyt⟩
  · rw [h.moves x, h'.moves x]
  · rw [h.stays t y hty hyt, h'.stays t y hty hyt]

/-! ## Holds inserted latest first -/

/-- Holds that are inserted latest first give a curve that satisfies the law. The induction is on
the holds from the last one back: it is inserted into the curve that has all the others. -/
theorem spans_foldl {c : Curve ℚ} {start stop : ℚ} (h : c.Spans f start stop)
    (hsorted : holds.Pairwise fun a b => b.1 ≤ a.1) (hpos : ∀ hold ∈ holds, 0 < hold.2)
    (hwithin : ∀ hold ∈ holds, start ≤ hold.1 ∧ hold.1 ≤ stop) :
    ∃ F, Holding holds f F
      ∧ Curve.Spans (holds.foldl (fun c hold => c.insertHold hold.1 hold.2) c) F start
          (stop + (holds.map (·.2)).sum) := by
  induction holds using List.reverseRecOn with
  | nil => exact ⟨f, holding_nil f, by simpa using h⟩
  | append_singleton holds hold ih =>
    obtain ⟨t, length⟩ := hold
    obtain ⟨hothers, -, hlast⟩ := List.pairwise_append.1 hsorted
    have hpos' : ∀ hold ∈ holds, 0 < hold.2 := fun hold hmem =>
      hpos hold (List.mem_append_left _ hmem)
    have hlength : 0 < length := hpos (t, length) (by simp)
    have hlater : ∀ hold ∈ holds, t ≤ hold.1 := fun hold hmem =>
      hlast hold hmem (t, length) List.mem_cons_self
    obtain ⟨hstart, hstop⟩ := hwithin (t, length) (by simp)
    obtain ⟨F, hF, hspans⟩ := ih hothers hpos' fun hold hmem =>
      hwithin hold (List.mem_append_left _ hmem)
    have hgrown : 0 ≤ (holds.map (·.2)).sum := List.sum_nonneg fun y hy => by
      obtain ⟨hold, hmem, rfl⟩ := List.mem_map.1 hy
      exact (hpos' hold hmem).le
    refine ⟨BranchingDialogue.held F t length, ?_, ?_⟩
    · exact (hF.held (fun hold hmem => (hpos' hold hmem).le) hlength hlater).perm
        (List.perm_append_singleton (t, length) holds).symm
    · have hinsert := hspans.insertHold hlength hstart (t := t) (by
        have : t ≤ stop := hstop
        linarith)
      rw [List.foldl_append, List.map_append, List.sum_append, ← add_assoc]
      simpa using hinsert

end BranchingDialogue
