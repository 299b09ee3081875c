import Mathlib.Combinatorics.Pigeonhole
import Mathlib.Data.Finset.Card
import Mathlib.Logic.Relation

/-!
# Steps that repeat

A partial step that comes back to a state goes round for ever: `orbit_total_of_repeat`. Where only
so many states can be told apart, more steps than that mean that one has come back, and so that the
steps never end: `orbit_total_of_card`.

Where no way leads back to where it began, no place is visited twice, so a way has fewer steps than
there are places: `lt_card_of_acyclic`.
-/

namespace BranchingDialogue

variable {σ τ : Type} {f : σ → Option σ} {s : σ}

/-- The state after a number of steps, if all of them can be taken. -/
def orbit (f : σ → Option σ) (s : σ) : Nat → Option σ
  | 0 => some s
  | k + 1 => (orbit f s k).bind f

theorem orbit_add (a k : Nat) : orbit f s (a + k) = (orbit f s a).bind fun t => orbit f t k := by
  induction k with
  | zero => simp [orbit]
  | succ k ih =>
    rw [← Nat.add_assoc, orbit, ih, Option.bind_assoc]
    rfl

theorem orbit_succ' (k : Nat) : orbit f s (k + 1) = (f s).bind fun t => orbit f t k := by
  rw [Nat.add_comm, orbit_add]
  rfl

theorem isSome_orbit_of_le {a b : Nat} (hab : a ≤ b) (h : (orbit f s b).isSome = true) :
    (orbit f s a).isSome = true := by
  obtain ⟨k, rfl⟩ := Nat.exists_eq_add_of_le hab
  rw [orbit_add] at h
  cases ha : orbit f s a with
  | none =>
    rw [ha] at h
    cases h
  | some t => rfl

/-- What every step keeps, any number of steps keeps. -/
theorem orbit_keeps {P : σ → Prop} (hs : P s) (hf : ∀ t u, P t → f t = some u → P u) {k : Nat}
    {t : σ} (h : orbit f s k = some t) : P t := by
  induction k generalizing t with
  | zero =>
    cases h
    exact hs
  | succ k ih =>
    obtain ⟨u, hu, hstep⟩ := Option.bind_eq_some_iff.1 h
    exact hf u t (ih hu) hstep

/-- Steps that have come back to a state never end. -/
theorem orbit_total_of_repeat {a b : Nat} (hab : a < b) (heq : orbit f s a = orbit f s b)
    (hb : (orbit f s b).isSome = true) (k : Nat) : (orbit f s k).isSome = true := by
  induction k using Nat.strongRecOn with
  | ind k ih =>
    by_cases hk : k ≤ b
    · exact isSome_orbit_of_le hk hb
    · -- What is reached after `b` is reached `b - a` steps earlier as well.
      have hlong := orbit_add (f := f) (s := s) b (k - b)
      have hshort := orbit_add (f := f) (s := s) a (k - b)
      rw [← heq, ← hshort, Nat.add_sub_cancel' (by omega)] at hlong
      rw [hlong]
      exact ih _ (by omega)

/-- More steps than there are codes mean that the steps never end, if states of one code are the
same. -/
theorem orbit_total_of_card {P : σ → Prop} (hs : P s) (hf : ∀ t u, P t → f t = some u → P u)
    (code : σ → τ) (hcode : ∀ t u, P t → P u → code t = code u → t = u) (T : Finset τ) {limit : Nat}
    (hT : T.card ≤ limit) (hmem : ∀ k t, k ≤ limit → orbit f s k = some t → code t ∈ T)
    (hlimit : (orbit f s limit).isSome = true) (k : Nat) : (orbit f s k).isSome = true := by
  have hat : ∀ k ≤ limit, ∃ t, orbit f s k = some t := fun k hk =>
    Option.isSome_iff_exists.1 (isSome_orbit_of_le hk hlimit)
  -- One state more than there are codes: two of them, after `a` and `b` steps, have the same code.
  obtain ⟨a, ha, b, hb, hne, hsame⟩ := Finset.exists_ne_map_eq_of_card_lt_of_maps_to
    (s := Finset.range (limit + 1)) (t := T) (f := fun k => code ((orbit f s k).getD s))
    (by rw [Finset.card_range]; omega) (by
      intro k hk
      have hk : k ≤ limit := Nat.lt_succ_iff.1 (Finset.mem_range.1 hk)
      obtain ⟨t, ht⟩ := hat k hk
      simp only [ht, Option.getD_some]
      exact hmem k t hk ht)
  have ha : a ≤ limit := Nat.lt_succ_iff.1 (Finset.mem_range.1 ha)
  have hb : b ≤ limit := Nat.lt_succ_iff.1 (Finset.mem_range.1 hb)
  obtain ⟨t, ht⟩ := hat a ha
  obtain ⟨u, hu⟩ := hat b hb
  simp only [ht, hu, Option.getD_some] at hsame
  have heq : orbit f s a = orbit f s b := by
    rw [ht, hu, hcode t u (orbit_keeps hs hf ht) (orbit_keeps hs hf hu) hsame]
  rcases Nat.lt_or_gt_of_ne hne with hlt | hgt
  · exact orbit_total_of_repeat hlt heq (by rw [hu]; rfl) k
  · exact orbit_total_of_repeat hgt heq.symm (by rw [ht]; rfl) k

/-! ## Ways that do not lead back -/

/-- Nothing leads back to itself. -/
def Acyclic (R : τ → τ → Prop) : Prop := ∀ a, ¬Relation.TransGen R a a

/-- Later places on a way are led to from earlier ones. -/
theorem transGen_of_lt {R : τ → τ → Prop} {p : Nat → τ} {k : Nat}
    (hp : ∀ i < k, R (p i) (p (i + 1))) {a b : Nat} (hab : a < b) (hb : b ≤ k) :
    Relation.TransGen R (p a) (p b) := by
  induction b, hab using Nat.le_induction with
  | base => exact .single (hp a (by omega))
  | succ b hab ih => exact (ih (by omega)).tail (hp b (by omega))

/-- A way among a finite set of places has fewer steps than there are places, if nothing leads back
to itself. -/
theorem lt_card_of_acyclic {R : τ → τ → Prop} (hR : Acyclic R) {p : Nat → τ} {k : Nat}
    (hp : ∀ i < k, R (p i) (p (i + 1))) {T : Finset τ} (hT : ∀ i ≤ k, p i ∈ T) : k < T.card := by
  have hinj : Set.InjOn p (Finset.range (k + 1)) := by
    intro a ha b hb heq
    have ha : a ≤ k := Nat.lt_succ_iff.1 (Finset.mem_range.1 ha)
    have hb : b ≤ k := Nat.lt_succ_iff.1 (Finset.mem_range.1 hb)
    rcases Nat.lt_trichotomy a b with hlt | rfl | hgt
    · exact absurd (heq ▸ transGen_of_lt hp hlt hb) (hR _)
    · rfl
    · exact absurd (heq ▸ transGen_of_lt hp hgt ha) (hR _)
  have hcard := Finset.card_le_card_of_injOn p
    (fun i hi => hT i (Nat.lt_succ_iff.1 (Finset.mem_range.1 hi))) hinj
  rwa [Finset.card_range] at hcard

end BranchingDialogue
