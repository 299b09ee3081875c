import BranchingDialogue.Proofs.Rounding.Special

/-!
# Times in order, with rounding

Times that are strictly ascending and ordinary (`Rising`) need not stay so when the same is done to all
of them: what is rounded may come together, or go off to infinity. They stay in order (`InTurn`), since
rounding keeps the order, and what has come together, or gone off, does not come back. So of an
operation that is monotone in this sense (`Monotonic`) the first is what it may lose and never restores,
and the second what it keeps.
-/

namespace BranchingDialogue

open Binary32

/-- Ordinary times, each before those that follow. -/
structure Rising (times : List Float32) : Prop where
  isFinite : ∀ t ∈ times, t.isFinite = true
  ascending : times.Pairwise (· < ·)

/-- Times that are not undefined, none after those that follow. -/
structure InTurn (times : List Float32) : Prop where
  isNaN : ∀ t ∈ times, t.isNaN = false
  ascending : times.Pairwise (· ≤ ·)

/-- An operation that keeps the order of floats, and does not make ordinary ones of others. -/
structure Monotonic (φ : Float32 → Float32) : Prop where
  isNaN : ∀ x, x.isNaN = false → (φ x).isNaN = false
  isFinite : ∀ x, (φ x).isFinite = true → x.isFinite = true
  exact_le : ∀ x y, x.isNaN = false → y.isNaN = false → exact x ≤ exact y → exact (φ x) ≤ exact (φ y)

variable {φ : Float32 → Float32} {times before after : List Float32} {s t x y length : Float32}

namespace Binary32

/-! ## Comparing ordinary floats -/

theorem lt_of_exact_lt (hx : x.isFinite = true) (hy : y.isFinite = true) (h : exact x < exact y) :
    x < y :=
  (lt_iff (isNaN_of_isFinite hx) (isNaN_of_isFinite hy)).2 h

theorem le_of_exact_le (hx : x.isNaN = false) (hy : y.isNaN = false) (h : exact x ≤ exact y) :
    x ≤ y :=
  (le_iff hx hy).2 h

theorem le_self (hx : x.isNaN = false) : x ≤ x := le_of_exact_le hx hx le_rfl

theorem exact_le_of_not_lt (hx : x.isNaN = false) (hy : y.isNaN = false) (h : ¬y < x) :
    exact x ≤ exact y := by
  rwa [lt_iff hy hx, not_lt] at h

theorem lt_imp_le (h : x < y) : x ≤ y :=
  le_of_exact_le (isNaN_of_lt h).1 (isNaN_of_lt h).2 (exact_lt_of_lt h).le

theorem lt_imp_not_lt (h : x < y) : ¬y < x := fun hlt =>
  (exact_lt_of_lt h).not_gt (exact_lt_of_lt hlt)

theorem lt_of_not_le (hx : x.isNaN = false) (hy : y.isNaN = false) (h : ¬y ≤ x) : x < y := by
  rw [lt_iff hx hy]
  rwa [le_iff hy hx, not_le] at h

theorem lt_trans_le (h : x < y) (h' : y ≤ t) : x < t :=
  (lt_iff (isNaN_of_lt h).1 (isNaN_of_le h').2).2 ((exact_lt_of_lt h).trans_le (exact_le_of_le h'))

theorem le_trans_lt (h : x ≤ y) (h' : y < t) : x < t :=
  (lt_iff (isNaN_of_le h).1 (isNaN_of_lt h').2).2 ((exact_le_of_le h).trans_lt (exact_lt_of_lt h'))

theorem lt_imp_not_le (h : x < y) : ¬y ≤ x := fun hle =>
  (exact_lt_of_lt h).not_ge (exact_le_of_le hle)

theorem beq_eq_false (h : exact x ≠ exact y) : (x == y) = false :=
  Bool.eq_false_iff.2 fun hequal => h (exact_eq_of_beq hequal)

/-! ## Monotone operations -/

theorem monotonic_add (hlength : length.isFinite = true) : Monotonic (· + length) :=
  ⟨fun _ hx => isNaN_add hx hlength, fun _ hx => (isFinite_of_add hx).1,
    fun _ _ hx hy => add_mono hx hy hlength⟩

theorem monotonic_mul (hx : x.isFinite = true) (hpos : 0 < exact x) : Monotonic (· * x) :=
  ⟨fun _ hy => isNaN_mul hy hx hpos, fun _ hy => (isFinite_of_mul hy).1,
    fun _ _ hy hz => mul_mono hy hz hx hpos⟩

end Binary32

/-- What differs afterwards did so before. -/
theorem Monotonic.lt_of_lt (h : Monotonic φ) (hx : (φ x).isFinite = true) (hy : (φ y).isFinite = true)
    (hlt : φ x < φ y) : x < y := by
  have hx' := isNaN_of_isFinite (h.isFinite x hx)
  have hy' := isNaN_of_isFinite (h.isFinite y hy)
  rw [lt_iff hx' hy']
  by_contra hle
  exact absurd (exact_lt_of_lt hlt) (not_lt.2 (h.exact_le y x hy' hx' (not_lt.1 hle)))

/-! ## Lists of times -/

theorem Rising.inTurn (h : Rising times) : InTurn times :=
  ⟨fun t ht => isNaN_of_isFinite (h.isFinite t ht), h.ascending.imp lt_imp_le⟩

theorem rising_append : Rising (before ++ after)
    ↔ Rising before ∧ Rising after ∧ ∀ s ∈ before, ∀ t ∈ after, s < t := by
  constructor
  · intro h
    obtain ⟨hbefore, hafter, hacross⟩ := List.pairwise_append.1 h.ascending
    obtain ⟨hfinite, hfinite'⟩ := List.forall_mem_append.1 h.isFinite
    exact ⟨⟨hfinite, hbefore⟩, ⟨hfinite', hafter⟩, hacross⟩
  · rintro ⟨hbefore, hafter, hacross⟩
    exact ⟨List.forall_mem_append.2 ⟨hbefore.isFinite, hafter.isFinite⟩,
      List.pairwise_append.2 ⟨hbefore.ascending, hafter.ascending, hacross⟩⟩

theorem rising_cons :
    Rising (t :: times) ↔ t.isFinite = true ∧ (∀ s ∈ times, t < s) ∧ Rising times := by
  constructor
  · intro h
    obtain ⟨hfirst, hrest⟩ := List.pairwise_cons.1 h.ascending
    obtain ⟨hfinite, hfinite'⟩ := List.forall_mem_cons.1 h.isFinite
    exact ⟨hfinite, hfirst, hfinite', hrest⟩
  · rintro ⟨hfinite, hfirst, hrest⟩
    exact ⟨List.forall_mem_cons.2 ⟨hfinite, hrest.isFinite⟩,
      List.pairwise_cons.2 ⟨hfirst, hrest.ascending⟩⟩

theorem Rising.sublist (hsub : before.Sublist times) (h : Rising times) : Rising before :=
  ⟨fun t ht => h.isFinite t (hsub.mem ht), h.ascending.sublist hsub⟩

theorem InTurn.sublist (hsub : before.Sublist times) (h : InTurn times) : InTurn before :=
  ⟨fun t ht => h.isNaN t (hsub.mem ht), h.ascending.sublist hsub⟩

theorem InTurn.map (hφ : Monotonic φ) (h : InTurn times) : InTurn (times.map φ) := by
  refine ⟨List.forall_mem_map.2 fun t ht => hφ.isNaN t (h.isNaN t ht),
    List.pairwise_map.2 (h.ascending.imp fun {s t} hst => ?_)⟩
  obtain ⟨hs, ht⟩ := isNaN_of_le hst
  exact le_of_exact_le (hφ.isNaN s hs) (hφ.isNaN t ht) (hφ.exact_le s t hs ht (exact_le_of_le hst))

theorem Rising.of_map (hφ : Monotonic φ) (h : Rising (times.map φ)) : Rising times := by
  have hfinite := List.forall_mem_map.1 h.isFinite
  refine ⟨fun t ht => hφ.isFinite t (hfinite t ht),
    (List.pairwise_map.1 h.ascending).imp_of_mem fun hs ht hst => ?_⟩
  exact hφ.lt_of_lt (hfinite _ hs) (hfinite _ ht) hst

/-- What is before a time is earlier, and what is after it later. -/
theorem Rising.around (h : Rising (before ++ t :: after)) :
    (∀ s ∈ before, s < t) ∧ ∀ s ∈ after, t < s := by
  obtain ⟨-, hafter, hacross⟩ := rising_append.1 h
  exact ⟨fun s hs => hacross s hs t List.mem_cons_self, (rising_cons.1 hafter).2.1⟩

/-- Times follow those that are before the first of them. -/
theorem rising_append_cons (hbefore : ∀ s ∈ before, s < t) :
    Rising (before ++ t :: after) ↔ Rising before ∧ Rising (t :: after) := by
  rw [rising_append]
  refine ⟨fun h => ⟨h.1, h.2.1⟩, fun h => ⟨h.1, h.2, fun s hs => List.forall_mem_cons.2
    ⟨hbefore s hs, fun u hu => ?_⟩⟩⟩
  exact lt_trans_le (hbefore s hs) (lt_imp_le ((rising_cons.1 h.2).2.1 u hu))

theorem InTurn.append_cons (hbefore : ∀ s ∈ before, s < t) (h : InTurn before)
    (hafter : InTurn (t :: after)) : InTurn (before ++ t :: after) := by
  refine ⟨List.forall_mem_append.2 ⟨h.isNaN, hafter.isNaN⟩,
    List.pairwise_append.2 ⟨h.ascending, hafter.ascending, fun s hs u hu => ?_⟩⟩
  have htu : exact t ≤ exact u := by
    rcases List.mem_cons.1 hu with rfl | hu
    · exact le_rfl
    · exact exact_le_of_le ((List.pairwise_cons.1 hafter.ascending).1 u hu)
  exact le_of_exact_le (h.isNaN s hs) (hafter.isNaN u hu)
    ((exact_lt_of_lt (hbefore s hs)).le.trans htu)

/-! ### Times that are equal as numbers -/

section Equal

variable (hst : (s == t) = true)
include hst

theorem lt_of_lt_of_beq (h : x < t) : x < s :=
  (lt_iff (isNaN_of_lt h).1 (isNaN_of_beq hst).1).2
    ((exact_lt_of_lt h).trans_eq (exact_eq_of_beq hst).symm)

theorem isFinite_of_beq : s.isFinite = true ↔ t.isFinite = true := by
  rw [isFinite_iff, isFinite_iff, (isNaN_of_beq hst).1, (isNaN_of_beq hst).2, exact_eq_of_beq hst]

theorem rising_cons_congr : Rising (s :: times) ↔ Rising (t :: times) := by
  rw [rising_cons, rising_cons, isFinite_of_beq hst]
  refine and_congr_right fun _ => and_congr_left fun hrising => forall₂_congr fun u hu => ?_
  have hu' := isNaN_of_isFinite (hrising.isFinite u hu)
  rw [lt_iff (isNaN_of_beq hst).1 hu', lt_iff (isNaN_of_beq hst).2 hu', exact_eq_of_beq hst]

theorem InTurn.cons_congr (h : InTurn (t :: times)) : InTurn (s :: times) := by
  obtain ⟨hfirst, hrest⟩ := List.pairwise_cons.1 h.ascending
  refine ⟨List.forall_mem_cons.2 ⟨(isNaN_of_beq hst).1, (List.forall_mem_cons.1 h.isNaN).2⟩,
    List.pairwise_cons.2 ⟨fun u hu => ?_, hrest⟩⟩
  exact le_of_exact_le (isNaN_of_beq hst).1 (h.isNaN u (List.mem_cons_of_mem t hu))
    ((exact_eq_of_beq hst).trans_le (exact_le_of_le (hfirst u hu)))

end Equal

/-! ## Time that is put in -/

/-- Times with a stretch before them: where it begins, where it ends, and all others later by it. -/
def stretch (t length : Float32) (after : List Float32) : List Float32 :=
  t :: (t + length) :: after.map (· + length)

theorem inTurn_stretch (ht : t.isNaN = false) (hlength : length.isFinite = true)
    (hnonneg : 0 ≤ exact length) (hafter : ∀ s ∈ after, ¬s < t) (h : InTurn after) :
    InTurn (stretch t length after) := by
  have hφ := monotonic_add hlength
  have hle : t ≤ t + length := le_of_exact_le ht (hφ.isNaN t ht) (le_add ht hlength hnonneg)
  have hlater : InTurn ((t :: after).map (· + length)) := by
    refine InTurn.map hφ ⟨List.forall_mem_cons.2 ⟨ht, h.isNaN⟩,
      List.pairwise_cons.2 ⟨fun s hs => ?_, h.ascending⟩⟩
    exact le_of_exact_le ht (h.isNaN s hs) (exact_le_of_not_lt ht (h.isNaN s hs) (hafter s hs))
  refine ⟨List.forall_mem_cons.2 ⟨ht, hlater.isNaN⟩,
    List.pairwise_cons.2 ⟨fun s hs => ?_, hlater.ascending⟩⟩
  rcases List.mem_cons.1 hs with rfl | hs'
  · exact hle
  · have hts := (List.pairwise_cons.1 hlater.ascending).1 s hs'
    exact le_of_exact_le ht (hlater.isNaN s hs)
      ((exact_le_of_le hle).trans (exact_le_of_le hts))

/-- Where a stretch fits in, the times were apart before. -/
theorem Rising.of_stretch (hlength : length.isFinite = true) (h : Rising (stretch t length after)) :
    Rising (t :: after) := by
  have hlater : Rising ((t :: after).map (· + length)) := (rising_cons.1 h).2.2
  exact Rising.of_map (monotonic_add hlength) hlater

end BranchingDialogue
