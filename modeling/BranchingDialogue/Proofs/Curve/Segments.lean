import BranchingDialogue.Proofs.Curve.Blending
import BranchingDialogue.Proofs.Curve.Sound

/-!
# Segments, with rounding

What remains of segments when their cubics are rounded: a step keeps the value of its first key, every
segment begins with it, and a segment whose keys are put off by a length is the same one later, where
this is done without rounding. Evaluation finds the segment of a time, as it does with exact numbers,
since the times of sound keys are in the order that it relies on.
-/

namespace BranchingDialogue

open Binary32 Rounding

variable {keys before after : List (Keyframe Float32)} {c : Curve Float32}
  {a b first last : Keyframe Float32} {x y t length : Float32}

/-! ## Sums that are not rounded -/

namespace Binary32

/-- A sum of floats is not rounded. -/
structure AddsExactly (x y : Float32) : Prop where
  isFinite : (x + y).isFinite = true
  exact_eq : exact (x + y) = exact x + exact y

/-- Two floats are the same number, if any. -/
structure SameNumber (x y : Float32) : Prop where
  isNaN : x.isNaN = y.isNaN
  exact_eq : exact x = exact y

theorem SameNumber.refl (x : Float32) : SameNumber x x := ⟨rfl, rfl⟩

theorem SameNumber.trans {z : Float32} (h : SameNumber x y) (h' : SameNumber y z) : SameNumber x z :=
  ⟨h.isNaN.trans h'.isNaN, h.exact_eq.trans h'.exact_eq⟩

theorem Denotes.sameNumber {q : ℚ} (hx : Denotes x q) (hy : Denotes y q) : SameNumber x y :=
  ⟨by rw [isNaN_of_isFinite hx.isFinite, isNaN_of_isFinite hy.isFinite],
    hx.exact_eq.trans hy.exact_eq.symm⟩

theorem denotes_zero_of_exact (hx : x.isNaN = false) (h : exact x = 0) : Denotes x 0 :=
  ⟨isFinite_iff.2 ⟨hx, by rw [h, abs_zero]; exact limit_pos⟩, h⟩

namespace AddsExactly

variable (hx : AddsExactly x length) (hy : AddsExactly y length)
include hx

theorem isFinite_left : x.isFinite = true := (isFinite_of_add hx.isFinite).1

/-- What is put off is later. -/
theorem lt_add (hlength : Scalar.zero < length) : x < x + length := by
  have hpos := (zero_lt_iff (isNaN_of_lt hlength).2).1 hlength
  refine lt_of_exact_lt hx.isFinite_left hx.isFinite ?_
  rw [hx.exact_eq]
  linarith

include hy

/-- What is put off without rounding keeps its order. -/
theorem lt_of_lt (h : x < y) : x + length < y + length := by
  refine lt_of_exact_lt hx.isFinite hy.isFinite ?_
  rw [hx.exact_eq, hy.exact_eq]
  linarith [exact_lt_of_lt h]

theorem le_of_le (h : x ≤ y) : x + length ≤ y + length := by
  refine le_of_exact_le (isNaN_of_isFinite hx.isFinite) (isNaN_of_isFinite hy.isFinite) ?_
  rw [hx.exact_eq, hy.exact_eq]
  linarith [exact_le_of_le h]

/-- And its distance. -/
theorem exact_sub : exact (y + length - (x + length)) = exact (y - x) := by
  have hlater := nearest_sub hy.isFinite hx.isFinite
  rw [hy.exact_eq, hx.exact_eq, add_sub_add_right_eq_sub] at hlater
  exact hlater.exact_eq_exact (nearest_sub hy.isFinite_left hx.isFinite_left)

theorem sub_eq (hne : exact (y - x) ≠ 0) : y + length - (x + length) = y - x :=
  (eq_of_exact_eq (nearest_sub hy.isFinite_left hx.isFinite_left).isNaN
    (nearest_sub hy.isFinite hx.isFinite).isNaN hne (hx.exact_sub hy).symm).symm

end AddsExactly

end Binary32

/-! ## Segments -/

namespace Keyframe

/-- A slope that is not ordinary, or a rise that is none, makes a step. -/
theorem rises?_eq_none (h : (a.outTangent * (b.time - a.time)).isFinite = false
    ∨ (b.inTangent * (b.time - a.time)).isFinite = false) : a.rises? b = none := by
  unfold rises?
  refine if_pos ?_
  rw [Bool.or_eq_true]
  exact h.imp (congrArg not) (congrArg not)

/-- A step keeps the value of the earlier key. -/
theorem between_step (hlength : ¬b.time - a.time ≤ Scalar.zero) (h : a.rises? b = none)
    (x : Float32) : a.between b x = a.value := by
  unfold between
  dsimp only
  rw [if_neg hlength, h]

/-- Between a key and itself there is its value. -/
theorem between_self (a : Keyframe Float32) (x : Float32) : a.between a x = a.value := by
  by_cases hlength : a.time - a.time ≤ Scalar.zero
  · exact if_pos hlength
  · -- The difference is zero unless the time is infinite or undefined, and then it is not ordinary.
    refine between_step hlength (rises?_eq_none (.inl (Bool.eq_false_iff.2 fun hrise => ?_))) x
    have hfinite := isFinite_of_sub (isFinite_of_mul hrise).2
    have hdifference := nearest_sub hfinite.1 hfinite.2
    rw [sub_self, ← exact_zero] at hdifference
    exact hlength ((le_zero_iff hdifference.isNaN).2
      ((hdifference.exact_le le_rfl).trans_eq exact_zero))

theorem length_pos (ha : a.time.isFinite = true) (hb : b.time.isFinite = true)
    (h : a.time < b.time) : ¬b.time - a.time ≤ Scalar.zero := by
  rw [le_zero_iff (nearest_sub hb ha).isNaN, not_le]
  exact sub_pos_of_lt ha hb (exact_lt_of_lt h)

/-- A segment is a step, or its slopes over its length are ordinary. -/
theorem rises?_cases (a b : Keyframe Float32) : a.rises? b = none
    ∨ (a.outTangent * (b.time - a.time)).isFinite = true
      ∧ (b.inTangent * (b.time - a.time)).isFinite = true
      ∧ a.rises? b = some (a.outTangent * (b.time - a.time), b.inTangent * (b.time - a.time)) := by
  cases hout : (a.outTangent * (b.time - a.time)).isFinite with
  | false => exact .inl (rises?_eq_none (.inl hout))
  | true =>
    cases hin : (b.inTangent * (b.time - a.time)).isFinite with
    | false => exact .inl (rises?_eq_none (.inr hin))
    | true =>
      refine .inr ⟨rfl, rfl, if_neg ?_⟩
      rw [Bool.or_eq_true, not_or]
      exact ⟨fun h => Bool.eq_false_iff.1 (congrArg not hout) h,
        fun h => Bool.eq_false_iff.1 (congrArg not hin) h⟩

/-- A segment begins with the value of its first key. -/
theorem between_start (ha : a.time.isFinite = true) (hb : b.time.isFinite = true)
    (h : a.time < b.time) (hva : a.value.isFinite = true) (hvb : b.value.isFinite = true)
    (hx : Denotes (x - a.time) 0) : Denotes (a.between b x) (exact a.value) := by
  have hpos := length_pos ha hb h
  rcases rises?_cases a b with hstep | ⟨hout, hin, hrises⟩
  · rw [between_step hpos hstep]
    exact denotes_exact hva
  · rw [between_eq_blend hpos hrises]
    have hlength := (isFinite_of_mul hout).2
    have hne := (sub_pos_of_lt ha hb (exact_lt_of_lt h)).ne'
    exact blend_start (denotes_zero_div hx hlength hne) (denotes_exact hva) hout hvb hin

/-- Between equal values, without slopes, the value stays close to them. -/
theorem between_flat {s e value : Float32} (hs : s.isFinite = true) (he : e.isFinite = true)
    (hsx : s ≤ x) (hxe : x ≤ e) (hse : s < e) (hvalue : value.isFinite = true)
    (hsmall : |exact value| ≤ 2 ^ 120) :
    Approximates ((flat s value).between (flat e value) x) (exact value) := by
  have hpos := length_pos (a := .flat s value) (b := .flat e value) hs he hse
  rcases rises?_cases (.flat s value) (.flat e value) with hstep | ⟨hout, -, hrises⟩
  · rw [between_step hpos hstep]
    exact approximates_exact hvalue
  · have hx : x.isFinite = true := isFinite_of_between (isNaN_of_le hsx).2 hs
      (exact_le_of_le hsx) he (exact_le_of_le hxe)
    have hlength : (e - s).isFinite = true := (isFinite_of_mul hout).2
    have hpart := nearest_sub hx hs
    have hnonneg := hpart.le_exact (b := Scalar.zero)
      (by rw [exact_zero]; exact sub_nonneg.2 (exact_le_of_le hsx))
    have hle : exact (x - s) ≤ exact (e - s) := by
      rw [hpart.exact_eq, (nearest_sub he hs).exact_eq]
      exact nearest_mono (sub_le_sub_right (exact_le_of_le hxe) _)
    have hpartFinite := isFinite_of_between hpart.isNaN isFinite_zero hnonneg hlength hle
    have hrise : Denotes (Scalar.zero * (e - s)) 0 := denotes_zero_mul denotes_zero hlength
    rw [between_eq_blend hpos hrises]
    exact blend_flat (inUnit_div hpartFinite hlength (exact_zero ▸ hnonneg)
      (sub_pos_of_lt hs he (exact_lt_of_lt hse)) hle) (denotes_exact hvalue) hrise
      (denotes_exact hvalue) hrise hsmall

/-- **A segment that is put off without rounding is the same one later.** -/
theorem between_delay_rounded (h : a.time < b.time) (hva : a.value.isFinite = true)
    (hvb : b.value.isFinite = true) (ha : AddsExactly a.time length)
    (hb : AddsExactly b.time length) (hx : AddsExactly x length) :
    SameNumber ((a.delay length).between (b.delay length) (x + length)) (a.between b x) := by
  have hta := ha.isFinite_left
  have htb := hb.isFinite_left
  have hlength : (b.delay length).time - (a.delay length).time = b.time - a.time :=
    ha.sub_eq hb (sub_pos_of_lt hta htb (exact_lt_of_lt h)).ne'
  by_cases hzero : exact (x - a.time) = 0
  · -- The distance from the first key is zero, but may be so with another sign.
    have hstart := denotes_zero_of_exact (nearest_sub hx.isFinite_left hta).isNaN hzero
    have hlater := denotes_zero_of_exact (nearest_sub hx.isFinite ha.isFinite).isNaN
      ((ha.exact_sub hx).trans hzero)
    exact (between_start (a := a.delay length) (b := b.delay length) ha.isFinite hb.isFinite
      (ha.lt_of_lt hb h) hva hvb hlater).sameNumber (between_start hta htb h hva hvb hstart)
  · have hpart : x + length - (a.delay length).time = x - a.time := ha.sub_eq hx hzero
    have heq : (a.delay length).between (b.delay length) (x + length) = a.between b x := by
      unfold between rises?
      rw [hlength, hpart]
      rfl
    rw [heq]
    exact SameNumber.refl _

end Keyframe

/-! ## Evaluation -/

namespace Curve

/-- At an undefined time a curve has its first value. -/
theorem evaluate_undefined (hx : x.isNaN = true) (hfirst : first ∈ c.keys.head?) :
    c.evaluate x = first.value := by
  obtain ⟨rest, hkeys⟩ := List.head?_eq_some_iff.1 hfirst
  have hfrom : ∀ s : Float32, ¬s ≤ x := fun s hle => by
    rw [(isNaN_of_le hle).2] at hx
    cases hx
  have hupto : ∀ s : Float32, ¬x ≤ s := fun s hle => by
    rw [(isNaN_of_le hle).1] at hx
    cases hx
  obtain ⟨keys⟩ := c
  obtain rfl : keys = _ := hkeys
  obtain ⟨last, hlast⟩ : ∃ last, (first :: rest).getLast? = some last :=
    ⟨_, List.getLast?_eq_some_getLast (List.cons_ne_nil first rest)⟩
  -- No key is found before the time, so the first one is taken for both ends of a segment.
  have hbisect : bisect (fun k : Keyframe Float32 => decide (k.time ≤ x)) (first :: rest) = 0 :=
    bisect_append (List.forall_mem_nil _) fun k _ => decide_eq_false (hfrom k.time)
  have hinside : ¬(x ≤ first.time ∨ last.time ≤ x) :=
    not_or.2 ⟨hupto first.time, hfrom last.time⟩
  have hsegment : (⟨first :: rest⟩ : Curve Float32).segment? x = some (first, first) := by
    simp only [Curve.segment?, Curve.startTime?, Curve.endTime?, List.head?_cons, hlast,
      Option.map_some, if_neg hinside, hbisect]
    rfl
  simp only [Curve.evaluate, List.head?_cons, hlast, if_neg (hupto first.time),
    if_neg (hfrom last.time), hsegment, Keyframe.between_self]

theorem around_of_rising (hc : Rising c.times) (hkeys : c.keys = before ++ a :: after) :
    (∀ k ∈ before, k.time < a.time) ∧ ∀ k ∈ after, a.time < k.time := by
  rw [times, hkeys, List.map_append, List.map_cons] at hc
  exact hc.around.imp List.forall_mem_map.1 List.forall_mem_map.1

theorem mem_upto_of_head? {k : Keyframe Float32} (h : k ∈ (before ++ a :: after).head?) :
    k ∈ before ++ [a] := by
  cases before <;> cases h <;> simp

/-- What comes after a key comes after all keys up to it. -/
theorem upto_lt (hc : Rising c.times) (hkeys : c.keys = before ++ a :: after) (hat : a.time < t) :
    ∀ k ∈ before ++ [a], k.time < t :=
  List.forall_mem_append.2 ⟨fun k hk =>
    lt_trans_le ((around_of_rising hc hkeys).1 k hk) (lt_imp_le hat), List.forall_mem_singleton.2 hat⟩

theorem head_lt (hc : Rising c.times) (hkeys : c.keys = before ++ a :: after) (hat : a.time < t) :
    ∀ k ∈ c.keys.head?, k.time < t := fun k hk =>
  upto_lt hc hkeys hat k (mem_upto_of_head? (hkeys ▸ hk))

/-- A key that is not the first one comes after the first one. -/
theorem head_lt_of_ne_nil (hc : Rising c.times) (hkeys : c.keys = before ++ a :: after)
    (hne : before ≠ []) (hax : a.time ≤ x) : ∀ k ∈ c.keys.head?, k.time < x := by
  obtain ⟨first, rest, rfl⟩ := List.exists_cons_of_ne_nil hne
  have hbefore := (around_of_rising hc hkeys).1 first List.mem_cons_self
  rw [hkeys]
  rintro k ⟨⟩
  exact lt_trans_le hbefore hax

/-- A time between two keys is not before the keys up to the first one, and before all others. -/
theorem sides_of_rising (hc : Rising c.times) (hkeys : c.keys = before ++ a :: b :: after)
    (hax : a.time ≤ x) (hxb : x < b.time) :
    (∀ k ∈ before ++ [a], k.time ≤ x) ∧ ∀ k ∈ b :: after, x < k.time := by
  have hsplit : c.keys = (before ++ [a]) ++ b :: after :=
    hkeys.trans (List.append_cons before a (b :: after))
  obtain ⟨hbefore, -⟩ := around_of_rising hc hkeys
  obtain ⟨-, hafter⟩ := around_of_rising hc hsplit
  exact ⟨List.forall_mem_append.2 ⟨fun k hk => lt_imp_le (lt_trans_le (hbefore k hk) hax),
      List.forall_mem_singleton.2 hax⟩,
    List.forall_mem_cons.2 ⟨hxb, fun k hk => lt_trans_le hxb (lt_imp_le (hafter k hk))⟩⟩

section Between

variable (hc : Rising c.times) (hkeys : c.keys = before ++ a :: b :: after) (hax : a.time ≤ x)
  (hxb : x < b.time) (hfirst : ∀ k ∈ c.keys.head?, k.time < x)
include hc hkeys hax hxb hfirst

/-- The value between two keys is that of their segment. -/
theorem evaluate_of_mem : c.evaluate x = a.between b x := by
  obtain ⟨hupto, hfrom⟩ := sides_of_rising hc hkeys hax hxb
  obtain ⟨keys⟩ := c
  obtain rfl : keys = _ := hkeys
  exact evaluate_of_neighbours hupto (fun k hk => lt_imp_not_le (hfrom k hk))
    fun k hk => lt_imp_not_le (hfirst k hk)

theorem derivative_of_mem : c.derivative x = a.slopeBetween b x := by
  obtain ⟨hupto, hfrom⟩ := sides_of_rising hc hkeys hax hxb
  obtain ⟨keys⟩ := c
  obtain rfl : keys = _ := hkeys
  exact derivative_of_neighbours hupto (fun k hk => lt_imp_not_le (hfrom k hk))
    fun k hk => lt_imp_not_le (hfirst k hk)

end Between

theorem evaluate_of_ge (hfirst : ∀ k ∈ c.keys.head?, k.time < x) (hlast : last ∈ c.keys.getLast?)
    (hx : last.time ≤ x) : c.evaluate x = last.value :=
  evaluate_of_not_le (fun k hk => lt_imp_not_le (hfirst k hk)) hlast hx

/-- From one key up to the next the value is that of their segment, except that the first key of all has
its own value. -/
theorem evaluate_cases (hc : Rising c.times) (hkeys : c.keys = before ++ a :: b :: after)
    (hax : a.time ≤ x) (hxb : x < b.time) :
    c.evaluate x = a.between b x ∨ x ≤ a.time ∧ c.evaluate x = a.value := by
  cases before with
  | nil =>
    have hhead : c.keys.head? = some a := by rw [hkeys]; rfl
    by_cases hxa : x ≤ a.time
    · exact .inr ⟨hxa, evaluate_of_le hhead hxa⟩
    · refine .inl (evaluate_of_mem hc hkeys hax hxb fun k hk => ?_)
      cases hhead ▸ hk
      exact lt_of_not_le (isNaN_of_le hax).1 (isNaN_of_le hax).2 hxa
  | cons first before =>
    exact .inl (evaluate_of_mem hc hkeys hax hxb
      (head_lt_of_ne_nil hc hkeys (List.cons_ne_nil first before) hax))

/-- At the first of two neighbouring keys a curve has its value. -/
theorem evaluate_first_key (hc : Rising c.times) (hkeys : c.keys = before ++ a :: b :: after)
    (ha : a.value.isFinite = true) (hb : b.value.isFinite = true) :
    SameNumber (c.evaluate a.time) a.value := by
  have hfinite (k : Keyframe Float32) (hk : k ∈ c.keys) : k.time.isFinite = true :=
    hc.isFinite _ (List.mem_map_of_mem hk)
  have hta := hfinite a (by rw [hkeys]; simp)
  have hab := (around_of_rising hc hkeys).2 b List.mem_cons_self
  rcases evaluate_cases hc hkeys (le_self (isNaN_of_isFinite hta)) hab with hvalue | ⟨-, hvalue⟩
  · rw [hvalue]
    exact (Keyframe.between_start hta (hfinite b (by rw [hkeys]; simp)) hab ha hb
      (denotes_sub_self (denotes_exact hta) (denotes_exact hta))).sameNumber (denotes_exact ha)
  · rw [hvalue]
    exact SameNumber.refl _

/-- A curve goes through its keys. -/
theorem evaluate_key (hc : c.Sound) (hkeys : c.keys = before ++ a :: after) :
    SameNumber (c.evaluate a.time) a.value := by
  have hvalue (k : Keyframe Float32) (hk : k ∈ c.keys) : k.value.isFinite = true :=
    (hc.keys k hk).value
  have ha : a ∈ c.keys := by rw [hkeys]; simp
  cases after with
  | cons b after =>
    exact evaluate_first_key hc.times hkeys (hvalue a ha) (hvalue b (by rw [hkeys]; simp))
  | nil =>
    have hale : a.time ≤ a.time :=
      le_self (isNaN_of_isFinite (hc.times.isFinite _ (List.mem_map_of_mem ha)))
    cases before with
    | nil =>
      rw [evaluate_of_le (by rw [hkeys]; rfl) hale]
      exact SameNumber.refl _
    | cons first before =>
      rw [evaluate_of_ge (head_lt_of_ne_nil hc.times hkeys (List.cons_ne_nil first before) hale)
        (by rw [hkeys]; exact List.getLast?_concat) hale]
      exact SameNumber.refl _

/-- A time between two keys lies between neighbours. -/
theorem exists_segment (hkeys : Rising (keys.map (·.time))) (ha : a ∈ keys) (hax : a.time ≤ x)
    (hb : b ∈ keys) (hxb : x < b.time) :
    ∃ before p q after, keys = before ++ p :: q :: after ∧ p.time ≤ x ∧ x < q.time := by
  obtain ⟨before, p, q, after, hsplit, hp, hq⟩ := exists_neighbours_of_pairwise
    (List.pairwise_map.1 hkeys.ascending) (fun k => decide (k.time ≤ x))
    (fun a b hab hb => decide_eq_true (lt_imp_le (lt_trans_le hab (of_decide_eq_true hb))))
    ha (decide_eq_true hax) hb (decide_eq_false (lt_imp_not_le hxb))
  have hqtime : q.time ∈ keys.map (·.time) := List.mem_map_of_mem (by rw [hsplit]; simp)
  exact ⟨before, p, q, after, hsplit, of_decide_eq_true hp, lt_of_not_le (isNaN_of_lt hxb).1
    (hkeys.inTurn.isNaN _ hqtime) (of_decide_eq_false hq)⟩

/-- What comes after a key does not count before it. -/
theorem evaluate_congr_before {c' : Curve Float32} {after' : List (Keyframe Float32)}
    (hc : Rising c.times) (hkeys : c.keys = before ++ a :: after) (hc' : Rising c'.times)
    (hkeys' : c'.keys = before ++ a :: after') (hx : x < a.time) : c'.evaluate x = c.evaluate x := by
  have hhead : c'.keys.head? = c.keys.head? := by
    rw [hkeys, hkeys']
    cases before <;> rfl
  obtain ⟨first, hfirst⟩ : ∃ first, c.keys.head? = some first :=
    ⟨_, List.head?_eq_some_head (by rw [hkeys]; simp)⟩
  by_cases hxfirst : x ≤ first.time
  · rw [evaluate_of_le hfirst hxfirst, evaluate_of_le (hhead.trans hfirst) hxfirst]
  · have hlater : first.time < x := by
      have hdefined := hc.inTurn.isNaN _ (List.mem_map_of_mem (List.mem_of_mem_head? hfirst))
      exact lt_of_not_le hdefined (isNaN_of_lt hx).1 hxfirst
    -- The segment is found among the keys up to that one, which both curves have.
    have hupto : Rising ((before ++ [a]).map (·.time)) := by
      refine hc.sublist ?_
      rw [times, hkeys]
      exact List.Sublist.map _ (by simp)
    have hmem : first ∈ before ++ [a] := mem_upto_of_head? (hkeys ▸ hfirst)
    obtain ⟨early, p, q, late, hsplit, hp, hq⟩ := exists_segment hupto hmem (lt_imp_le hlater)
      (List.mem_append_right before List.mem_cons_self) hx
    have hregroup (rest : List (Keyframe Float32)) :
        before ++ a :: rest = early ++ p :: q :: (late ++ rest) := by
      rw [List.append_cons, hsplit, List.append_assoc, List.cons_append, List.cons_append]
    have hafter : ∀ k ∈ c.keys.head?, k.time < x := fun k hk => by
      cases hfirst ▸ hk
      exact hlater
    rw [evaluate_of_mem hc (hkeys.trans (hregroup after)) hp hq hafter,
      evaluate_of_mem hc' (hkeys'.trans (hregroup after')) hp hq (hhead ▸ hafter)]

/-- **Keys that are put off without rounding are the same curve later.** -/
theorem evaluate_delay_rounded {c' : Curve Float32} {before' : List (Keyframe Float32)}
    (hc : c.Sound) (hkeys : c.keys = before ++ b :: after) (hc' : Rising c'.times)
    (hkeys' : c'.keys = before' ++ (b :: after).map (.delay length))
    (hadd : ∀ k ∈ b :: after, AddsExactly k.time length) (hx : AddsExactly x length)
    (hbx : b.time ≤ x) (hne : before ≠ []) (hne' : before' ≠ []) :
    SameNumber (c'.evaluate (x + length)) (c.evaluate x) := by
  have hbx' : (b.delay length).time ≤ x + length :=
    (hadd b List.mem_cons_self).le_of_le hx hbx
  have hhead := head_lt_of_ne_nil hc.times hkeys hne hbx
  have hhead' := head_lt_of_ne_nil hc' hkeys' hne' hbx'
  obtain ⟨last, hlast⟩ : ∃ last, (b :: after).getLast? = some last :=
    ⟨_, List.getLast?_eq_some_getLast (List.cons_ne_nil b after)⟩
  have hmem := List.mem_of_getLast? hlast
  -- After the last key both have its value. Before it the time lies in a segment of the keys that are
  -- put off, and so does the later time in the later keys.
  by_cases hxlast : last.time ≤ x
  · have hend : last ∈ c.keys.getLast? := by
      rw [hkeys, List.getLast?_append, hlast]
      rfl
    have hend' : last.delay length ∈ c'.keys.getLast? := by
      rw [hkeys', List.getLast?_append, List.getLast?_map, hlast]
      rfl
    rw [evaluate_of_ge hhead hend hxlast,
      evaluate_of_ge hhead' hend' ((hadd last hmem).le_of_le hx hxlast)]
    exact SameNumber.refl _
  · have hfrom : Rising ((b :: after).map (·.time)) := by
      refine hc.times.sublist ?_
      rw [times, hkeys, List.map_append]
      exact List.sublist_append_right _ _
    have hlater : x < last.time :=
      lt_of_not_le (isNaN_of_le hbx).2 (hfrom.inTurn.isNaN _ (List.mem_map_of_mem hmem)) hxlast
    obtain ⟨early, p, q, late, hsplit, hp, hq⟩ :=
      exists_segment hfrom List.mem_cons_self hbx hmem hlater
    have hpmem : p ∈ b :: after := by rw [hsplit]; simp
    have hqmem : q ∈ b :: after := by rw [hsplit]; simp
    have hvalue (k : Keyframe Float32) (hk : k ∈ b :: after) : k.value.isFinite = true :=
      (hc.keys k (hkeys ▸ List.mem_append_right before hk)).value
    have hkeys₁ : c.keys = (before ++ early) ++ p :: q :: late := by
      rw [hkeys, hsplit, List.append_assoc]
    have hkeys₂ : c'.keys = (before' ++ early.map (.delay length)) ++ p.delay length
        :: q.delay length :: late.map (.delay length) := by
      rw [hkeys', hsplit, List.map_append, List.append_assoc]
      rfl
    rw [evaluate_of_mem hc.times hkeys₁ hp hq hhead,
      evaluate_of_mem hc' hkeys₂ ((hadd p hpmem).le_of_le hx hp) (hx.lt_of_lt (hadd q hqmem) hq) hhead']
    exact Keyframe.between_delay_rounded (le_trans_lt hp hq) (hvalue p hpmem) (hvalue q hqmem)
      (hadd p hpmem) (hadd q hqmem) hx

end Curve

end BranchingDialogue
