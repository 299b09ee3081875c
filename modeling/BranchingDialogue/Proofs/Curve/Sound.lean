import BranchingDialogue.Proofs.Curve.Locating
import BranchingDialogue.Proofs.Curve.Rising
import BranchingDialogue.Proofs.Rounding.Ranked

/-!
# What becomes of the keys of a curve

Keys are asked once whether they make a curve: their times have to be ordinary and strictly ascending,
their values ordinary, their slopes not undefined (`Curve.Sound`). Scaling and holding then compute
other keys from them, round every number for itself, and do not ask again. So times may come together,
and numbers may go off to infinity or become undefined.

What stays is the order: however a curve is reshaped, the times of its keys are not undefined and none
is after the next (`inTurn_foldl`). The keys are sound afterwards exactly if every single step left them
so, and what a step has to leave apart can be told from its own numbers (`Reshaping.Keeps`), since
nothing that is lost comes back (`sound_foldl_iff`).
-/

namespace BranchingDialogue

open Binary32

variable {keys : List (Keyframe Float32)} {c : Curve Float32} {k : Keyframe Float32}
  {t x y length : Float32}

/-! ## Sound keys -/

/-- A key has an ordinary value, and slopes that are not undefined. -/
structure Keyframe.Defined (k : Keyframe Float32) : Prop where
  value : k.value.isFinite = true
  inTangent : k.inTangent.isNaN = false
  outTangent : k.outTangent.isNaN = false

namespace Curve

/-- The times of the keys. -/
def times {α : Type} (c : Curve α) : List α := c.keys.map (·.time)

/-- What is asked of the keys of a curve when it is made. -/
structure Sound (c : Curve Float32) : Prop where
  times : Rising c.times
  keys : ∀ k ∈ c.keys, k.Defined

theorem defined_of_flaw? (h : k.flaw? = none) : k.time.isFinite = true ∧ k.Defined := by
  obtain ⟨htime, hvalue, hin, hout⟩ := flaw?_eq_none_iff.1 h
  exact ⟨htime, hvalue, hin, hout⟩

/-- A curve that is made of keys is sound. -/
theorem sound_of_ofKeys (h : ofKeys keys = .ok c) : c.Sound := by
  obtain ⟨hflaw, hsorted, hsame⟩ := ofKeys_eq_ok_iff.1 h
  have hkeys : ∀ k ∈ c.keys, k.time.isFinite = true ∧ k.Defined := fun k hk =>
    defined_of_flaw? (hflaw k ((List.mergeSort_perm keys _).mem_iff.1 (hsorted ▸ hk)))
  have hrank : c.keys.Pairwise fun a b => rank a.time ≤ rank b.time :=
    hsorted ▸ pairwise_mergeSort_rank Keyframe.time keys
  have hchain : (c.keys.map fun k => exact k.time).IsChain (· < ·) := by
    refine (List.isChain_map _).2 ((isChain_of_sameTime? hsame hrank).imp_of_mem_imp
      fun a b ha hb hab => ?_)
    have ha := isNaN_of_isFinite (hkeys a ha).1
    have hb := isNaN_of_isFinite (hkeys b hb).1
    refine lt_of_le_of_ne (exact_le_of_rank_le ha hb hab.1) fun heq => ?_
    exact Bool.eq_false_iff.1 hab.2 ((beq_iff ha hb).2 heq)
  refine ⟨⟨List.forall_mem_map.2 fun k hk => (hkeys k hk).1, List.pairwise_map.2 ?_⟩,
    fun k hk => (hkeys k hk).2⟩
  refine (List.pairwise_map.1 (List.isChain_iff_pairwise.1 hchain)).imp_of_mem fun ha hb hab => ?_
  exact lt_of_exact_lt (hkeys _ ha).1 (hkeys _ hb).1 hab

/-- Keys without flaws that stand in the order of their times are accepted as they are. -/
theorem ofKeys_of_sorted (hflaw : keys.findSome? Keyframe.flaw? = none)
    (hsorted : keys.Pairwise fun a b => rank a.time ≤ rank b.time) (hsame : sameTime? keys = none) :
    ofKeys keys = .ok ⟨keys⟩ :=
  ofKeys_of_ordered (List.findSome?_eq_none_iff.1 hflaw)
    (hsorted.imp fun hab => decide_eq_true hab) hsame

/-! ## Holding -/

/-- The times of keys between which time was put in. -/
theorem times_held {before after : List (Keyframe Float32)} {a b : Keyframe Float32} :
    times (⟨before ++ a :: b :: after.map (.delay length)⟩ : Curve Float32)
      = before.map (·.time) ++ a.time :: b.time :: (after.map (·.time)).map (· + length) := by
  rw [times, List.map_append, List.map_cons, List.map_cons, List.map_map, List.map_map]
  rfl

/-- Where a time stands among keys in order: at one of them, or between those before and after it. -/
theorem exists_place (h : InTurn c.times) (ht : t.isNaN = false) :
    ∃ before after, (∀ k ∈ before, k.time < t)
      ∧ ((∃ k, c.keys = before ++ k :: after ∧ (k.time == t) = true ∧ ∀ b ∈ after, ¬b.time < t)
        ∨ c.keys = before ++ after ∧ ∀ k ∈ after, t < k.time) := by
  obtain ⟨keys⟩ := c
  have hdefined : ∀ k ∈ keys, k.time.isNaN = false := List.forall_mem_map.1 h.isNaN
  have hasc := List.pairwise_map.1 h.ascending
  obtain ⟨before, after, rfl, hbefore, hafter⟩ :=
    exists_split_of_pairwise hasc (fun k => decide (k.time < t)) fun a b hab hb =>
      decide_eq_true ((lt_iff (isNaN_of_le hab).1 ht).2
        ((exact_le_of_le hab).trans_lt (exact_lt_of_lt (of_decide_eq_true hb))))
  replace hbefore : ∀ k ∈ before, k.time < t := fun k hk => of_decide_eq_true (hbefore k hk)
  replace hafter : ∀ k ∈ after, ¬k.time < t := fun k hk => of_decide_eq_false (hafter k hk)
  cases after with
  | nil => exact ⟨before, [], hbefore, .inr ⟨rfl, nofun⟩⟩
  | cons b rest =>
    have hb := hdefined b (List.mem_append_right before List.mem_cons_self)
    have hrest := fun k hk => hafter k (List.mem_cons_of_mem b hk)
    cases hequal : b.time == t with
    | true => exact ⟨before, rest, hbefore, .inl ⟨b, rfl, hequal, hrest⟩⟩
    | false =>
      -- The first key that is not before the time is after it, and so are all that follow.
      have htb : exact t < exact b.time := by
        refine lt_of_le_of_ne (exact_le_of_not_lt ht hb (hafter b List.mem_cons_self)) fun heq => ?_
        exact Bool.eq_false_iff.1 hequal ((beq_iff hb ht).2 heq.symm)
      refine ⟨before, b :: rest, hbefore, .inr ⟨rfl, List.forall_mem_cons.2
        ⟨(lt_iff ht hb).2 htb, fun k hk => ?_⟩⟩⟩
      have hbk := (List.pairwise_cons.1 (List.pairwise_append.1 hasc).2.1).1 k hk
      exact (lt_iff ht (isNaN_of_le hbk).2).2 (htb.trans_le (exact_le_of_le hbk))

/-- The slope that a hold between keys takes over is that of the curve, which has none outside them. -/
theorem slope_between {before after : List (Keyframe Float32)} (hne : before ++ after ≠ [])
    (hbefore : ∀ k ∈ before, k.time < t) (hafter : ∀ k ∈ after, t < k.time) :
    (if before.isEmpty || after.isEmpty then Scalar.zero
      else derivative (⟨before ++ after⟩ : Curve Float32) t)
        = derivative (⟨before ++ after⟩ : Curve Float32) t := by
  split
  · next hempty =>
    refine (derivative_outside (List.head?_eq_some_head hne)
      (List.getLast?_eq_some_getLast hne) ?_).symm
    rw [Bool.or_eq_true, List.isEmpty_iff, List.isEmpty_iff] at hempty
    rcases hempty with rfl | rfl
    · exact .inl (lt_imp_le (hafter _ (List.head_mem hne)))
    · rw [List.append_nil] at hne
      exact .inr (lt_imp_le (hbefore _ (by simp)))
  · rfl

/-- Between keys a hold puts two new ones, with the value and the slope of the curve. -/
theorem insertHold_apart {before after : List (Keyframe Float32)} (hne : c.keys ≠ [])
    (hlength : ¬length ≤ Scalar.zero) (hkeys : c.keys = before ++ after)
    (hbefore : ∀ k ∈ before, k.time < t) (hafter : ∀ k ∈ after, t < k.time) :
    c.insertHold t length
      = ⟨before ++ ⟨t, c.evaluate t, c.derivative t, Scalar.zero⟩
          :: ⟨t + length, c.evaluate t, Scalar.zero, c.derivative t⟩
          :: after.map (.delay length)⟩ := by
  have hmiss : ∀ k ∈ after.head?, Scalar.equal k.time t = false := fun k hk =>
    beq_eq_false (exact_lt_of_lt (hafter k (List.mem_of_mem_head? hk))).ne'
  obtain ⟨keys⟩ := c
  obtain rfl : keys = _ := hkeys
  have hhold := insertHold_beside hlength hbefore (fun k hk => lt_imp_not_lt (hafter k hk)) hne hmiss
  dsimp only at hhold
  rwa [slope_between hne hbefore hafter] at hhold

/-- **What a hold does to keys in order.** It divides them at its time. A key that is there already
becomes two; else two new keys are put there, with the value and the slope of the curve. -/
theorem insertHold_cases (h : InTurn c.times) (hne : c.keys ≠ []) (ht : t.isNaN = false)
    (hlength : ¬length ≤ Scalar.zero) :
    ∃ before after, (∀ k ∈ before, k.time < t)
      ∧ ((∃ k, c.keys = before ++ k :: after ∧ (k.time == t) = true ∧ (∀ k ∈ after, ¬k.time < t)
          ∧ c.insertHold t length = ⟨before ++ { k with outTangent := Scalar.zero }
              :: ⟨t + length, k.value, Scalar.zero, k.outTangent⟩ :: after.map (.delay length)⟩)
        ∨ (c.keys = before ++ after ∧ (∀ k ∈ after, t < k.time)
          ∧ c.insertHold t length
            = ⟨before ++ ⟨t, c.evaluate t, c.derivative t, Scalar.zero⟩
                :: ⟨t + length, c.evaluate t, Scalar.zero, c.derivative t⟩
                :: after.map (.delay length)⟩)) := by
  obtain ⟨before, after, hbefore, ⟨k, hkeys, hk, hafter⟩ | ⟨hkeys, hafter⟩⟩ := exists_place h ht
  · refine ⟨before, after, hbefore, .inl ⟨k, hkeys, hk, hafter, ?_⟩⟩
    have hkt : ¬k.time < t := fun hlt => (exact_lt_of_lt hlt).ne (exact_eq_of_beq hk)
    obtain ⟨keys⟩ := c
    obtain rfl : keys = _ := hkeys
    exact insertHold_at hlength hbefore hafter hkt hk
  · exact ⟨before, after, hbefore,
      .inr ⟨hkeys, hafter, insertHold_apart hne hlength hkeys hbefore hafter⟩⟩

/-- A hold without keys, or of no length, changes nothing. -/
theorem insertHold_of_trivial (h : c.keys = [] ∨ length ≤ Scalar.zero) :
    c.insertHold t length = c :=
  if_pos (h.imp_left List.isEmpty_iff.2)

theorem exact_pos_of_not_le (hlength : length.isFinite = true) (hpos : ¬length ≤ Scalar.zero) :
    0 < exact length := by
  rwa [le_zero_iff (isNaN_of_isFinite hlength), not_le] at hpos

/-- A hold keeps the times in order. -/
theorem inTurn_insertHold (ht : t.isNaN = false) (hlength : length.isFinite = true)
    (h : InTurn c.times) : InTurn (c.insertHold t length).times := by
  by_cases htrivial : c.keys = [] ∨ length ≤ Scalar.zero
  · rwa [insertHold_of_trivial htrivial]
  · obtain ⟨hne, hpos⟩ := not_or.1 htrivial
    have hnonneg := (exact_pos_of_not_le hlength hpos).le
    obtain ⟨before, after, hbefore, ⟨k, hkeys, hk, hafter, hhold⟩ | ⟨hkeys, hafter, hhold⟩⟩ :=
      insertHold_cases h hne ht hpos
    all_goals
      rw [times, hkeys, List.map_append] at h
      rw [hhold, times_held]
      replace hbefore : ∀ s ∈ before.map Keyframe.time, s < t := List.forall_mem_map.2 hbefore
      have hearlier := h.sublist (List.sublist_append_left _ _)
      have hlater := h.sublist (List.sublist_append_right _ _)
    · have hstretch := inTurn_stretch ht hlength hnonneg (List.forall_mem_map.2 hafter)
        (hlater.sublist (List.sublist_cons_self k.time _))
      exact hearlier.append_cons (fun s hs => lt_of_lt_of_beq hk (hbefore s hs))
        (hstretch.cons_congr hk)
    · refine hearlier.append_cons hbefore (inTurn_stretch ht hlength hnonneg ?_ hlater)
      exact List.forall_mem_map.2 fun k hk => lt_imp_not_lt (hafter k hk)

theorem sound_held_iff {before after : List (Keyframe Float32)} {a b : Keyframe Float32} :
    (⟨before ++ a :: b :: after.map (.delay length)⟩ : Curve Float32).Sound
      ↔ Rising (before.map (·.time) ++ a.time :: b.time :: (after.map (·.time)).map (· + length))
        ∧ (∀ k ∈ before, k.Defined) ∧ a.Defined ∧ b.Defined ∧ ∀ k ∈ after, k.Defined := by
  have hdelay : ∀ k : Keyframe Float32, (k.delay length).Defined ↔ k.Defined := fun k =>
    ⟨fun h => ⟨h.value, h.inTangent, h.outTangent⟩, fun h => ⟨h.value, h.inTangent, h.outTangent⟩⟩
  rw [← times_held]
  constructor
  · intro h
    have hkeys := h.keys
    simp only [List.forall_mem_append, List.forall_mem_cons, List.forall_mem_map, hdelay] at hkeys
    exact ⟨h.times, hkeys⟩
  · rintro ⟨htimes, hkeys⟩
    refine ⟨htimes, ?_⟩
    simp only [List.forall_mem_append, List.forall_mem_cons, List.forall_mem_map, hdelay]
    exact hkeys

theorem filter_later {before after : List Float32} (hbefore : ∀ s ∈ before, ¬t < s)
    (hafter : ∀ s ∈ after, t < s) :
    (before ++ after).filter (fun s => decide (t < s)) = after := by
  rw [List.filter_append, List.filter_eq_nil_iff.2, List.filter_eq_self.2, List.nil_append]
  · exact fun s hs => decide_eq_true (hafter s hs)
  · exact fun s hs hlt => hbefore s hs (of_decide_eq_true hlt)

section Held

variable {before after : List (Keyframe Float32)} {value slope : Float32}
  (hlength : length.isFinite = true) (hbefore : ∀ k ∈ before, k.time < t)
include hlength hbefore

/-- What a hold at a key has to leave apart. -/
theorem sound_held_at_iff (hkeys : c.keys = before ++ k :: after) (hk : (k.time == t) = true) :
    (⟨before ++ { k with outTangent := Scalar.zero }
        :: ⟨t + length, k.value, Scalar.zero, k.outTangent⟩ :: after.map (.delay length)⟩
          : Curve Float32).Sound
      ↔ c.Sound ∧ Rising (stretch t length (c.times.filter fun s => t < s)) := by
  have hbefore' : ∀ s ∈ before.map Keyframe.time, s < k.time :=
    List.forall_mem_map.2 fun b hb => lt_of_lt_of_beq hk (hbefore b hb)
  have htimes : c.times = before.map Keyframe.time ++ k.time :: after.map Keyframe.time := by
    rw [times, hkeys, List.map_append, List.map_cons]
  have hfilter (hafter : ∀ s ∈ after.map Keyframe.time, t < s) :
      c.times.filter (fun s => t < s) = after.map Keyframe.time := by
    rw [htimes, List.append_cons]
    refine filter_later (List.forall_mem_append.2 ⟨?_, ?_⟩) hafter
    · exact List.forall_mem_map.2 fun b hb => lt_imp_not_lt (hbefore b hb)
    · exact List.forall_mem_singleton.2 fun hlt => (exact_lt_of_lt hlt).ne' (exact_eq_of_beq hk)
  rw [sound_held_iff, rising_append_cons hbefore', rising_cons_congr hk]
  constructor
  · rintro ⟨⟨hearlier, hstretch⟩, hdefined, hstop, hresume, hdefined'⟩
    have hfrom : Rising (t :: after.map Keyframe.time) := Rising.of_stretch hlength hstretch
    refine ⟨⟨?_, ?_⟩, ?_⟩
    · rw [htimes, rising_append_cons hbefore', rising_cons_congr hk]
      exact ⟨hearlier, hfrom⟩
    · rw [hkeys]
      exact List.forall_mem_append.2 ⟨hdefined, List.forall_mem_cons.2
        ⟨⟨hstop.value, hstop.inTangent, hresume.outTangent⟩, hdefined'⟩⟩
    · rwa [hfilter (rising_cons.1 hfrom).2.1]
  · rintro ⟨⟨hrising, hdefined⟩, hstretch⟩
    rw [htimes, rising_append_cons hbefore', rising_cons_congr hk] at hrising
    rw [hkeys, List.forall_mem_append, List.forall_mem_cons] at hdefined
    rw [hfilter (rising_cons.1 hrising.2).2.1] at hstretch
    obtain ⟨hearlier, hkey, hlater⟩ := hdefined
    exact ⟨⟨hrising.1, hstretch⟩, hearlier, ⟨hkey.value, hkey.inTangent, isNaN_zero⟩,
      ⟨hkey.value, isNaN_zero, hkey.outTangent⟩, hlater⟩

/-- What a hold between keys has to leave apart. -/
theorem sound_held_between_iff (hkeys : c.keys = before ++ after) (hafter : ∀ k ∈ after, t < k.time) :
    (⟨before ++ ⟨t, value, slope, Scalar.zero⟩ :: ⟨t + length, value, Scalar.zero, slope⟩
        :: after.map (.delay length)⟩ : Curve Float32).Sound
      ↔ c.Sound ∧ Rising (stretch t length (c.times.filter fun s => t < s))
        ∧ value.isFinite = true ∧ slope.isNaN = false := by
  have htimes : c.times = before.map Keyframe.time ++ after.map Keyframe.time := by
    rw [times, hkeys, List.map_append]
  have hbefore' : ∀ s ∈ before.map Keyframe.time, s < t := List.forall_mem_map.2 hbefore
  have hfilter : c.times.filter (fun s => t < s) = after.map Keyframe.time := by
    rw [htimes]
    exact filter_later (fun s hs => lt_imp_not_lt (hbefore' s hs)) (List.forall_mem_map.2 hafter)
  rw [sound_held_iff, rising_append_cons hbefore', hfilter]
  constructor
  · rintro ⟨⟨hearlier, hstretch⟩, hdefined, hstop, hresume, hdefined'⟩
    have hfrom : Rising (t :: after.map Keyframe.time) := Rising.of_stretch hlength hstretch
    refine ⟨⟨?_, ?_⟩, hstretch, hstop.value, hstop.inTangent⟩
    · rw [htimes]
      exact ((rising_append_cons hbefore').2 ⟨hearlier, hfrom⟩).sublist (by simp)
    · rw [hkeys]
      exact List.forall_mem_append.2 ⟨hdefined, hdefined'⟩
  · rintro ⟨⟨hrising, hdefined⟩, hstretch, hvalue, hslope⟩
    rw [htimes] at hrising
    rw [hkeys, List.forall_mem_append] at hdefined
    exact ⟨⟨(rising_append.1 hrising).1, hstretch⟩, hdefined.1, ⟨hvalue, hslope, isNaN_zero⟩,
      ⟨hvalue, isNaN_zero, hslope⟩, hdefined.2⟩

end Held

/-- **What a hold has to leave apart.** Keys are sound after a hold exactly if they were so before, the
time of the hold, its end and all later times, put off by its length, are ordinary and apart, and the
value and the slope that new keys take over from the curve are none that a key cannot have. -/
theorem sound_insertHold_iff (ht : t.isNaN = false) (hlength : length.isFinite = true)
    (h : InTurn c.times) (hne : c.keys ≠ []) (hpos : ¬length ≤ Scalar.zero) :
    (c.insertHold t length).Sound ↔ c.Sound
      ∧ Rising (stretch t length (c.times.filter fun s => t < s))
      ∧ ((∀ s ∈ c.times, (s == t) = false) →
          (c.evaluate t).isFinite = true ∧ (c.derivative t).isNaN = false) := by
  obtain ⟨before, after, hbefore, ⟨k, hkeys, hk, -, hhold⟩ | ⟨hkeys, hafter, hhold⟩⟩ :=
    insertHold_cases h hne ht hpos
  · have hat : ¬∀ s ∈ c.times, (s == t) = false := fun hmiss =>
      Bool.eq_false_iff.1 (hmiss k.time (List.mem_map_of_mem (by rw [hkeys]; simp))) hk
    rw [hhold, sound_held_at_iff hlength hbefore hkeys hk]
    exact and_congr_right fun _ => (and_iff_left fun hmiss => absurd hmiss hat).symm
  · have hmiss : ∀ s ∈ c.times, (s == t) = false := by
      rw [times, hkeys, List.forall_mem_map, List.forall_mem_append]
      exact ⟨fun k hk => beq_eq_false (exact_lt_of_lt (hbefore k hk)).ne,
        fun k hk => beq_eq_false (exact_lt_of_lt (hafter k hk)).ne'⟩
    rw [hhold, sound_held_between_iff hlength hbefore hkeys hafter]
    exact and_congr_right fun _ => and_congr_right fun _ =>
      ⟨fun hnew _ => hnew, fun hnew => hnew hmiss⟩

/-! ## Scaling -/

theorem times_scaled (c : Curve Float32) (x y slope : Float32) :
    times (⟨c.keys.map (.scale x y slope)⟩ : Curve Float32) = c.times.map (· * x) := by
  rw [times, times, List.map_map, List.map_map]
  rfl

/-- What scaling has to leave apart. -/
theorem sound_scaled_iff (hx : x.isFinite = true) (hpos : 0 < exact x) :
    (⟨c.keys.map (.scale x y (y / x))⟩ : Curve Float32).Sound ↔ c.Sound
      ∧ Rising (c.times.map (· * x)) ∧ ∀ k ∈ c.keys, (k.scale x y (y / x)).Defined := by
  constructor
  · intro h
    have hrising := h.times
    have hdefined := List.forall_mem_map.1 h.keys
    rw [times_scaled] at hrising
    refine ⟨⟨hrising.of_map (monotonic_mul hx hpos), fun k hk => ?_⟩, hrising, hdefined⟩
    obtain ⟨hvalue, hin, hout⟩ := hdefined k hk
    exact ⟨(isFinite_of_mul hvalue).1, (isNaN_of_mul hin).1, (isNaN_of_mul hout).1⟩
  · rintro ⟨-, hrising, hdefined⟩
    refine ⟨?_, List.forall_mem_map.2 hdefined⟩
    rwa [times_scaled]

end Curve

/-! ## Reshaping -/

/-- A change of the keys of a curve. -/
inductive Reshaping (α : Type) where
  | scale (x y : α)
  | hold (time length : α)

namespace Reshaping

/-- Reshapes a curve; a scaling that is refused leaves it as it is. -/
def apply {α : Type} [Scalar α] (c : Curve α) : Reshaping α → Curve α
  | .scale x y =>
    match c.scaled x y with
    | .ok c' => c'
    | .error _ => c
  | .hold time length => c.insertHold time length

/-- Scalings by any factors, and holds of an ordinary length at a time that is not undefined. -/
def Proper : Reshaping Float32 → Prop
  | .scale _ _ => True
  | .hold time length => time.isNaN = false ∧ length.isFinite = true

/-- What a change has to leave ordinary and apart, in the numbers that it computes: for a scaling all
times, values and slopes; for a hold its own time, its end and the later times, and the value and the
slope of the curve unless there is a key at that time. -/
def Keeps (c : Curve Float32) : Reshaping Float32 → Prop
  | .scale x y => Scalar.zero < x ∧ x.isFinite = true →
      Rising (c.times.map (· * x)) ∧ ∀ k ∈ c.keys, (k.scale x y (y / x)).Defined
  | .hold time length => c.keys ≠ [] ∧ ¬length ≤ Scalar.zero →
      Rising (stretch time length (c.times.filter fun s => time < s))
        ∧ ((∀ s ∈ c.times, (s == time) = false) →
            (c.evaluate time).isFinite = true ∧ (c.derivative time).isNaN = false)

variable {r : Reshaping Float32} {rs : List (Reshaping Float32)}

theorem apply_scale (c : Curve Float32) (x y : Float32) :
    apply c (.scale x y) = if Scalar.zero < x ∧ x.isFinite = true
      then ⟨c.keys.map (.scale x y (y / x))⟩ else c := by
  by_cases hx : Scalar.zero < x ∧ Scalar.isFinite x = true
  · simp only [apply, Curve.scaled, if_pos hx]
    exact (if_pos hx).symm
  · simp only [apply, Curve.scaled, if_neg hx]
    exact (if_neg hx).symm

/-- **A change keeps the times of the keys in order.** -/
theorem inTurn_apply (hr : r.Proper) (h : InTurn c.times) : InTurn (r.apply c).times := by
  cases r with
  | scale x y =>
    rw [apply_scale]
    split
    · next hx =>
      have hpos := (zero_lt_iff (isNaN_of_isFinite hx.2)).1 hx.1
      rw [Curve.times_scaled]
      exact h.map (monotonic_mul hx.2 hpos)
    · exact h
  | hold time length => exact Curve.inTurn_insertHold hr.1 hr.2 h

/-- **Keys are sound after a change exactly if they were so before and the change keeps them so.** -/
theorem sound_apply_iff (hr : r.Proper) (h : InTurn c.times) :
    (r.apply c).Sound ↔ c.Sound ∧ r.Keeps c := by
  cases r with
  | scale x y =>
    rw [apply_scale]
    split
    · next hx =>
      rw [Curve.sound_scaled_iff hx.2 ((zero_lt_iff (isNaN_of_isFinite hx.2)).1 hx.1)]
      exact and_congr_right fun _ => ⟨fun hkeeps _ => hkeeps, fun hkeeps => hkeeps hx⟩
    · next hx => exact ⟨fun hsound => ⟨hsound, fun hx' => absurd hx' hx⟩, And.left⟩
  | hold time length =>
    by_cases htrivial : c.keys = [] ∨ length ≤ Scalar.zero
    · rw [apply, Curve.insertHold_of_trivial htrivial]
      exact ⟨fun hsound => ⟨hsound, fun hnot => absurd htrivial (not_or.2 hnot)⟩, And.left⟩
    · have hnot := not_or.1 htrivial
      rw [apply, Curve.sound_insertHold_iff hr.1 hr.2 h hnot.1 hnot.2]
      exact and_congr_right fun _ => ⟨fun hkeeps _ => hkeeps, fun hkeeps => hkeeps hnot⟩

/-- However a curve is reshaped, the times of its keys stay in order. -/
theorem inTurn_foldl (hrs : ∀ r ∈ rs, r.Proper) (h : InTurn c.times) :
    InTurn (rs.foldl apply c).times := by
  induction rs generalizing c with
  | nil => exact h
  | cons r rs ih =>
    obtain ⟨hr, hrs⟩ := List.forall_mem_cons.1 hrs
    exact ih hrs (inTurn_apply hr h)

/-- After changes keys are sound exactly if every change kept them so. -/
theorem sound_foldl_iff (hrs : ∀ r ∈ rs, r.Proper) (h : InTurn c.times) :
    (rs.foldl apply c).Sound
      ↔ c.Sound ∧ ∀ before r after, rs = before ++ r :: after → r.Keeps (before.foldl apply c) := by
  induction rs generalizing c with
  | nil => exact ⟨fun hsound => ⟨hsound, by simp⟩, And.left⟩
  | cons r rs ih =>
    obtain ⟨hr, hrs⟩ := List.forall_mem_cons.1 hrs
    rw [List.foldl_cons, ih hrs (inTurn_apply hr h), sound_apply_iff hr h, and_assoc]
    refine and_congr_right fun _ => ⟨?_, fun hkeeps => ⟨hkeeps [] r rs rfl, ?_⟩⟩
    · rintro ⟨hkeeps, hlater⟩ before r' after hsplit
      cases before with
      | nil =>
        cases hsplit
        exact hkeeps
      | cons r before =>
        cases hsplit
        exact hlater before r' after rfl
    · rintro before r' after rfl
      exact hkeeps (r :: before) r' after rfl

end Reshaping

end BranchingDialogue
