import BranchingDialogue.Proofs.Curve.Tracing
import Mathlib.Tactic.Linarith

/-!
# What changes make of the function through the keys

Scaling the times stretches the function (`traces_scaled`), and a hold keeps it at its value for a
while and puts off what comes later (`traces_held`). Every hold is one at a key: between two keys, a
key with the value and the slope of their segment may be put there first without changing the
function (`Traces.insert_key`), and that is what inserting a hold does (`exists_hold_key`).

`Curve.Spans` sums this up for whole curves: what function they are, and from when to when.
-/

namespace BranchingDialogue

variable {keys : List (Keyframe ℚ)} {f : ℚ → ℚ} {a b k : Keyframe ℚ} {x t length : ℚ}

/-! ## Keys in any order -/

theorem ascending_of_sameTime? (hsame : Curve.sameTime? keys = none)
    (hle : keys.Pairwise fun a b => a.time ≤ b.time) : Ascending keys := by
  refine ascending_of_isChain ((Curve.isChain_of_sameTime? hsame hle).imp fun a b hab => ?_)
  exact lt_of_le_of_ne hab.1 (of_decide_eq_false hab.2)

/-- An accepted curve has the given keys in ascending order. -/
theorem ofKeys_eq_ok {c : Curve ℚ} (h : Curve.ofKeys keys = .ok c) :
    Ascending c.keys ∧ c.keys.Perm keys := by
  obtain ⟨-, hsorted, hsame⟩ := Curve.ofKeys_eq_ok_iff.1 h
  refine ⟨ascending_of_sameTime? hsame ?_, hsorted ▸ List.mergeSort_perm _ _⟩
  rw [hsorted]
  exact pairwise_mergeSort_exact Keyframe.time keys

theorem sameTime?_of_ascending (h : Ascending keys) : Curve.sameTime? keys = none := by
  fun_induction Curve.sameTime? keys with
  | case1 a b rest hequal =>
    have hab := (List.pairwise_cons.1 h).1 b List.mem_cons_self
    exact absurd (of_decide_eq_true hequal) hab.ne
  | case2 a b rest hequal ih => exact ih (List.pairwise_cons.1 h).2
  | case3 => rfl

/-- Keys in ascending order are accepted as they are. -/
theorem ofKeys_of_ascending (h : Ascending keys) : Curve.ofKeys keys = .ok ⟨keys⟩ :=
  Curve.ofKeys_of_ordered (fun _ _ => rfl) (h.imp fun hab => decide_eq_true hab.le)
    (sameTime?_of_ascending h)

/-! ## Stretching -/

/-- The keys of a curve with its times multiplied by a factor. -/
def stretched (factor : ℚ) (keys : List (Keyframe ℚ)) : List (Keyframe ℚ) :=
  keys.map (Keyframe.scale factor Scalar.one (Scalar.one / factor))

theorem scaled_eq_ok {factor : ℚ} (hfactor : 0 < factor) (c : Curve ℚ) :
    c.scaled factor Scalar.one = .ok ⟨stretched factor c.keys⟩ := by
  rw [Curve.scaled, if_pos ⟨zero_exact ▸ hfactor, rfl⟩]
  rfl

theorem Segment.scale {factor : ℚ} (hfactor : 0 < factor) (h : Segment f a b) :
    Segment (fun x => f (x / factor)) (a.scale factor Scalar.one (Scalar.one / factor))
      (b.scale factor Scalar.one (Scalar.one / factor)) := by
  refine ⟨mul_lt_mul_of_pos_right h.later hfactor, fun x hax hxb => ?_⟩
  have hx := Keyframe.between_scale Scalar.one a b hfactor (x / factor)
  rw [div_mul_cancel₀ x hfactor.ne'] at hx
  rw [hx, one_exact, mul_one]
  exact h.eq_between _ ((le_div_iff₀ hfactor).2 hax) ((div_le_iff₀ hfactor).2 hxb)

theorem traces_scaled {factor : ℚ} (hfactor : 0 < factor) (h : Traces f keys) :
    Traces (fun x => f (x / factor)) (stretched factor keys) := by
  refine ⟨(List.isChain_map _).2 (h.segments.imp fun _ _ => Segment.scale hfactor), ?_, ?_⟩
  · intro k hk x hx
    rw [stretched, List.head?_map] at hk
    obtain ⟨first, hfirst, rfl⟩ := Option.map_eq_some_iff.1 hk
    rw [h.before first hfirst _ ((div_le_iff₀ hfactor).2 hx), Keyframe.scale, one_exact, mul_one]
  · intro k hk x hx
    rw [stretched, List.getLast?_map] at hk
    obtain ⟨last, hlast, rfl⟩ := Option.map_eq_some_iff.1 hk
    rw [h.after last hlast _ ((le_div_iff₀ hfactor).2 hx), Keyframe.scale, one_exact, mul_one]

/-! ## Holding -/

/-- A function that is kept at its value for a while from a time on. -/
def held (f : ℚ → ℚ) (t length x : ℚ) : ℚ :=
  if x ≤ t then f x else if x ≤ t + length then f t else f (x - length)

theorem held_of_le (hx : x ≤ t) : held f t length x = f x := if_pos hx

theorem held_of_mem (hle : t ≤ x) (hx : x ≤ t + length) : held f t length x = f t := by
  rcases hle.eq_or_lt with rfl | hlt
  · exact held_of_le le_rfl
  · rw [held, if_neg (not_le.2 hlt), if_pos hx]

theorem held_of_ge (hlength : 0 < length) (hx : t + length ≤ x) :
    held f t length x = f (x - length) := by
  have hlater : t < x := by linarith
  rw [held, if_neg (not_le.2 hlater)]
  split
  · next hle => rw [show x - length = t by linarith]
  · rfl

theorem Segment.held_before (h : Segment f a b) (hb : b.time ≤ t) :
    Segment (held f t length) a b :=
  ⟨h.later, fun x hax hxb => by rw [held_of_le (hxb.trans hb), h.eq_between x hax hxb]⟩

theorem Segment.held_after (hlength : 0 < length) (h : Segment f a b) (ha : t ≤ a.time) :
    Segment (held f t length) (a.delay length) (b.delay length) := by
  refine ⟨add_lt_add_left h.later length, fun x hax hxb => ?_⟩
  have hax : a.time + length ≤ x := hax
  have hxb : x ≤ b.time + length := hxb
  rw [held_of_ge hlength (by linarith), Keyframe.between_delay h.later (a.delay length) rfl rfl rfl,
    h.eq_between (x - length) (by linarith) (by linarith)]

section AtKey

variable {earlier later : List (Keyframe ℚ)} (hlength : 0 < length)
  (h : Traces f (earlier ++ k :: later))
include hlength h

theorem isChain_held :
    (earlier ++ k.stop :: k.resume length :: later.map (.delay length)).IsChain
      (Segment (held f k.time length)) := by
  obtain ⟨hearlier, hfrom, hacross⟩ := List.isChain_append.1 h.segments
  obtain ⟨hnext, hlater⟩ := List.isChain_cons.1 hfrom
  obtain ⟨-, hascending, hbefore⟩ := List.pairwise_append.1 h.ascending
  have hafter := (List.pairwise_cons.1 hascending).1
  have hflat : Segment (held f k.time length) k.stop (k.resume length) := by
    refine ⟨lt_add_of_pos_right k.time hlength, fun x hkx hxk => ?_⟩
    have hkx : k.time ≤ x := hkx
    rw [held_of_mem hkx hxk, h.eq_value, k.stop_between_resume hlength]
  have hresume : ∀ b ∈ later.head?,
      Segment (held f k.time length) (k.resume length) (b.delay length) := by
    intro b hb
    have hkb := hnext b hb
    refine ⟨add_lt_add_left hkb.later length, fun x hkx hxb => ?_⟩
    have hxb : x ≤ b.time + length := hxb
    rw [held_of_ge hlength hkx, Keyframe.between_delay hkb.later (k.resume length) rfl rfl rfl,
      hkb.eq_between (x - length) (le_sub_iff_add_le.2 hkx) (by linarith)]
  refine List.isChain_append.2 ⟨?_, List.isChain_cons_cons.2 ⟨hflat, List.isChain_cons.2 ⟨?_, ?_⟩⟩, ?_⟩
  · refine hearlier.imp_of_mem_imp fun a b _ hb hab => hab.held_before ?_
    exact (hbefore b hb k List.mem_cons_self).le
  · intro d hd
    rw [List.head?_map] at hd
    obtain ⟨b, hb, rfl⟩ := Option.map_eq_some_iff.1 hd
    exact hresume b hb
  · refine (List.isChain_map _).2 (hlater.imp_of_mem_imp fun a b ha _ hab => ?_)
    exact hab.held_after hlength (hafter a ha).le
  · intro a ha d hd
    cases hd
    -- What leads to the key does not look at how it leaves.
    have hak : Segment (held f k.time length) a k := (hacross a ha k rfl).held_before le_rfl
    exact ⟨hak.later, hak.eq_between⟩

/-- A hold at a key: the key becomes two, between which the curve is flat. -/
theorem traces_held :
    Traces (held f k.time length)
      (earlier ++ k.stop :: k.resume length :: later.map (.delay length)) := by
  obtain ⟨-, hascending, hbefore⟩ := List.pairwise_append.1 h.ascending
  refine ⟨isChain_held hlength h, ?_, ?_⟩
  · intro first hfirst x hx
    cases earlier with
    | nil =>
      cases hfirst
      have hx : x ≤ k.time := hx
      rw [held_of_le hx, h.before k rfl x hx]
      rfl
    | cons a earlier =>
      cases hfirst
      have hfirst := hbefore first List.mem_cons_self k List.mem_cons_self
      rw [held_of_le (hx.trans hfirst.le), h.before first rfl x hx]
  · intro last hlast x hx
    rw [List.getLast?_append, List.getLast?_cons_cons, List.getLast?_cons] at hlast
    cases hend : later.getLast? with
    | none =>
      rw [List.getLast?_eq_none_iff.1 hend] at hlast h
      cases hlast
      have hx : k.time + length ≤ x := hx
      rw [held_of_ge hlength hx, h.after k List.getLast?_concat _ (le_sub_iff_add_le.2 hx)]
      rfl
    | some b =>
      rw [List.getLast?_map, hend] at hlast
      cases hlast
      have hx : b.time + length ≤ x := hx
      have hkb := (List.pairwise_cons.1 hascending).1 b (List.mem_of_getLast? hend)
      have hb : (earlier ++ k :: later).getLast? = some b := by
        rw [List.getLast?_append, List.getLast?_cons, hend]
        rfl
      rw [held_of_ge hlength (by linarith), h.after b hb _ (le_sub_iff_add_le.2 hx)]
      rfl

end AtKey

/-- The key that splits a segment at a time. -/
def splitKey (f : ℚ → ℚ) (a b : Keyframe ℚ) (t : ℚ) : Keyframe ℚ :=
  ⟨t, f t, a.slopeBetween b t, a.slopeBetween b t⟩

/-- A key with the value and the slope of a segment changes nothing. -/
theorem Traces.insert_key {earlier later : List (Keyframe ℚ)}
    (h : Traces f (earlier ++ a :: b :: later)) (hat : a.time < t) (htb : t < b.time) :
    Traces f (earlier ++ a :: splitKey f a b t :: b :: later) := by
  have hab := h.segment
  have hvalue : f t = a.between b t := hab.eq_between t hat.le htb.le
  obtain ⟨hearlier, hrest⟩ := List.isChain_append_cons_cons.1 h.segments
  refine ⟨?_, ?_, ?_⟩
  · refine List.isChain_append_cons_cons.2 ⟨hearlier, ⟨hat, fun x hax hxt => ?_⟩,
      List.isChain_cons_cons.2 ⟨⟨htb, fun x htx hxb => ?_⟩, hrest.2⟩⟩
    · rw [Keyframe.between_split_left hat htb hvalue rfl rfl]
      exact hab.eq_between x hax (hxt.trans htb.le)
    · rw [Keyframe.between_split_right hat htb hvalue rfl rfl]
      exact hab.eq_between x (hat.le.trans htx) hxb
  · intro first hfirst
    refine h.before first ?_
    cases earlier <;> exact hfirst
  · intro last hlast
    refine h.after last ?_
    rw [List.getLast?_append, List.getLast?_cons_cons] at hlast ⊢
    rwa [List.getLast?_cons_cons] at hlast

/-! ### Where a hold is inserted -/

theorem insertHold_at_key {earlier later : List (Keyframe ℚ)} (hlength : 0 < length)
    (hasc : Ascending (earlier ++ k :: later)) :
    Curve.insertHold (⟨earlier ++ k :: later⟩ : Curve ℚ) k.time length
      = ⟨earlier ++ k.stop :: k.resume length :: later.map (.delay length)⟩ := by
  obtain ⟨-, hfrom, hbefore⟩ := List.pairwise_append.1 hasc
  rw [Curve.insertHold_at (zero_exact ▸ not_le.2 hlength)
    (fun a ha => hbefore a ha k List.mem_cons_self)
    (fun b hb => ((List.pairwise_cons.1 hfrom).1 b hb).not_gt) (lt_irrefl _) (decide_eq_true rfl),
    zero_exact]
  rfl

theorem insertHold_between {earlier later : List (Keyframe ℚ)} (hlength : 0 < length)
    (h : Traces f (earlier ++ a :: b :: later)) (hat : a.time < t) (htb : t < b.time) :
    Curve.insertHold (⟨earlier ++ a :: b :: later⟩ : Curve ℚ) t length
      = ⟨(earlier ++ [a]) ++ (splitKey f a b t).stop :: (splitKey f a b t).resume length
          :: (b :: later).map (.delay length)⟩ := by
  have hasc := h.ascending
  have hkeys : earlier ++ a :: b :: later ≠ [] := by simp
  have hvalue := h.evaluate hkeys t
  have hslope : Curve.derivative (⟨earlier ++ a :: b :: later⟩ : Curve ℚ) t
      = a.slopeBetween b t := by
    have hfirst : ∀ k ∈ (earlier ++ a :: b :: later).head?, k.time < t := fun k hk =>
      (hasc.first_le hk (by simp)).trans_lt hat
    rw [Curve.derivative, segment?_eq hasc hfirst hat.le htb]
  have hbefore : ∀ k ∈ earlier ++ [a], k.time < t := fun k hk =>
    (hasc.le_of_mem_upto hk).trans_lt hat
  have hafter : ∀ k ∈ b :: later, ¬k.time < t := fun k hk =>
    (htb.le.trans (hasc.le_of_mem_from hk)).not_gt
  have hsplit : earlier ++ a :: b :: later = (earlier ++ [a]) ++ b :: later := by
    rw [List.append_assoc, List.singleton_append]
  have hne : ∀ k ∈ (b :: later).head?, Scalar.equal k.time t = false := by
    rintro k hk
    cases hk
    exact decide_eq_false htb.ne'
  have hinside : ((earlier ++ [a]).isEmpty || (b :: later).isEmpty) = false := by
    cases earlier <;> rfl
  rw [hsplit] at hvalue hslope hkeys ⊢
  rw [Curve.insertHold_beside (zero_exact ▸ not_le.2 hlength) hbefore hafter hkeys hne]
  simp only [hinside, hvalue, hslope, Bool.false_eq_true, if_false]
  rw [zero_exact]
  rfl

/-- Every hold between the first key and the last one is a hold at a key. -/
theorem exists_hold_key (h : Traces f keys) (hlength : 0 < length) {first last : Keyframe ℚ}
    (hfirst : first ∈ keys.head?) (hstart : first.time ≤ t) (hlast : last ∈ keys.getLast?)
    (hend : t ≤ last.time) :
    ∃ earlier k later, k.time = t ∧ Traces f (earlier ++ k :: later)
      ∧ Curve.insertHold (⟨keys⟩ : Curve ℚ) t length
          = ⟨earlier ++ k.stop :: k.resume length :: later.map (.delay length)⟩
      ∧ (earlier ++ k :: later).head? = keys.head?
      ∧ (earlier ++ k :: later).getLast? = keys.getLast? := by
  obtain ⟨upto, beyond, rfl, hupto, hbeyond⟩ :=
    exists_split_of_pairwise h.ascending (fun k => decide (k.time < t)) fun a b hab hb =>
      decide_eq_true (hab.trans (of_decide_eq_true hb))
  cases beyond with
  | nil =>
    rw [List.append_nil] at hlast
    exact absurd hend (not_le.2 (of_decide_eq_true (hupto last (List.mem_of_getLast? hlast))))
  | cons b later =>
    have htb : t ≤ b.time := not_lt.1 (of_decide_eq_false (hbeyond b List.mem_cons_self))
    rcases htb.eq_or_lt with rfl | htb
    · exact ⟨upto, b, later, rfl, h, insertHold_at_key hlength h.ascending, rfl, rfl⟩
    · -- The first key is not later than the hold, so there is a key before `b`.
      have hne : upto ≠ [] := by
        rintro rfl
        cases hfirst
        exact absurd hstart (not_le.2 htb)
      obtain ⟨earlier, a, rfl⟩ : ∃ earlier a, upto = earlier ++ [a] :=
        ⟨_, _, (List.dropLast_concat_getLast hne).symm⟩
      have hat : a.time < t := of_decide_eq_true (hupto a (by simp))
      have hsplit : (earlier ++ [a]) ++ b :: later = earlier ++ a :: b :: later := by
        rw [List.append_assoc, List.singleton_append]
      rw [hsplit] at h ⊢
      refine ⟨earlier ++ [a], splitKey f a b t, b :: later, rfl, ?_,
        insertHold_between hlength h hat htb, ?_, ?_⟩
      · rw [List.append_assoc, List.singleton_append]
        exact h.insert_key hat htb
      · cases earlier <;> rfl
      · simp only [List.getLast?_append, List.getLast?_cons, Option.some_or, Option.getD_some]

/-! ## Curves as functions over an interval -/

namespace Curve

/-- A curve is a function over the interval from its first key to its last one. -/
structure Spans (c : Curve ℚ) (f : ℚ → ℚ) (start stop : ℚ) : Prop where
  traces : Traces f c.keys
  starts : c.startTime? = some start
  stops : c.endTime? = some stop

variable {c : Curve ℚ} {start stop : ℚ}

theorem Spans.exists_first (h : Spans c f start stop) :
    ∃ first, c.keys.head? = some first ∧ first.time = start :=
  Option.map_eq_some_iff.1 h.starts

theorem Spans.exists_last (h : Spans c f start stop) :
    ∃ last, c.keys.getLast? = some last ∧ last.time = stop :=
  Option.map_eq_some_iff.1 h.stops

theorem Spans.le (h : Spans c f start stop) : start ≤ stop := by
  obtain ⟨first, hfirst, rfl⟩ := h.exists_first
  obtain ⟨last, hlast, rfl⟩ := h.exists_last
  exact h.traces.ascending.first_le hfirst (List.mem_of_getLast? hlast)

theorem Spans.evaluate (h : Spans c f start stop) (x : ℚ) : c.evaluate x = f x := by
  obtain ⟨first, hfirst, -⟩ := h.exists_first
  refine h.traces.evaluate ?_ x
  rintro hnil
  rw [hnil] at hfirst
  cases hfirst

/-- An accepted curve with keys is a function over an interval. -/
theorem exists_spans_of_ofKeys (h : Curve.ofKeys keys = .ok c) (hne : keys ≠ []) :
    ∃ start stop, Spans c c.evaluate start stop := by
  obtain ⟨hasc, hperm⟩ := ofKeys_eq_ok h
  have hkeys : c.keys ≠ [] := fun hnil => hne (by rwa [hnil, List.nil_perm] at hperm)
  exact ⟨(c.keys.head hkeys).time, (c.keys.getLast hkeys).time, traces_evaluate hasc hkeys,
    by rw [Curve.startTime?, List.head?_eq_some_head hkeys, Option.map_some],
    by rw [Curve.endTime?, List.getLast?_eq_some_getLast hkeys, Option.map_some]⟩

/-- Scaling the times stretches the function and its interval. -/
theorem Spans.stretched {factor : ℚ} (hfactor : 0 < factor) (h : Spans c f start stop) :
    Spans ⟨stretched factor c.keys⟩ (fun x => f (x / factor)) (start * factor)
      (stop * factor) := by
  obtain ⟨first, hfirst, rfl⟩ := h.exists_first
  obtain ⟨last, hlast, rfl⟩ := h.exists_last
  refine ⟨traces_scaled hfactor h.traces, ?_, ?_⟩
  · rw [Curve.startTime?, BranchingDialogue.stretched, List.head?_map, hfirst]
    rfl
  · rw [Curve.endTime?, BranchingDialogue.stretched, List.getLast?_map, hlast]
    rfl

/-- A hold keeps the function at its value for a while, and makes the interval longer. -/
theorem Spans.insertHold (h : Spans c f start stop) (hlength : 0 < length) (hstart : start ≤ t)
    (hstop : t ≤ stop) :
    Spans (c.insertHold t length) (held f t length) start (stop + length) := by
  obtain ⟨first, hfirst, rfl⟩ := h.exists_first
  obtain ⟨last, hlast, rfl⟩ := h.exists_last
  obtain ⟨earlier, k, later, rfl, htraces, hinsert, hhead, htail⟩ :=
    exists_hold_key h.traces hlength hfirst hstart hlast hstop
  rw [show c.insertHold k.time length = _ from hinsert]
  refine ⟨traces_held hlength htraces, ?_, ?_⟩
  · rw [Curve.startTime?]
    rw [hfirst] at hhead
    cases earlier <;> cases hhead <;> rfl
  · rw [Curve.endTime?, List.getLast?_append, List.getLast?_cons_cons, List.getLast?_cons,
      List.getLast?_map]
    rw [hlast, List.getLast?_append, List.getLast?_cons] at htail
    cases hend : later.getLast? with
    | none =>
      rw [hend] at htail
      cases htail
      rfl
    | some b =>
      rw [hend] at htail
      cases htail
      rfl

/-! ## Looking a value up -/

theorem narrow_mem (c : Curve ℚ) (value : ℚ) (n : Nat) {low high : ℚ} (h : low ≤ high) :
    low ≤ c.narrow value n low high ∧ c.narrow value n low high ≤ high := by
  induction n generalizing low high with
  | zero => exact ⟨h, le_rfl⟩
  | succ n ih =>
    have hmiddle : (Scalar.half : ℚ) * (low + high) = (low + high) / 2 := by
      rw [half_exact]
      ring
    rw [Curve.narrow, hmiddle]
    split
    · have hle : low ≤ (low + high) / 2 := by linarith
      obtain ⟨hlow, hhigh⟩ := ih hle
      exact ⟨hlow, by linarith⟩
    · have hle : (low + high) / 2 ≤ high := by linarith
      obtain ⟨hlow, hhigh⟩ := ih hle
      exact ⟨by linarith, hhigh⟩

theorem sampleTime_exact (first last : ℚ) (i : Nat) :
    Curve.sampleTime first last i = first + (last - first) * i / 256 := by
  cases i with
  | zero => simp [Curve.sampleTime]
  | succ i =>
    rw [Curve.sampleTime, ofNat_exact, ofNat_exact, Curve.searchSamples]
    norm_num

/-- Samples are taken one after the other, from the first key on up to the last one. -/
theorem sampleTime_mem {first last : ℚ} (hle : first ≤ last) {i : Nat} (hi : i < 256) :
    first ≤ Curve.sampleTime first last i
      ∧ Curve.sampleTime first last i ≤ Curve.sampleTime first last (i + 1)
      ∧ Curve.sampleTime first last (i + 1) ≤ last := by
  have hspan : 0 ≤ last - first := sub_nonneg.2 hle
  have hfrom : 0 ≤ (last - first) * i := mul_nonneg hspan (Nat.cast_nonneg i)
  have hupto : (last - first) * (i + 1) ≤ (last - first) * 256 :=
    mul_le_mul_of_nonneg_left (by exact_mod_cast hi) hspan
  rw [sampleTime_exact, sampleTime_exact, Nat.cast_succ]
  exact ⟨by linarith, by linarith, by linarith⟩

/-- What is found lies between the first key and the last one. -/
theorem Spans.timeFor?_mem {value : ℚ} (h : Spans c f start stop)
    (ht : c.timeFor? value = some t) : start ≤ t ∧ t ≤ stop := by
  have hle := h.le
  obtain ⟨first, hfirst, rfl⟩ := h.exists_first
  obtain ⟨last, hlast, rfl⟩ := h.exists_last
  simp only [Curve.timeFor?, hfirst, hlast] at ht
  split at ht
  · cases ht
    exact ⟨le_rfl, hle⟩
  · obtain ⟨i, hi, rfl⟩ := Option.map_eq_some_iff.1 ht
    have hi : i < 256 := List.mem_range.1 (List.mem_of_find?_eq_some hi)
    obtain ⟨hstart, hnext, hstop⟩ := sampleTime_mem hle hi
    obtain ⟨hlow, hhigh⟩ := narrow_mem c value Curve.halvings hnext
    exact ⟨hstart.trans hlow, hhigh.trans hstop⟩

end Curve

end BranchingDialogue
