import BranchingDialogue.Proofs.Curve.Change

/-!
# Holds outside the keys

A hold before the first key or after the last one is a hold at a flat key that is put there first. So
outside the keys, where the curve kept its value, there is now a segment between the flat key and the
end key, and this segment has the slope of the end key: the one with which the curve would have
arrived at the first key, or left the last one, and which had no meaning before.

Unless that slope is zero the curve therefore swells out before its first key, or after its last one,
by up to a part of the slope times the distance of the hold (`swell`). Only where it is zero, a hold
outside the keys adds a flat stretch and nothing else.

Main result: `evaluate_insertHold_outside`.
-/

namespace BranchingDialogue

variable {keys before rest : List (Keyframe ℚ)} {f : ℚ → ℚ} {a b k : Keyframe ℚ} {x t length : ℚ}

/-! ## Segments between equal values -/

/-- How far a segment between two equal values swells out, by the part of it that is left before the
end with the slope, for a slope of one over a length of one. -/
def swell (part : ℚ) : ℚ := part ^ 2 * (1 - part)

/-- From a flat key to a key with the same value. -/
theorem Keyframe.between_arriving (h : a.time < b.time) (hvalue : a.value = b.value)
    (hflat : a.outTangent = 0) (x : ℚ) :
    a.between b x = b.value - b.inTangent * (b.time - a.time)
      * swell ((x - a.time) / (b.time - a.time)) := by
  have hd : b.time - a.time ≠ 0 := sub_ne_zero.2 h.ne'
  rw [Keyframe.between, if_neg (Cubic.length_pos_exact h)]
  simp only [Cubic.rises?_exact, ofNat_exact, hvalue, hflat, swell, Nat.cast_ofNat]
  field_simp
  ring

/-- From a key to a flat key with the same value. -/
theorem Keyframe.between_leaving (h : a.time < b.time) (hvalue : b.value = a.value)
    (hflat : b.inTangent = 0) (x : ℚ) :
    a.between b x = a.value + a.outTangent * (b.time - a.time)
      * swell ((b.time - x) / (b.time - a.time)) := by
  have hd : b.time - a.time ≠ 0 := sub_ne_zero.2 h.ne'
  rw [Keyframe.between, if_neg (Cubic.length_pos_exact h)]
  simp only [Cubic.rises?_exact, ofNat_exact, hvalue, hflat, swell, Nat.cast_ofNat]
  field_simp
  ring

/-- Half way a segment swells out. -/
theorem swell_half : swell (1 / 2) = 1 / 8 := by norm_num [swell]

/-! ## Another key at the end -/

/-- A function that ends with another key, after those that it goes through. -/
def ended (f : ℚ → ℚ) (a b : Keyframe ℚ) (x : ℚ) : ℚ :=
  if x ≤ a.time then f x else if x ≤ b.time then a.between b x else b.value

theorem ended_of_le (hx : x ≤ a.time) : ended f a b x = f x := if_pos hx

theorem Traces.ended_of_mem (h : Traces f (before ++ [a])) (hab : a.time < b.time)
    (hax : a.time ≤ x) (hxb : x ≤ b.time) : ended f a b x = a.between b x := by
  rcases hax.eq_or_lt with rfl | hlt
  · rw [ended_of_le le_rfl, Keyframe.between_left hab, h.eq_value]
  · rw [ended, if_neg (not_le.2 hlt), if_pos hxb]

theorem ended_of_ge (hab : a.time < b.time) (hx : b.time ≤ x) : ended f a b x = b.value := by
  rw [ended, if_neg (not_le.2 (hab.trans_le hx))]
  rcases hx.eq_or_lt with rfl | hlt
  · rw [if_pos le_rfl, Keyframe.between_right hab]
  · rw [if_neg (not_le.2 hlt)]

theorem Traces.concat (h : Traces f (before ++ [a])) (hab : a.time < b.time) :
    Traces (ended f a b) (before ++ [a] ++ [b]) := by
  have hlast : (before ++ [a]).getLast? = some a := List.getLast?_concat
  refine ⟨?_, ?_, ?_⟩
  · refine List.isChain_append.2 ⟨?_, .singleton b, ?_⟩
    · refine h.segments.imp_of_mem_imp fun c d _ hd hcd => ⟨hcd.later, fun x hcx hxd => ?_⟩
      have hda : d.time ≤ a.time := h.ascending.le_last hlast hd
      rw [ended_of_le (hxd.trans hda), hcd.eq_between x hcx hxd]
    · intro c hc d hd
      rw [hlast] at hc
      cases hc
      cases hd
      exact ⟨hab, fun x => h.ended_of_mem hab⟩
  · intro first hfirst x hx
    have hhead : first ∈ (before ++ [a]).head? := by
      cases before <;> exact hfirst
    have hfa : first.time ≤ a.time := h.ascending.first_le hhead (by simp)
    rw [ended_of_le (hx.trans hfa), h.before first hhead x hx]
  · intro last hlast' x hx
    rw [List.getLast?_concat] at hlast'
    cases hlast'
    exact ended_of_ge hab hx

/-! ## Holding outside the keys -/

/-- Before the first key, a hold is one at a flat key with the value of the first key. -/
theorem insertHold_before (hlength : 0 < length) (h : Traces f (k :: rest)) (ht : t < k.time) :
    Curve.insertHold (⟨k :: rest⟩ : Curve ℚ) t length
      = ⟨(Keyframe.flat t k.value).stop :: (Keyframe.flat t k.value).resume length
          :: (k :: rest).map (.delay length)⟩ := by
  have hafter : ∀ b ∈ k :: rest, ¬b.time < t := fun b hb =>
    (ht.le.trans (h.ascending.first_le rfl hb)).not_gt
  have hne : ∀ b ∈ (k :: rest).head?, Scalar.equal b.time t = false := by
    rintro b hb
    cases hb
    exact decide_eq_false ht.ne'
  have hvalue := h.evaluate (List.cons_ne_nil k rest) t
  have hbefore : ∀ b ∈ ([] : List (Keyframe ℚ)), b.time < t := List.forall_mem_nil _
  have hhold := Curve.insertHold_beside (zero_exact ▸ not_le.2 hlength) hbefore hafter
    (List.cons_ne_nil k rest) hne
  rw [List.nil_append] at hhold
  rw [hhold, hvalue, h.before k rfl t ht.le]
  rfl

/-- After the last key, it is one at a flat key with the value of the last key. -/
theorem insertHold_after (hlength : 0 < length) (h : Traces f (before ++ [k])) (ht : k.time < t) :
    Curve.insertHold (⟨before ++ [k]⟩ : Curve ℚ) t length
      = ⟨before ++ [k] ++ (Keyframe.flat t k.value).stop
          :: [(Keyframe.flat t k.value).resume length]⟩ := by
  have hlast : (before ++ [k]).getLast? = some k := List.getLast?_concat
  have hbefore : ∀ b ∈ before ++ [k], b.time < t := fun b hb =>
    (h.ascending.le_last hlast hb).trans_lt ht
  have hkeys : before ++ [k] ≠ [] := by simp
  have hvalue := h.evaluate hkeys t
  have hafter : ∀ b ∈ ([] : List (Keyframe ℚ)), ¬b.time < t := List.forall_mem_nil _
  have hhold := Curve.insertHold_beside (zero_exact ▸ not_le.2 hlength) hbefore hafter
    (by rwa [List.append_nil]) nofun
  rw [List.append_nil] at hhold
  rw [hhold, hvalue, h.after k hlast t ht.le]
  simp only [List.isEmpty_nil, Bool.or_true, if_true]
  rfl

section Before

variable (hlength : 0 < length) (h : Traces f (k :: rest)) (ht : t < k.time)
include hlength h ht

/-- What a hold before the first key makes of a curve. -/
theorem evaluate_insertHold_before (x : ℚ) :
    (Curve.insertHold (⟨k :: rest⟩ : Curve ℚ) t length).evaluate x
      = held (begun f (.flat t k.value) k) t length x := by
  rw [insertHold_before hlength h ht]
  have hbegun : Traces (begun f (.flat t k.value) k) ([] ++ .flat t k.value :: k :: rest) := h.cons ht
  exact (traces_held hlength hbegun).evaluate (List.cons_ne_nil _ _) x

theorem insertHold_before_of_le (hx : x ≤ t + length) :
    (Curve.insertHold (⟨k :: rest⟩ : Curve ℚ) t length).evaluate x = k.value := by
  rw [evaluate_insertHold_before hlength h ht]
  rcases le_total x t with hxt | htx
  · rw [held_of_le hxt]
    exact begun_of_le hxt
  · rw [held_of_mem htx hx]
    exact begun_of_le le_rfl

theorem insertHold_before_of_mem (hx : t + length ≤ x) (hxk : x ≤ k.time + length) :
    (Curve.insertHold (⟨k :: rest⟩ : Curve ℚ) t length).evaluate x
      = k.value - k.inTangent * (k.time - t) * swell ((x - (t + length)) / (k.time - t)) := by
  have hmem : begun f (.flat t k.value) k (x - length)
      = (Keyframe.flat t k.value).between k (x - length) :=
    begun_of_mem ht (le_sub_iff_add_le.2 hx) (sub_le_iff_le_add.2 hxk)
  have harriving := Keyframe.between_arriving (a := .flat t k.value) (b := k) ht rfl zero_exact
    (x - length)
  rw [evaluate_insertHold_before hlength h ht, held_of_ge hlength hx, hmem, harriving, Keyframe.flat,
    sub_sub, add_comm length t]

theorem insertHold_before_of_ge (hx : k.time + length ≤ x) :
    (Curve.insertHold (⟨k :: rest⟩ : Curve ℚ) t length).evaluate x = f (x - length) := by
  have hlater : t + length ≤ x := by linarith
  rw [evaluate_insertHold_before hlength h ht, held_of_ge hlength hlater]
  exact h.begun_of_ge ht (le_sub_iff_add_le.2 hx)

/-- **A hold before the first key is flat, and no more, exactly if the curve arrives there without
slope.** -/
theorem insertHold_before_eq_iff :
    (∀ x, (Curve.insertHold (⟨k :: rest⟩ : Curve ℚ) t length).evaluate x
        = if x ≤ k.time + length then k.value else f (x - length)) ↔ k.inTangent = 0 := by
  constructor
  · intro hflat
    -- Half way between the end of the hold and the first key, as it stands now.
    have hmiddle := hflat ((t + length + (k.time + length)) / 2)
    rw [insertHold_before_of_mem hlength h ht (by linarith) (by linarith), if_pos (by linarith)]
      at hmiddle
    have hpart : ((t + length + (k.time + length)) / 2 - (t + length)) / (k.time - t) = 1 / 2 := by
      have hd : k.time - t ≠ 0 := sub_ne_zero.2 ht.ne'
      field_simp
      ring
    rw [hpart, swell_half, sub_eq_self] at hmiddle
    have hd : k.time - t ≠ 0 := sub_ne_zero.2 ht.ne'
    simpa [hd] using hmiddle
  · intro hslope x
    split
    · next hxk =>
      rcases le_total x (t + length) with hx | hx
      · exact insertHold_before_of_le hlength h ht hx
      · rw [insertHold_before_of_mem hlength h ht hx hxk, hslope, zero_mul, zero_mul, sub_zero]
    · next hxk => exact insertHold_before_of_ge hlength h ht (not_le.1 hxk).le

end Before

section After

variable (hlength : 0 < length) (h : Traces f (before ++ [k])) (ht : k.time < t)
include hlength h ht

/-- What a hold after the last key makes of a curve. -/
theorem evaluate_insertHold_after (x : ℚ) :
    (Curve.insertHold (⟨before ++ [k]⟩ : Curve ℚ) t length).evaluate x
      = held (ended f k (.flat t k.value)) t length x := by
  rw [insertHold_after hlength h ht]
  have hended : Traces (ended f k (.flat t k.value)) (before ++ [k] ++ .flat t k.value :: []) :=
    h.concat ht
  exact (traces_held hlength hended).evaluate (by simp) x

theorem insertHold_after_of_le (hx : x ≤ k.time) :
    (Curve.insertHold (⟨before ++ [k]⟩ : Curve ℚ) t length).evaluate x = f x := by
  rw [evaluate_insertHold_after hlength h ht, held_of_le (hx.trans ht.le), ended_of_le hx]

theorem insertHold_after_of_mem (hx : k.time ≤ x) (hxt : x ≤ t) :
    (Curve.insertHold (⟨before ++ [k]⟩ : Curve ℚ) t length).evaluate x
      = k.value + k.outTangent * (t - k.time) * swell ((t - x) / (t - k.time)) := by
  have hleaving := Keyframe.between_leaving (a := k) (b := .flat t k.value) ht rfl zero_exact x
  rw [evaluate_insertHold_after hlength h ht, held_of_le hxt, h.ended_of_mem ht hx hxt, hleaving]
  rfl

theorem insertHold_after_of_ge (hx : t ≤ x) :
    (Curve.insertHold (⟨before ++ [k]⟩ : Curve ℚ) t length).evaluate x = k.value := by
  have hend : ∀ y, t ≤ y → ended f k (.flat t k.value) y = k.value := fun y hy => ended_of_ge ht hy
  rw [evaluate_insertHold_after hlength h ht]
  rcases le_total x (t + length) with hxt | hxt
  · rw [held_of_mem hx hxt, hend t le_rfl]
  · rw [held_of_ge hlength hxt, hend _ (le_sub_iff_add_le.2 hxt)]

/-- **A hold after the last key changes nothing exactly if the curve would leave it without slope.** -/
theorem insertHold_after_eq_iff :
    (∀ x, (Curve.insertHold (⟨before ++ [k]⟩ : Curve ℚ) t length).evaluate x = f x)
      ↔ k.outTangent = 0 := by
  have hlast : (before ++ [k]).getLast? = some k := List.getLast?_concat
  constructor
  · intro hsame
    have hmiddle := hsame ((k.time + t) / 2)
    rw [insertHold_after_of_mem hlength h ht (by linarith) (by linarith),
      h.after k hlast _ (by linarith)] at hmiddle
    have hd : t - k.time ≠ 0 := sub_ne_zero.2 ht.ne'
    have hpart : (t - (k.time + t) / 2) / (t - k.time) = 1 / 2 := by
      field_simp
      ring
    rw [hpart, swell_half, add_eq_left] at hmiddle
    simpa [hd] using hmiddle
  · intro hslope x
    rcases le_total x k.time with hx | hx
    · exact insertHold_after_of_le hlength h ht hx
    · rw [h.after k hlast x hx]
      rcases le_total x t with hxt | hxt
      · rw [insertHold_after_of_mem hlength h ht hx hxt, hslope, zero_mul, zero_mul, add_zero]
      · exact insertHold_after_of_ge hlength h ht hxt

end After

/-- **A hold outside the keys adds a flat stretch, and a swelling for the slope of the end key.**

Before the first key: the curve keeps the value of that key until the hold ends; between then and
the key, which comes later by the length of the hold, it swells out by the slope with which the curve
arrives at the key; from there on it is the curve as it was, later. After the last key: up to that key
it is the curve as it was; between the key and the hold it swells out by the slope with which the
curve leaves the key; from there on it has the value of the key. So a hold before the first key adds
nothing but a flat stretch exactly if the curve arrives there without slope, and one after the last
key changes nothing exactly if the curve leaves it without slope. -/
theorem evaluate_insertHold_outside {c : Curve ℚ} (hkeys : Curve.ofKeys keys = .ok c)
    (hne : keys ≠ []) (hlength : 0 < length) :
    ∃ first last, c.keys.head? = some first ∧ c.keys.getLast? = some last
      ∧ (∀ t < first.time,
          (∀ x ≤ t + length, (c.insertHold t length).evaluate x = first.value)
            ∧ (∀ x, t + length ≤ x → x ≤ first.time + length →
                (c.insertHold t length).evaluate x
                  = first.value - first.inTangent * (first.time - t)
                      * swell ((x - (t + length)) / (first.time - t)))
            ∧ (∀ x, first.time + length ≤ x →
                (c.insertHold t length).evaluate x = c.evaluate (x - length))
            ∧ ((∀ x, (c.insertHold t length).evaluate x
                  = if x ≤ first.time + length then first.value else c.evaluate (x - length))
                ↔ first.inTangent = 0))
      ∧ ∀ t, last.time < t →
          (∀ x ≤ last.time, (c.insertHold t length).evaluate x = c.evaluate x)
            ∧ (∀ x, last.time ≤ x → x ≤ t →
                (c.insertHold t length).evaluate x
                  = last.value + last.outTangent * (t - last.time)
                      * swell ((t - x) / (t - last.time)))
            ∧ (∀ x, t ≤ x → (c.insertHold t length).evaluate x = last.value)
            ∧ ((∀ x, (c.insertHold t length).evaluate x = c.evaluate x) ↔ last.outTangent = 0) := by
  obtain ⟨hasc, hperm⟩ := ofKeys_eq_ok hkeys
  have hne' : c.keys ≠ [] := fun hnil => hne (by rwa [hnil, List.nil_perm] at hperm)
  have htraces : Traces c.evaluate c.keys := traces_evaluate hasc hne'
  obtain ⟨cs⟩ := c
  refine ⟨cs.head hne', cs.getLast hne', List.head?_eq_some_head hne',
    List.getLast?_eq_some_getLast hne', fun t ht => ?_, fun t ht => ?_⟩
  · obtain ⟨k, rest, rfl⟩ := List.exists_cons_of_ne_nil hne'
    exact ⟨fun x => insertHold_before_of_le hlength htraces ht,
      fun x => insertHold_before_of_mem hlength htraces ht,
      fun x => insertHold_before_of_ge hlength htraces ht,
      insertHold_before_eq_iff hlength htraces ht⟩
  · obtain ⟨before, k, rfl⟩ : ∃ before k, cs = before ++ [k] :=
      ⟨_, _, (List.dropLast_concat_getLast hne').symm⟩
    rw [List.getLast_append_singleton] at ht ⊢
    exact ⟨fun x => insertHold_after_of_le hlength htraces ht,
      fun x => insertHold_after_of_mem hlength htraces ht,
      fun x => insertHold_after_of_ge hlength htraces ht,
      insertHold_after_eq_iff hlength htraces ht⟩

/-- A straight line from one to two, held for one before it and after it: half way to its keys it is
off by an eighth. -/
theorem evaluate_insertHold_outside_line :
    ∃ c : Curve ℚ, Curve.ofKeys [⟨1, 0, 1, 1⟩, ⟨2, 1, 1, 1⟩] = .ok c
      ∧ (c.insertHold 0 1).evaluate (3 / 2) = -1 / 8 ∧ c.evaluate (3 / 2 - 1) = 0
      ∧ (c.insertHold 3 1).evaluate (5 / 2) = 9 / 8 ∧ c.evaluate (5 / 2) = 1 := by
  have hkeys : Curve.ofKeys [⟨1, 0, 1, 1⟩, ⟨2, 1, 1, 1⟩]
      = .ok (⟨[⟨1, 0, 1, 1⟩, ⟨2, 1, 1, 1⟩]⟩ : Curve ℚ) :=
    ofKeys_of_ascending (by simp [Ascending])
  obtain ⟨first, last, hfirst, hlast, hbefore, hafter⟩ :=
    evaluate_insertHold_outside hkeys (List.cons_ne_nil _ _) one_pos
  cases hfirst
  cases hlast
  obtain ⟨-, hswell, hlater, -⟩ := hbefore 0 (by norm_num)
  obtain ⟨-, hswell', hend, -⟩ := hafter 3 (by norm_num)
  refine ⟨_, hkeys, ?_, by decide +kernel, ?_, by decide +kernel⟩
  · rw [hswell (3 / 2) (by norm_num) (by norm_num)]
    norm_num [swell]
  · rw [hswell' (5 / 2) (by norm_num) (by norm_num)]
    norm_num [swell]

end BranchingDialogue
