import BranchingDialogue.Proofs.Curve.Segments

/-!
# Holds in a step

A slope that is not finite makes a step of its segment, whichever end it belongs to. A hold divides the
segment in two, and each half has a slope of zero at the hold. So the half with that slope is a step,
and the other one is not, unless both slopes were infinite: where the step was made by the slope at its
end, the curve now leaves its value before the hold, and where it was made by the slope at its start,
after it (`insertHold_stepped`).

During the hold the value is that of the step, but for rounding, and all else is the curve as it was,
later where it was put off.
-/

namespace BranchingDialogue

open Binary32

variable {keys before after : List (Keyframe Float32)} {c : Curve Float32}
  {a b : Keyframe Float32} {x t length : Float32}

/-- Where nothing is rounded a stretch fits in. -/
theorem rising_stretch {after : List Float32} (h : Rising (t :: after))
    (hadd : ∀ s ∈ t :: after, AddsExactly s length) (hlength : Scalar.zero < length) :
    Rising (stretch t length after) := by
  have hlater : Rising ((t :: after).map (· + length)) :=
    ⟨List.forall_mem_map.2 fun s hs => (hadd s hs).isFinite, List.pairwise_map.2
      (h.ascending.imp_of_mem fun hs ht hst => (hadd _ hs).lt_of_lt (hadd _ ht) hst)⟩
  have ht := hadd t List.mem_cons_self
  have hlt := ht.lt_add hlength
  refine rising_cons.2 ⟨ht.isFinite_left, List.forall_mem_cons.2 ⟨hlt, fun s hs => ?_⟩, hlater⟩
  exact lt_trans_le hlt (lt_imp_le ((rising_cons.1 hlater).2.1 s hs))

/-! ## Steps -/

/-- A slope that is not finite makes a step. -/
theorem Keyframe.rises?_of_slope
    (h : a.outTangent.isFinite = false ∨ b.inTangent.isFinite = false) : a.rises? b = none :=
  rises?_eq_none (h.imp
    (fun h => Bool.eq_false_iff.2 fun hrise => Bool.eq_false_iff.1 h (isFinite_of_mul hrise).1)
    fun h => Bool.eq_false_iff.2 fun hrise => Bool.eq_false_iff.1 h (isFinite_of_mul hrise).1)

namespace Curve

theorem length_pos_of_rising (hc : Rising c.times) (hkeys : c.keys = before ++ a :: b :: after) :
    ¬b.time - a.time ≤ Scalar.zero := by
  have hfinite (k : Keyframe Float32) (hk : k ∈ c.keys) : k.time.isFinite = true :=
    hc.isFinite _ (List.mem_map_of_mem hk)
  exact Keyframe.length_pos (hfinite a (by rw [hkeys]; simp)) (hfinite b (by rw [hkeys]; simp))
    ((around_of_rising hc hkeys).2 b List.mem_cons_self)

/-- In a step the value is that of its first key. -/
theorem evaluate_step (hc : Rising c.times) (hkeys : c.keys = before ++ a :: b :: after)
    (hstep : a.rises? b = none) (hax : a.time ≤ x) (hxb : x < b.time) : c.evaluate x = a.value := by
  rcases evaluate_cases hc hkeys hax hxb with hvalue | ⟨-, hvalue⟩
  · rw [hvalue, Keyframe.between_step (length_pos_of_rising hc hkeys) hstep]
  · exact hvalue

theorem slopeBetween_step (hc : Rising c.times) (hkeys : c.keys = before ++ a :: b :: after)
    (hstep : a.rises? b = none) (x : Float32) : a.slopeBetween b x = Scalar.zero := by
  unfold Keyframe.slopeBetween
  dsimp only
  rw [if_neg (length_pos_of_rising hc hkeys), hstep]

/-! ## A hold in a step -/

section Hold

variable (hc : c.Sound) (hkeys : c.keys = before ++ a :: b :: after)
  (hstep : a.outTangent.isFinite = false ∨ b.inTangent.isFinite = false) (hat : a.time < t)
  (htb : t < b.time) (hlength : Scalar.zero < length)
  (hadd : ∀ s ∈ t :: (b :: after).map (·.time), AddsExactly s length)
include hc hkeys hstep hat htb hlength

/-- A hold puts two keys into a step that have its value and no slope. -/
theorem insertHold_step : c.insertHold t length
    = ⟨(before ++ [a]) ++ .flat t a.value :: .flat (t + length) a.value
        :: (b :: after).map (.delay length)⟩ := by
  have hrises := Keyframe.rises?_of_slope hstep
  have hvalue : c.evaluate t = a.value :=
    evaluate_step hc.times hkeys hrises (lt_imp_le hat) htb
  have hslope : c.derivative t = Scalar.zero := by
    rw [derivative_of_mem hc.times hkeys (lt_imp_le hat) htb (head_lt hc.times hkeys hat),
      slopeBetween_step hc.times hkeys hrises]
  have hne : c.keys ≠ [] := by rw [hkeys]; simp
  rw [insertHold_apart hne (lt_imp_not_le hlength)
    (hkeys.trans (List.append_cons before a (b :: after))) (upto_lt hc.times hkeys hat)
    (sides_of_rising hc.times hkeys (lt_imp_le hat) htb).2, hvalue, hslope]
  rfl

theorem keys_insertHold_step : (c.insertHold t length).keys
    = before ++ a :: .flat t a.value :: .flat (t + length) a.value
        :: (b :: after).map (.delay length) := by
  rw [insertHold_step hc hkeys hstep hat htb hlength, List.append_assoc, List.singleton_append]

include hadd

/-- Without rounding the times are apart afterwards. -/
theorem rising_insertHold_step : Rising (c.insertHold t length).times := by
  have htimes : (c.insertHold t length).times
      = (before ++ [a]).map (·.time) ++ stretch t length ((b :: after).map (·.time)) := by
    rw [insertHold_step hc hkeys hstep hat htb hlength, times_held]
    rfl
  have hrising := hc.times
  rw [times, hkeys, List.append_cons, List.map_append, rising_append] at hrising
  obtain ⟨hupto, hfrom, -⟩ := hrising
  obtain ⟨-, hafter⟩ := sides_of_rising hc.times hkeys (lt_imp_le hat) htb
  rw [htimes]
  have hrest : Rising (t :: (b :: after).map (·.time)) :=
    rising_cons.2 ⟨(hadd t List.mem_cons_self).isFinite_left, List.forall_mem_map.2 hafter, hfrom⟩
  exact (rising_append_cons (List.forall_mem_map.2 (upto_lt hc.times hkeys hat))).2
    ⟨hupto, rising_stretch hrest hadd hlength⟩

/-- Before the hold the step stays one if its first slope is infinite; else the curve sets out with that
slope. -/
theorem evaluate_before_hold (hax : a.time ≤ x) (hxt : x < t) :
    (a.outTangent.isFinite = false → (c.insertHold t length).evaluate x = a.value)
      ∧ (a.time < x → (c.insertHold t length).evaluate x = a.between (.flat t a.value) x) := by
  have hrising := rising_insertHold_step hc hkeys hstep hat htb hlength hadd
  have hheld := keys_insertHold_step hc hkeys hstep hat htb hlength
  refine ⟨fun hslope => ?_, fun hlater => ?_⟩
  · exact evaluate_step hrising hheld (Keyframe.rises?_of_slope (.inl hslope)) hax hxt
  · rcases evaluate_cases hrising hheld hax hxt with hvalue | ⟨hle, -⟩
    · exact hvalue
    · exact absurd hle (lt_imp_not_le hlater)

/-- During the hold the value is that of the step, but for rounding. -/
theorem evaluate_during_hold (hsmall : |exact a.value| ≤ 2 ^ 120) (htx : t ≤ x)
    (hxt : x < t + length) :
    Approximates ((c.insertHold t length).evaluate x) (exact a.value) := by
  have hrising := rising_insertHold_step hc hkeys hstep hat htb hlength hadd
  have hheld := insertHold_step hc hkeys hstep hat htb hlength
  have hvalue : a.value.isFinite = true := (hc.keys a (by rw [hkeys]; simp)).value
  have hstart := hadd t List.mem_cons_self
  rcases evaluate_cases hrising (congrArg keys hheld) htx hxt with heq | ⟨-, heq⟩
  · rw [heq]
    exact Keyframe.between_flat hstart.isFinite_left hstart.isFinite htx (lt_imp_le hxt)
      (hstart.lt_add hlength) hvalue hsmall
  · rw [heq]
    exact approximates_exact hvalue

/-- After the hold it stays one if its last slope is infinite; else the curve arrives with that slope. -/
theorem evaluate_after_hold (htx : t + length ≤ x) (hxb : x < b.time + length) :
    (b.inTangent.isFinite = false → (c.insertHold t length).evaluate x = a.value)
      ∧ (c.insertHold t length).evaluate x
        = (Keyframe.flat (t + length) a.value).between (b.delay length) x := by
  have hrising := rising_insertHold_step hc hkeys hstep hat htb hlength hadd
  have hkeys' := keys_insertHold_step hc hkeys hstep hat htb hlength
  have hheld : (c.insertHold t length).keys = (before ++ [a, .flat t a.value])
      ++ .flat (t + length) a.value :: b.delay length :: after.map (.delay length) := by
    rw [hkeys', List.append_assoc]
    rfl
  have htx' : t < x := lt_trans_le ((hadd t List.mem_cons_self).lt_add hlength) htx
  refine ⟨fun hslope => ?_, ?_⟩
  · exact evaluate_step (a := .flat (t + length) a.value) hrising hheld
      (Keyframe.rises?_of_slope (.inr hslope)) htx hxb
  · exact evaluate_of_mem hrising hheld htx hxb
      (head_lt hrising hkeys' (lt_trans_le hat (lt_imp_le htx')))

/-- From the end of the step on the curve is what it was, put off. -/
theorem evaluate_beyond_hold (hx : AddsExactly x length) (hbx : b.time ≤ x) :
    SameNumber ((c.insertHold t length).evaluate (x + length)) (c.evaluate x) := by
  have hrising := rising_insertHold_step hc hkeys hstep hat htb hlength hadd
  have hheld : (c.insertHold t length).keys
      = (before ++ [a] ++ [.flat t a.value, .flat (t + length) a.value])
        ++ (b :: after).map (.delay length) := by
    rw [insertHold_step hc hkeys hstep hat htb hlength, List.append_assoc _ _ (List.map _ _)]
    rfl
  have hsplit : c.keys = (before ++ [a]) ++ b :: after :=
    hkeys.trans (List.append_cons before a (b :: after))
  exact evaluate_delay_rounded hc hsplit hrising hheld
    (fun k hk => hadd _ (List.mem_cons_of_mem t (List.mem_map_of_mem hk))) hx hbx (by simp) (by simp)

end Hold

end Curve

/-- **What a hold in a step does.** Keys that make a curve have a slope that is not finite between two
of them, and a hold is put in there for which no time is rounded. The curve stays what it was up to the
first of the two keys. From there to the hold it keeps that key's value only if the key's own slope is
infinite; else it is the segment from the key to the hold, with that slope. During the hold it has the
value, but for rounding. From the hold to the second key, as put off, it keeps the value only if that
key's slope is infinite; else it is the segment from the hold to that key. From there on it is what it
was, put off. -/
theorem evaluate_insertHold_stepped (hok : Curve.ofKeys keys = .ok c)
    (hkeys : c.keys = before ++ a :: b :: after)
    (hstep : a.outTangent.isFinite = false ∨ b.inTangent.isFinite = false)
    (hat : a.time < t) (htb : t < b.time) (hlength : Scalar.zero < length)
    (hadd : ∀ s ∈ t :: (b :: after).map (·.time), AddsExactly s length) :
    (∀ x, a.time ≤ x → x < b.time → c.evaluate x = a.value)
      ∧ (∀ x < a.time, (c.insertHold t length).evaluate x = c.evaluate x)
      ∧ SameNumber ((c.insertHold t length).evaluate a.time) a.value
      ∧ (∀ x, a.time < x → x < t →
          (c.insertHold t length).evaluate x = a.between (.flat t a.value) x
            ∧ (a.outTangent.isFinite = false → (c.insertHold t length).evaluate x = a.value))
      ∧ (|exact a.value| ≤ 2 ^ 120 → ∀ x, t ≤ x → x < t + length →
          Approximates ((c.insertHold t length).evaluate x) (exact a.value))
      ∧ (∀ x, t + length ≤ x → x < b.time + length →
          (c.insertHold t length).evaluate x
              = (Keyframe.flat (t + length) a.value).between (b.delay length) x
            ∧ (b.inTangent.isFinite = false → (c.insertHold t length).evaluate x = a.value))
      ∧ SameNumber ((c.insertHold t length).evaluate (b.time + length)) b.value
      ∧ ∀ x, b.time ≤ x → AddsExactly x length →
          SameNumber ((c.insertHold t length).evaluate (x + length)) (c.evaluate x) := by
  have hc := Curve.sound_of_ofKeys hok
  have hheld := Curve.keys_insertHold_step hc hkeys hstep hat htb hlength
  have hrising := Curve.rising_insertHold_step hc hkeys hstep hat htb hlength hadd
  have hvalue : a.value.isFinite = true := (hc.keys a (by rw [hkeys]; simp)).value
  refine ⟨fun x => Curve.evaluate_step hc.times hkeys (Keyframe.rises?_of_slope hstep),
    fun x => Curve.evaluate_congr_before hc.times hkeys hrising hheld,
    Curve.evaluate_first_key hrising hheld hvalue hvalue, fun x hax hxt => ?_,
    fun hsmall x => Curve.evaluate_during_hold hc hkeys hstep hat htb hlength hadd hsmall,
    fun x htx hxb => ?_, ?_, fun x hbx hx => ?_⟩
  · obtain ⟨hinfinite, hsegment⟩ :=
      Curve.evaluate_before_hold hc hkeys hstep hat htb hlength hadd (lt_imp_le hax) hxt
    exact ⟨hsegment hax, hinfinite⟩
  · exact (Curve.evaluate_after_hold hc hkeys hstep hat htb hlength hadd htx hxb).symm
  · have hb : AddsExactly b.time length := hadd _ (by simp)
    have hsplit : c.keys = (before ++ [a]) ++ b :: after :=
      hkeys.trans (List.append_cons before a (b :: after))
    have hbb := le_self (isNaN_of_isFinite hb.isFinite_left)
    exact (Curve.evaluate_beyond_hold hc hkeys hstep hat htb hlength hadd hb hbb).trans
      (Curve.evaluate_key hc hsplit)
  · exact Curve.evaluate_beyond_hold hc hkeys hstep hat htb hlength hadd hx hbx

/-- A step over a second that its first key makes: after a hold half way, it is left before its end. -/
theorem evaluate_insertHold_stepped_half :
    ∃ c : Curve Float32,
      Curve.ofKeys [⟨0, 0, 0, Float32.ofBits 0x7F800000⟩, ⟨1, 1, 0, 0⟩] = .ok c
        ∧ c.evaluate 0.75 = 0 ∧ (c.insertHold 0.5 0.5).evaluate 1.25 = 0.5 := by
  have hok : Curve.ofKeys [⟨0, 0, 0, Float32.ofBits 0x7F800000⟩, ⟨1, 1, 0, 0⟩]
      = .ok (⟨[⟨0, 0, 0, Float32.ofBits 0x7F800000⟩, ⟨1, 1, 0, 0⟩]⟩ : Curve Float32) :=
    Curve.ofKeys_of_sorted (by decide +kernel) (by decide +kernel) (by decide +kernel)
  have hadd : ∀ s ∈ (0.5 : Float32) :: ([⟨1, 1, 0, 0⟩] : List (Keyframe Float32)).map (·.time),
      AddsExactly s 0.5 := by
    refine List.forall_mem_cons.2 ⟨⟨by decide +kernel, by decide +kernel⟩, ?_⟩
    exact List.forall_mem_singleton.2 ⟨by decide +kernel, by decide +kernel⟩
  have hkeys : (⟨[⟨0, 0, 0, Float32.ofBits 0x7F800000⟩, ⟨1, 1, 0, 0⟩]⟩ : Curve Float32).keys
      = [] ++ ⟨0, 0, 0, Float32.ofBits 0x7F800000⟩ :: ⟨1, 1, 0, 0⟩ :: [] := rfl
  obtain ⟨hvalue, -, -, -, -, hlater, -⟩ := evaluate_insertHold_stepped hok hkeys
    (.inl (by decide +kernel)) (by decide +kernel) (by decide +kernel) (by decide +kernel) hadd
  refine ⟨_, hok, hvalue 0.75 (by decide +kernel) (by decide +kernel), ?_⟩
  rw [(hlater 1.25 (by decide +kernel) (by decide +kernel)).1]
  decide +kernel

end BranchingDialogue
