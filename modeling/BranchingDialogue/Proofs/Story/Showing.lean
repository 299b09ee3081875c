import BranchingDialogue.Proofs.Markup.Effects
import BranchingDialogue.Proofs.Reveal.Forward
import BranchingDialogue.Proofs.Story.Timeline

/-!
# How a line shows

What a player sees of a line of dialogue whose node does not give a curve, in exact arithmetic: from
the tags in the text to the number of visible characters. The pauses of the reveal are those of the
wait tags, in order (`pauses_of_ofTags`); the offsets are made to fit into the duration, whatever is
asked for; and a line whose pauses do not fit is not accepted. Everything else is what reveals at
constant speed do (`Reveal.forward_of_paced`).
-/

namespace BranchingDialogue

/-! ## The pauses of a text -/

section Pauses

variable {α : Type} [Scalar α]

/-- A pause is that of a tag. -/
def Pause.IsOf (t : PlacedTag) (p : Pause α) : Prop :=
  p.index = t.start ∧ t.pauseSeconds = .ok p.seconds

/-- The tags that make a reveal pause. -/
def waitTags (tags : List PlacedTag) : List PlacedTag := tags.filter fun t => t.behavior = .wait

/-- A tag adds a pause if it is a wait tag. -/
theorem exists_pauses_of_addEffect {before after : TextEffects α} {t : PlacedTag}
    (h : t.addEffect before = .ok after) :
    ∃ waits, after.pauses = before.pauses ++ waits
      ∧ List.Forall₂ Pause.IsOf (waitTags [t]) waits := by
  cases PlacedTag.addEffect_eq_ok_iff.1 h with
  | @pause seconds waits lasts =>
    refine ⟨[⟨t.start, seconds⟩], rfl, ?_⟩
    rw [waitTags, List.filter_singleton, decide_eq_true waits, cond_true]
    exact .cons ⟨rfl, lasts⟩ .nil
  | gradient colors ends => exact ⟨[], (List.append_nil _).symm, by simp [waitTags, colors]⟩
  | nothing host => exact ⟨[], (List.append_nil _).symm, by simp [waitTags, host]⟩

/-- The pauses of a text are those of its wait tags, in order. -/
theorem pauses_of_ofTags {tags : List PlacedTag} {effects : TextEffects α}
    (h : TextEffects.ofTags tags = .ok effects) :
    List.Forall₂ Pause.IsOf (waitTags tags) effects.pauses := by
  obtain ⟨waits, hwaits, hall⟩ := exists_appended_of_foldlM exists_pauses_of_addEffect h
  rw [hwaits]
  exact hall

theorem PlacedTag.pauseSeconds_not_neg {t : PlacedTag} {seconds : α}
    (h : t.pauseSeconds = .ok seconds) : ¬seconds < Scalar.zero := by
  rw [pauseSeconds] at h
  split at h
  · cases h
  · split at h
    · cases h
    · next negative m e hnumber =>
      cases negative
      all_goals
        simp only [Bool.false_eq_true, if_true, if_false] at h
        split at h
        · next hfits =>
          cases h
          exact hfits.2
        · cases h
    · cases h

end Pauses

/-! ## The reveal of a line -/

variable {r : Runtime ℚ} {n : Node}

theorem Node.strip_of_strippedText {stripped : StrippedText} {effects : TextEffects ℚ}
    (h : n.strippedText r = .ok (stripped, effects)) :
    r.tags.strip (n.textAt "text") = .ok stripped
      ∧ TextEffects.ofTags stripped.tags = .ok effects := by
  simp only [strippedText] at h
  split at h
  · cases h
  · split at h
    · cases h
    · next hstrip =>
      split at h
      · cases h
      · next heffects =>
        cases h
        exact ⟨hstrip, heffects⟩

/-- A line whose node does not give a curve is revealed at constant speed, with its pauses. -/
theorem Node.paced_of_reveal {duration : ℚ} {pauses : List (Pause ℚ)} {length : Nat}
    {reveal : Reveal ℚ} (hcurve : n.payload.sequence? "curve" = none) (hduration : 0 ≤ duration)
    (hpos : ∀ p ∈ pauses, 0 ≤ p.seconds)
    (h : n.reveal r duration pauses length = .ok reveal) :
    reveal.duration = duration ∧ reveal.Fits ∧ reveal.Paced pauses := by
  have hauthored : (n.authoredCurve : Except (WalkError ℚ) (Curve ℚ))
      = .ok (.line Scalar.zero Scalar.zero Scalar.one Scalar.one) := by
    rw [authoredCurve, hcurve]
  rw [Node.reveal, hauthored] at h
  simp only at h
  split at h
  · next shown happlied =>
    cases h
    have hfits := Reveal.fits_withOffsets
      (.line Scalar.zero Scalar.zero Scalar.one Scalar.one) hduration
      ((n.payload.scalar? "startOffset").getD r.settings.startOffset)
      ((n.payload.scalar? "endOffset").getD r.settings.endOffset)
    have hpaced := Reveal.paced_of_applyPauses spans_steady monotone_steady (by norm_num) hpos
      happlied
    obtain ⟨c, -, rfl⟩ := Reveal.exists_inUse_of_applyPauses happlied
    refine ⟨?_, ⟨hfits.startOffset, hfits.endOffset, hfits.sum_le⟩, hpaced⟩
    exact Reveal.duration_new (.line Scalar.zero Scalar.zero Scalar.one Scalar.one) hduration
  · cases h

/-- **The reveal of a line moves forward only, shows the whole line and waits.** A walk accepts a node
of dialogue that gives no curve, whatever its text, tags, duration and offsets. The clip has the text
without its tags. The number of visible characters never falls and never exceeds the text; from the
end of the clip on the whole text is visible; and for every wait tag the clip has a stretch of time,
at least as long as the tag says, in which no further character becomes visible. -/
theorem shows_forward (r : Runtime ℚ) (g : Graph) (index : Nat) (n : Node) (s : Situation ℚ)
    (p : Passage ℚ) (hkind : n.kind = .dialogue) (hcurve : n.payload.contains "curve" = false)
    (hpass : n.pass r g index s = .ok p) :
    ∃ c stripped, p.clip = some c
      ∧ r.tags.strip (n.textAt "text") = .ok stripped ∧ c.text = stripped.text
      ∧ c.tags = stripped.tags
      ∧ Monotone c.visibleChars
      ∧ (∀ t, c.visibleChars t ≤ c.text.length)
      ∧ (∀ t, c.endTime ≤ t → c.visibleChars t = c.text.length)
      ∧ ∀ tag ∈ c.tags, tag.behavior = .wait → ∃ seconds, tag.pauseSeconds = .ok seconds
          ∧ (0 < seconds → ∃ t₀ t₁, c.startTime ≤ t₀ ∧ t₁ ≤ c.endTime ∧ seconds ≤ t₁ - t₀
              ∧ ∀ t, t₀ ≤ t → t ≤ t₁ → c.visibleChars t = c.visibleChars t₀) := by
  have hsequence : n.payload.sequence? "curve" = none := by
    rw [Dictionary.contains, Option.isSome_eq_false_iff, Option.isNone_iff_eq_none] at hcurve
    rw [Payload.sequence?, hcurve, Option.bind_none]
  cases Node.passes_of_pass hpass with
  | @dialogue _ stripped effects reveal htext hreveal =>
    obtain ⟨hstrip, heffects⟩ := Node.strip_of_strippedText htext
    have htags := pauses_of_ofTags heffects
    have hpos : ∀ p ∈ effects.pauses, 0 ≤ p.seconds := by
      intro p hp
      obtain ⟨tag, -, -, hseconds⟩ := exists_mem_of_forall₂ htags hp
      exact not_lt.1 (zero_exact ▸ PlacedTag.pauseSeconds_not_neg hseconds)
    obtain ⟨hduration, hfits, hpaced⟩ :=
      Node.paced_of_reveal hsequence (durationOr_nonneg _ _) hpos hreveal
    obtain ⟨hforward, hwithin, hwhole, hwaits⟩ :=
      Reveal.forward_of_paced hfits hpaced s.moment.endTime stripped.text.length
    rw [hduration] at hwhole hwaits
    refine ⟨_, stripped, rfl, hstrip, rfl, rfl, hforward, hwithin, hwhole, ?_⟩
    intro tag htag hwait
    have hlisted : tag ∈ waitTags stripped.tags :=
      List.mem_filter.2 ⟨htag, decide_eq_true hwait⟩
    obtain ⟨p, hp, -, hseconds⟩ := exists_mem_of_forall₂ (List.Forall₂.flip htags) hlisted
    exact ⟨p.seconds, hseconds, hwaits p hp⟩
  | input kind | choice kind | action kind | set kind | condition kind | marker kind | blend kind =>
    rw [hkind] at kind
    cases kind

/-- A line that waits before its first character, and twice where it hesitates. -/
def hesitation : Node :=
  .new ⟨1⟩ .dialogue (.ofList [("text", .text "<wait=0.5/>Well<wait=0.5/><wait=1/>... yes.")])

theorem shows_forward_hesitation :
    ∃ p c, hesitation.pass (.new .default : Runtime ℚ) (.new "") 0 ⟨.origin, {}⟩ = .ok p
      ∧ p.clip = some c ∧ c.text = "Well... yes." ∧ c.tags.map (·.start) = [0, 4, 4]
      ∧ Monotone c.visibleChars
      ∧ ∃ t₀ t₁, c.startTime ≤ t₀ ∧ t₁ ≤ c.endTime ∧ 1 ≤ t₁ - t₀
          ∧ ∀ t, t₀ ≤ t → t ≤ t₁ → c.visibleChars t = c.visibleChars t₀ := by
  have haccepted :
      (hesitation.pass (.new .default : Runtime ℚ) (.new "") 0 ⟨.origin, {}⟩).toBool = true := by
    decide +kernel
  have hstripped : (Runtime.new .default : Runtime ℚ).tags.strip (hesitation.textAt "text")
      = .ok ⟨"Well... yes.",
          [⟨"wait", .single, .wait, 0, 0, some "0.5", []⟩,
            ⟨"wait", .single, .wait, 4, 0, some "0.5", []⟩,
            ⟨"wait", .single, .wait, 4, 0, some "1", []⟩]⟩ := by decide +kernel
  cases hpass : hesitation.pass (.new .default : Runtime ℚ) (.new "") 0 ⟨.origin, {}⟩ with
  | error e =>
    rw [hpass] at haccepted
    cases haccepted
  | ok p =>
    obtain ⟨c, stripped, hc, hstrip, htext, htags, hforward, -, -, hwaits⟩ :=
      shows_forward _ _ _ hesitation _ p rfl (by decide) hpass
    rw [hstripped] at hstrip
    cases hstrip
    refine ⟨p, c, rfl, hc, htext, by rw [htags]; rfl, hforward, ?_⟩
    rw [htags] at hwaits
    obtain ⟨seconds, hseconds, hstands⟩ :=
      hwaits ⟨"wait", .single, .wait, 4, 0, some "1", []⟩ (by simp) rfl
    have hone : seconds = 1 := by
      have hwait : (PlacedTag.pauseSeconds ⟨"wait", .single, .wait, 4, 0, some "1", []⟩
          : Except MarkupError ℚ) = .ok 1 := by decide +kernel
      rw [hwait] at hseconds
      cases hseconds
      rfl
    rw [hone] at hstands
    exact hstands zero_lt_one

end BranchingDialogue
