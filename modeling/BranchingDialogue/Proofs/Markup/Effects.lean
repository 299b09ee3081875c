import BranchingDialogue.Markup.Effects
import BranchingDialogue.Proofs.Loops

/-!
# What tags do to the effects of a text

A tag adds a pause or a gradient or nothing (`PlacedTag.Adds`), so each gradient of a text is that of a
gradient tag, in order: `gradients_of_ofTags`.
-/

namespace BranchingDialogue

variable {α : Type} [Scalar α]

/-- How a tag changes the effects of a text. -/
inductive PlacedTag.Adds (t : PlacedTag) (before : TextEffects α) : TextEffects α → Prop
  | pause {seconds : α} (waits : t.behavior = .wait) (lasts : t.pauseSeconds = .ok seconds) :
      t.Adds before { before with pauses := before.pauses ++ [⟨t.start, seconds⟩] }
  | gradient {g : Gradient} (colors : t.behavior = .gradient) (ends : t.gradient = .ok g) :
      t.Adds before { before with gradients := before.gradients ++ [g] }
  | nothing (host : t.behavior = .host) : t.Adds before before

theorem PlacedTag.addEffect_eq_ok_iff {t : PlacedTag} {before after : TextEffects α} :
    t.addEffect before = .ok after ↔ t.Adds before after := by
  constructor
  · intro h
    unfold addEffect at h
    split at h
    · next hwait =>
      cases hseconds : (t.pauseSeconds : Except MarkupError α) with
      | error e =>
        rw [hseconds] at h
        cases h
      | ok seconds =>
        rw [hseconds] at h
        cases h
        exact .pause hwait hseconds
    · next hgradient =>
      cases hcolors : t.gradient with
      | error e =>
        rw [hcolors] at h
        cases h
      | ok g =>
        rw [hcolors] at h
        cases h
        exact .gradient hgradient hcolors
    · next hhost =>
      cases h
      exact .nothing hhost
  · rintro (⟨waits, lasts⟩ | ⟨colors, ends⟩ | host)
    · simp only [addEffect, waits, lasts, Except.map]
    · simp only [addEffect, colors, ends, Except.map]
    · simp only [addEffect, host]

/-! ## Gradients -/

/-- The tags that color. -/
def gradientTags (tags : List PlacedTag) : List PlacedTag :=
  tags.filter fun t => t.behavior = .gradient

/-- A tag adds a gradient if it is a gradient tag. -/
theorem exists_gradients_of_addEffect {t : PlacedTag} {before after : TextEffects α}
    (h : t.addEffect before = .ok after) :
    ∃ gs, after.gradients = before.gradients ++ gs
      ∧ List.Forall₂ (fun t g => t.gradient = .ok g) (gradientTags [t]) gs := by
  cases PlacedTag.addEffect_eq_ok_iff.1 h with
  | pause waits lasts => exact ⟨[], (List.append_nil _).symm, by simp [gradientTags, waits]⟩
  | @gradient g colors ends =>
    refine ⟨[g], rfl, ?_⟩
    rw [gradientTags, List.filter_singleton, decide_eq_true colors, cond_true]
    exact .cons ends .nil
  | nothing host => exact ⟨[], (List.append_nil _).symm, by simp [gradientTags, host]⟩

/-- The gradients of a text are those of its gradient tags, in order. -/
theorem gradients_of_ofTags {tags : List PlacedTag} {effects : TextEffects α}
    (h : TextEffects.ofTags tags = .ok effects) :
    List.Forall₂ (fun t g => t.gradient = .ok g) (gradientTags tags) effects.gradients := by
  obtain ⟨gs, hgs, hall⟩ := exists_appended_of_foldlM exists_gradients_of_addEffect h
  rw [hgs]
  exact hall

/-- A gradient covers what its tag does. -/
theorem PlacedTag.range_of_gradient {t : PlacedTag} {g : Gradient} (h : t.gradient = .ok g) :
    g.start = t.start ∧ g.length = t.length := by
  unfold gradient at h
  split at h
  · cases h
  · split at h
    · cases h
    · next last _ _ a _ =>
      cases hlast : t.colorOf last with
      | error e =>
        rw [hlast] at h
        cases h
      | ok b =>
        rw [hlast] at h
        cases h
        exact ⟨rfl, rfl⟩

end BranchingDialogue
