import BranchingDialogue.Proofs.Markup.Attributes
import BranchingDialogue.Proofs.Markup.Effects
import BranchingDialogue.Proofs.Markup.Enclosing

/-!
# Nested spans and their colors

The gradients of a text are those of its gradient tags, in order, and of those over a character the
one that begins last gives the color. Tags of one name are nested, so that is the innermost one:
`TextEffects.colorAt?_of_nested`.

Main result: `strip_nests`, what span tags cover and when an end tag is an error.
-/

namespace BranchingDialogue

/-! ## Gradients -/

section Gradients

variable {α : Type} [Scalar α]

/-- A gradient has a color for the characters that its tag covers. -/
theorem colorAt?_eq_none_iff {t : PlacedTag} {g : Gradient} (h : t.gradient = .ok g)
    (index : Nat) : g.colorAt? α index = none ↔ ¬t.Covers index := by
  obtain ⟨hstart, hlength⟩ := t.range_of_gradient h
  unfold Gradient.colorAt? PlacedTag.Covers PlacedTag.stop
  rw [hstart, hlength]
  split
  · next hout =>
    simp only [true_iff]
    omega
  · next hin =>
    simp only [reduceCtorEq, false_iff]
    omega

/-- A tag is the innermost gradient tag over a character: the gradient tags before it that cover the
character enclose it, and those after it do not cover the character. -/
def PlacedTag.Innermost (tags : List PlacedTag) (index : Nat) (p : PlacedTag) : Prop :=
  p.behavior = .gradient ∧ p.Covers index
    ∧ ∃ before after, tags = before ++ p :: after
      ∧ (∀ q ∈ before, q.behavior = .gradient → q.Covers index → p.Within q)
      ∧ ∀ q ∈ after, q.behavior = .gradient → ¬q.Covers index

/-- **Of nested gradients the innermost one gives the color.** -/
theorem TextEffects.colorAt?_of_nested {tags : List PlacedTag} {effects : TextEffects α}
    (heffects : TextEffects.ofTags tags = .ok effects)
    (hnested : (gradientTags tags).Pairwise fun p q =>
      (∃ index, p.Covers index ∧ q.Covers index) → q.Within p) (index : Nat) :
    (effects.colorAt? α index = none
        ∧ ∀ p ∈ tags, p.behavior = .gradient → ¬p.Covers index)
      ∨ ∃ (p : PlacedTag) (g : Gradient) (color : Color), p.Innermost tags index
        ∧ p.gradient = .ok g ∧ g.colorAt? α index = some color
        ∧ effects.colorAt? α index = some color := by
  have hall := gradients_of_ofTags heffects
  have hmem {p : PlacedTag} {tags : List PlacedTag} :
      p ∈ gradientTags tags ↔ p ∈ tags ∧ p.behavior = .gradient := by
    rw [gradientTags, List.mem_filter, decide_eq_true_eq]
  cases hcolor : effects.colorAt? α index with
  | none =>
    refine .inl ⟨rfl, fun p hp hgradient => ?_⟩
    obtain ⟨g, hg, hof⟩ := exists_mem_of_forall₂ hall.flip (hmem.2 ⟨hp, hgradient⟩)
    have hnone := List.findSome?_eq_none_iff.1 hcolor g (List.mem_reverse.2 hg)
    exact (colorAt?_eq_none_iff hof index).1 hnone
  | some color =>
    -- The gradients after the one that gives the color do not cover the character.
    obtain ⟨later, g, earlier, hgs, hg, hlater⟩ := List.findSome?_eq_some_iff.1 hcolor
    rw [List.reverse_eq_append_iff, List.reverse_cons, List.append_assoc,
      List.singleton_append] at hgs
    rw [hgs] at hall
    obtain ⟨before, p, after, hsplit, hof, hafter⟩ := exists_split_of_forall₂ hall
    rw [hsplit] at hnested
    obtain ⟨-, -, hencloses⟩ := List.pairwise_append.1 hnested
    have hcovers : p.Covers index := by
      by_contra hnot
      rw [(colorAt?_eq_none_iff hof index).2 hnot] at hg
      cases hg
    obtain ⟨front, rest, rfl, hfront, hrest⟩ := List.filter_eq_append_iff.1 hsplit
    obtain ⟨between, back, rfl, hbetween, hgradient, hback⟩ := List.filter_eq_cons_iff.1 hrest
    refine .inr ⟨p, g, color, ⟨of_decide_eq_true hgradient, hcovers, front ++ between, back,
      (List.append_assoc _ _ _).symm, fun q hq hq' hqcovers => ?_, fun q hq hq' hqcovers => ?_⟩,
      hof, hg, rfl⟩
    · rcases List.mem_append.1 hq with hq | hq
      · have hqbefore : q ∈ before := hfront ▸ hmem.2 ⟨hq, hq'⟩
        exact hencloses q hqbefore p List.mem_cons_self ⟨index, hqcovers, hcovers⟩
      · exact absurd (decide_eq_true hq') (hbetween q hq)
    · have hqafter : q ∈ after := hback ▸ hmem.2 ⟨hq, hq'⟩
      obtain ⟨g', hg', hof'⟩ := exists_mem_of_forall₂ hafter.flip hqafter
      have hnone := hlater g' (List.mem_reverse.1 hg')
      exact (colorAt?_eq_none_iff hof' index).1 hnone hqcovers

end Gradients

/-! ## Span tags -/

/-- With the library's own registry the gradient tags have one name. -/
theorem name_of_builtin {ps : List Piece} {s : StrippedText} (h : s.Places .builtin ps)
    {p : PlacedTag} (hp : p ∈ s.tags) (hgradient : p.behavior = .gradient) :
    p.name = "gradient" := by
  obtain ⟨⟨⟨d, t⟩, place⟩, ho, hof⟩ := exists_mem_of_forall₂ h.tags hp
  have hmem := Piece.mem_definitions_of_mem_listed ho
  rw [hof.name]
  rw [hof.behavior] at hgradient
  simp only [TagRegistry.builtin, List.mem_cons, List.not_mem_nil, or_false] at hmem hgradient
  rcases hmem with rfl | rfl
  · cases hgradient
  · rfl

/-- **Span tags of one name nest like brackets.** An end tag closes the last start tag of its name
that is still open, a start tag without an end tag reaches to the end of what is shown, and of two tags
that share a character the later one lies within the earlier one. An end tag is an error exactly if,
up to it, its name is closed more often than it is opened. So a character has the color of the
innermost gradient around it. -/
theorem strip_nests (r : TagRegistry) (text : String) :
    (∀ s, r.strip text = .ok s → s.Partners r (Token.cut text)
        ∧ s.tags.Pairwise fun p q =>
          p.name = q.name → (∃ index, p.Covers index ∧ q.Covers index) → q.Within p)
      ∧ (∀ name offset, r.strip text = .error (.unmatchedEnd name offset)
        ↔ ∃ before c after s d, Token.cut text = before ++ .tag c :: after
          ∧ Stripping.start.tokens r before = .ok s ∧ r.custom? c.name = some d ∧ d.shape = .span
          ∧ c.boundary = .stop ∧ height (Token.bracket? c.name) (before ++ [.tag c]) < 0
          ∧ name = c.name ∧ offset = c.start)
      ∧ ∀ (α : Type) [Scalar α] (s : StrippedText) (effects : TextEffects α),
        TagRegistry.builtin.strip text = .ok s → TextEffects.ofTags s.tags = .ok effects →
          ∀ index, (effects.colorAt? α index = none
              ∧ ∀ p ∈ s.tags, p.behavior = .gradient → ¬p.Covers index)
            ∨ ∃ (p : PlacedTag) (g : Gradient) (color : Color), p.Innermost s.tags index
              ∧ p.gradient = .ok g ∧ g.colorAt? α index = some color
              ∧ effects.colorAt? α index = some color := by
  refine ⟨fun s h => ?_, fun name offset => ?_, fun α _ s effects h heffects index => ?_⟩
  · obtain ⟨last, hlast, rfl⟩ := TagRegistry.strip_eq_ok_iff.1 h
    exact ⟨Stripping.partners_finish hlast, Stripping.nested_finish hlast⟩
  · rw [TagRegistry.strip_eq_error_iff]
    constructor
    · rintro ⟨before, t, after, s, hcut, hbefore, hfails⟩
      have hnests := Stripping.nests_of_tokens hbefore
      cases hfails with
      | unmatched known boundary shape innermost =>
        exact ⟨before, _, after, s, _, hcut, hbefore, known, shape, boundary,
          (hnests.innermost?_eq_none_iff known boundary).1 innermost, rfl, rfl⟩
      | misread known boundary shape attributes =>
        exact absurd rfl ((Tag.misread_of_attributes attributes).2.ne_unmatchedEnd name offset)
    · rintro ⟨before, c, after, s, d, hcut, hbefore, known, shape, boundary, hneg, rfl, rfl⟩
      have hnests := Stripping.nests_of_tokens hbefore
      exact ⟨before, .tag c, after, s, hcut, hbefore,
        .unmatched known boundary shape ((hnests.innermost?_eq_none_iff known boundary).2 hneg)⟩
  · obtain ⟨last, hlast, rfl⟩ := TagRegistry.strip_eq_ok_iff.1 h
    have hplaces := StrippedText.places_finish (Stripping.nests_of_tokens hlast).follows
    refine TextEffects.colorAt?_of_nested heffects ?_ index
    have hnested := (Stripping.nested_finish hlast).filter fun t => t.behavior = .gradient
    -- All gradient tags have one name, so the condition on names always holds.
    refine hnested.imp_of_mem fun hp hq hwithin hshared => hwithin ?_ hshared
    obtain ⟨hp, hp'⟩ := List.mem_filter.1 hp
    obtain ⟨hq, hq'⟩ := List.mem_filter.1 hq
    rw [name_of_builtin hplaces hp (of_decide_eq_true hp'),
      name_of_builtin hplaces hq (of_decide_eq_true hq')]

/-- A gradient in a gradient, names in letters of either case. -/
def gradientInGradient : String := "a<gradient=#000,#fff>b<Gradient=#f00,#00f>c</GRADIENT>d"

/-- The same text with the gradients taken out. -/
def gradientInGradientStripped : StrippedText where
  text := "abcd"
  tags :=
    [⟨"gradient", .span, .gradient, 1, 3, some "#000,#fff", []⟩,
      ⟨"gradient", .span, .gradient, 2, 1, some "#f00,#00f", []⟩]

theorem strip_nests_gradientInGradient :
    TagRegistry.builtin.strip gradientInGradient = .ok gradientInGradientStripped
      ∧ gradientInGradientStripped.Partners .builtin (Token.cut gradientInGradient) := by
  have hstrip : TagRegistry.builtin.strip gradientInGradient = .ok gradientInGradientStripped := by
    decide +kernel
  exact ⟨hstrip, ((strip_nests .builtin gradientInGradient).1 _ hstrip).1⟩

end BranchingDialogue
