import BranchingDialogue.Markup.Strip

/-!
# What stripping a token does

`Strips` lists, case by case, how a token changes a text being stripped, and `Fails` what a token can
be an error for. `token_eq_ok_iff` and `token_eq_error_iff` say that these are all the cases, so
nothing that follows looks at the code of a step again.
-/

namespace BranchingDialogue.Stripping

/-- A tag as it is placed when it is taken out. -/
def placed (s : Stripping) (d : TagDefinition) (as : List Attribute) : PlacedTag where
  name := d.name
  shape := d.shape
  behavior := d.behavior
  start := s.count
  length := 0
  parameter := ownValue as
  attributes := named as

/-- The innermost open tag of a name. -/
def innermost? (s : Stripping) (name : String) : Option Nat :=
  s.unclosed.find? fun i => (s.tags[i]?.map (·.name)) = some name

/-- How a token changes a text being stripped. -/
inductive Strips (r : TagRegistry) (s : Stripping) : Token → Stripping → Prop
  | foreign {t : Tag} (unknown : r.custom? t.name = none) :
      Strips r s (.tag t) (s.display t.source.toList)
  | quote {name : String} {offset : Nat} (unknown : r.custom? name = none) :
      Strips r s (.openQuote name offset) (s.display ['<'])
  | char (c : Char) : Strips r s (.char c) (s.display [c])
  | marks {t : Tag} {d : TagDefinition} {as : List Attribute} (known : r.custom? t.name = some d)
      (boundary : t.boundary = .marker) (shape : d.shape = .single)
      (attributes : t.attributes = .ok as) :
      Strips r s (.tag t) { s with tags := s.tags.push (s.placed d as) }
  | opens {t : Tag} {d : TagDefinition} {as : List Attribute} (known : r.custom? t.name = some d)
      (boundary : t.boundary = .start) (shape : d.shape = .span)
      (attributes : t.attributes = .ok as) :
      Strips r s (.tag t)
        { s with tags := s.tags.push (s.placed d as), unclosed := s.tags.size :: s.unclosed }
  | closes {t : Tag} {d : TagDefinition} {i : Nat} (known : r.custom? t.name = some d)
      (boundary : t.boundary = .stop) (shape : d.shape = .span)
      (innermost : s.innermost? d.name = some i) :
      Strips r s (.tag t) { s.close i with unclosed := s.unclosed.erase i }

/-- What a token is an error for. -/
inductive Fails (r : TagRegistry) (s : Stripping) : Token → MarkupError → Prop
  | quote {name : String} {offset : Nat} {d : TagDefinition} (known : r.custom? name = some d) :
      Fails r s (.openQuote name offset) (.unterminatedQuote name offset)
  | shape {t : Tag} {d : TagDefinition} (known : r.custom? t.name = some d)
      (shape : writtenShape t.boundary ≠ d.shape) :
      Fails r s (.tag t) (.shapeMismatch t.name d.shape t.start)
  | unmatched {t : Tag} {d : TagDefinition} (known : r.custom? t.name = some d)
      (boundary : t.boundary = .stop) (shape : d.shape = .span)
      (innermost : s.innermost? d.name = none) :
      Fails r s (.tag t) (.unmatchedEnd t.name t.start)
  | misread {t : Tag} {d : TagDefinition} {e : MarkupError} (known : r.custom? t.name = some d)
      (boundary : t.boundary ≠ .stop) (shape : writtenShape t.boundary = d.shape)
      (attributes : t.attributes = .error e) : Fails r s (.tag t) e

variable {r : TagRegistry} {s s' : Stripping}

theorem strips_of_custom {t : Tag} {d : TagDefinition} (known : r.custom? t.name = some d)
    (h : s.custom d t = .ok s') : Strips r s (.tag t) s' := by
  unfold custom at h
  split at h
  · cases h
  · next hshape =>
    have hshape := Classical.not_not.1 hshape
    split at h
    · next hstop =>
      unfold closeInnermost at h
      split at h
      · next i hi =>
        cases h
        exact .closes known hstop (by rw [← hshape, hstop]; rfl) hi
      · cases h
    · next hstop =>
      unfold takeOut at h
      split at h
      · cases h
      · next as has =>
        cases h
        cases hboundary : t.boundary with
        | start =>
          exact .opens known hboundary (by rw [← hshape, hboundary]; rfl) has
        | stop => exact absurd hboundary hstop
        | marker =>
          exact .marks known hboundary (by rw [← hshape, hboundary]; rfl) has

theorem token_eq_ok_iff {t : Token} : s.token r t = .ok s' ↔ Strips r s t s' := by
  constructor
  · intro h
    unfold token at h
    split at h
    · next t =>
      split at h
      · next d hd => exact strips_of_custom hd h
      · next hd =>
        cases h
        exact .foreign hd
    · next name offset =>
      split at h
      · cases h
      · next hd =>
        cases h
        exact .quote (by simpa using hd)
    · next c =>
      cases h
      exact .char c
  · intro h
    cases h with
    | foreign unknown => simp [token, unknown]
    | quote unknown => simp [token, unknown]
    | char c => rfl
    | marks known boundary shape attributes =>
      simp [token, known, custom, takeOut, writtenShape, boundary, shape, attributes, placed]
    | opens known boundary shape attributes =>
      simp [token, known, custom, takeOut, writtenShape, boundary, shape, attributes, placed]
    | closes known boundary shape innermost =>
      unfold innermost? at innermost
      simp only [token, known, custom, closeInnermost, writtenShape, boundary, shape, innermost,
        ne_eq, not_true_eq_false, if_false, if_true]

theorem fails_of_custom {t : Tag} {d : TagDefinition} {e : MarkupError}
    (known : r.custom? t.name = some d) (h : s.custom d t = .error e) : Fails r s (.tag t) e := by
  unfold custom at h
  split at h
  · next hshape =>
    cases h
    exact .shape known hshape
  · next hshape =>
    have hshape := Classical.not_not.1 hshape
    split at h
    · next hstop =>
      unfold closeInnermost at h
      split at h
      · cases h
      · next hnone =>
        cases h
        exact .unmatched known hstop (by rw [← hshape, hstop]; rfl) hnone
    · next hstop =>
      unfold takeOut at h
      split at h
      · next e' he =>
        cases h
        exact .misread known hstop hshape he
      · cases h

theorem token_eq_error_iff {t : Token} {e : MarkupError} :
    s.token r t = .error e ↔ Fails r s t e := by
  constructor
  · intro h
    unfold token at h
    split at h
    · next t =>
      split at h
      · next d hd => exact fails_of_custom hd h
      · cases h
    · next name offset =>
      split at h
      · next hd =>
        cases h
        obtain ⟨d, hd⟩ := Option.isSome_iff_exists.1 hd
        exact .quote hd
      · cases h
    · cases h
  · intro h
    cases h with
    | quote known => simp [token, known]
    | shape known shape => simp [token, known, custom, shape]
    | unmatched known boundary shape innermost =>
      unfold innermost? at innermost
      simp only [token, known, custom, closeInnermost, writtenShape, boundary, shape, innermost,
        ne_eq, not_true_eq_false, if_false, if_true]
    | misread known boundary shape attributes =>
      simp [token, known, custom, takeOut, boundary, shape, attributes]

theorem tokens_cons_eq_ok_iff {t : Token} {ts : List Token} :
    s.tokens r (t :: ts) = .ok s' ↔ ∃ s₁, Strips r s t s₁ ∧ s₁.tokens r ts = .ok s' := by
  rw [tokens]
  cases hs : s.token r t with
  | error e => simp [← token_eq_ok_iff, hs]
  | ok s₁ => simp [← token_eq_ok_iff, hs]

/-- Tokens can be stripped in two parts. -/
theorem tokens_append_eq_ok_iff {ts us : List Token} :
    s.tokens r (ts ++ us) = .ok s' ↔ ∃ s₁, s.tokens r ts = .ok s₁ ∧ s₁.tokens r us = .ok s' := by
  induction ts generalizing s with
  | nil => simp [tokens]
  | cons t ts ih =>
    rw [List.cons_append, tokens_cons_eq_ok_iff]
    constructor
    · rintro ⟨s₁, hstrips, h⟩
      obtain ⟨s₂, hts, hus⟩ := ih.1 h
      exact ⟨s₂, tokens_cons_eq_ok_iff.2 ⟨s₁, hstrips, hts⟩, hus⟩
    · rintro ⟨s₂, h, hus⟩
      obtain ⟨s₁, hstrips, hts⟩ := tokens_cons_eq_ok_iff.1 h
      exact ⟨s₁, hstrips, ih.2 ⟨s₂, hts, hus⟩⟩

/-- Tokens cannot be stripped because of the first one that cannot. -/
theorem tokens_eq_error_iff {ts : List Token} {e : MarkupError} :
    s.tokens r ts = .error e
      ↔ ∃ before t after s', ts = before ++ t :: after ∧ s.tokens r before = .ok s'
        ∧ Fails r s' t e := by
  induction ts generalizing s with
  | nil => simp [tokens]
  | cons t ts ih =>
    rw [tokens]
    cases hs : s.token r t with
    | error e' =>
      simp only [Except.error.injEq]
      constructor
      · rintro rfl
        exact ⟨[], t, ts, s, rfl, rfl, token_eq_error_iff.1 hs⟩
      · rintro ⟨before, u, after, s', hsplit, hbefore, hfails⟩
        cases before with
        | nil =>
          cases hsplit
          cases hbefore
          rw [token_eq_error_iff.2 hfails, Except.error.injEq] at hs
          exact hs.symm
        | cons v before =>
          obtain ⟨rfl, -⟩ := List.cons.inj hsplit
          obtain ⟨s₁, hstrips, -⟩ := tokens_cons_eq_ok_iff.1 hbefore
          rw [token_eq_ok_iff.2 hstrips] at hs
          cases hs
    | ok s₁ =>
      simp only [ih]
      constructor
      · rintro ⟨before, u, after, s', rfl, hbefore, hfails⟩
        exact ⟨t :: before, u, after, s', rfl,
          tokens_cons_eq_ok_iff.2 ⟨s₁, token_eq_ok_iff.1 hs, hbefore⟩, hfails⟩
      · rintro ⟨before, u, after, s', hsplit, hbefore, hfails⟩
        cases before with
        | nil =>
          cases hsplit
          cases hbefore
          rw [token_eq_error_iff.2 hfails] at hs
          cases hs
        | cons v before =>
          obtain ⟨rfl, rfl⟩ := List.cons.inj hsplit
          obtain ⟨s₂, hstrips, hrest⟩ := tokens_cons_eq_ok_iff.1 hbefore
          rw [token_eq_ok_iff.2 hstrips, Except.ok.injEq] at hs
          exact ⟨before, u, after, s', rfl, hs ▸ hrest, hfails⟩

end BranchingDialogue.Stripping

namespace BranchingDialogue.TagRegistry

variable {r : TagRegistry} {text : String}

theorem strip_eq_ok_iff {s : StrippedText} :
    r.strip text = .ok s
      ↔ ∃ last, Stripping.start.tokens r (Token.cut text) = .ok last ∧ last.finish = s := by
  unfold strip
  cases Stripping.start.tokens r (Token.cut text) with
  | error e => exact ⟨fun h => (by cases h), fun ⟨_, h, _⟩ => by cases h⟩
  | ok last =>
    constructor
    · intro h
      cases h
      exact ⟨last, rfl, rfl⟩
    · rintro ⟨_, ⟨⟩, rfl⟩
      rfl

/-- The error of a text is that of the first token that cannot be stripped. -/
theorem strip_eq_error_iff {e : MarkupError} :
    r.strip text = .error e
      ↔ ∃ before t after s, Token.cut text = before ++ t :: after
        ∧ Stripping.start.tokens r before = .ok s ∧ Stripping.Fails r s t e := by
  rw [← Stripping.tokens_eq_error_iff, strip]
  cases Stripping.start.tokens r (Token.cut text) with
  | error e' => exact ⟨fun h => (by cases h; rfl), fun h => by cases h; rfl⟩
  | ok last => exact ⟨fun h => (by cases h), fun h => by cases h⟩

end BranchingDialogue.TagRegistry
