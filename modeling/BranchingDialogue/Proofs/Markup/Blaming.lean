import BranchingDialogue.Proofs.Markup.Attributes
import BranchingDialogue.Proofs.Markup.Nesting
import BranchingDialogue.Proofs.Markup.Scanning

/-!
# What an error of markup points at

`Malformed` says when a token is malformed after some others. A text cannot be stripped exactly because
of its first malformed token, and the error says what is wrong with that one and where in the text:
`strip_error_blames`. Tokens that are not tags of the library's own are never malformed.
-/

namespace BranchingDialogue

variable {r : TagRegistry} {text : String} {before : List Token} {token : Token} {e : MarkupError}

/-! ## Malformed tokens -/

/-- A token is malformed after some others, in the way that an error says. -/
inductive Malformed (r : TagRegistry) (before : List Token) : Token → MarkupError → Prop
  | openQuote {name : String} {offset : Nat} {d : TagDefinition} (known : r.custom? name = some d) :
      Malformed r before (.openQuote name offset) (.unterminatedQuote name offset)
  | shape {t : Tag} {d : TagDefinition} (known : r.custom? t.name = some d)
      (shape : Stripping.writtenShape t.boundary ≠ d.shape) :
      Malformed r before (.tag t) (.shapeMismatch t.name d.shape t.start)
  | unmatched {t : Tag} {d : TagDefinition} (known : r.custom? t.name = some d)
      (shape : d.shape = .span) (boundary : t.boundary = .stop)
      (surplus : height (Token.bracket? t.name) (before ++ [.tag t]) < 0) :
      Malformed r before (.tag t) (.unmatchedEnd t.name t.start)
  | misread {t : Tag} {d : TagDefinition} {e : MarkupError} (known : r.custom? t.name = some d)
      (shape : Stripping.writtenShape t.boundary = d.shape) (boundary : t.boundary ≠ .stop)
      (noAttributes : ¬∃ as, Attribute.ReadsAs t.body.toList as)
      (place : Attribute.Misread t.name t.bodyStart t.body.toList e) : Malformed r before (.tag t) e

namespace Stripping

variable {s : Stripping}

theorem malformed_of_fails (h : s.Nests r before) (hfails : Fails r s token e) :
    Malformed r before token e := by
  cases hfails with
  | quote known => exact .openQuote known
  | shape known shape => exact .shape known shape
  | unmatched known boundary shape innermost =>
    exact .unmatched known shape boundary ((h.innermost?_eq_none_iff known boundary).1 innermost)
  | misread known boundary shape attributes =>
    obtain ⟨hnone, hplace⟩ := Tag.misread_of_attributes attributes
    exact .misread known shape boundary hnone hplace

/-- A malformed token cannot be stripped. -/
theorem exists_fails_of_malformed (h : s.Nests r before) (hmalformed : Malformed r before token e) :
    ∃ e', Fails r s token e' := by
  cases hmalformed with
  | openQuote known => exact ⟨_, .quote known⟩
  | shape known shape => exact ⟨_, .shape known shape⟩
  | unmatched known shape boundary surplus =>
    exact ⟨_, .unmatched known boundary shape ((h.innermost?_eq_none_iff known boundary).2 surplus)⟩
  | @misread t _ _ known shape boundary noAttributes =>
    cases hattributes : t.attributes with
    | error e' => exact ⟨e', .misread known boundary shape hattributes⟩
    | ok as => exact absurd ⟨as, Tag.attributes_eq_ok_iff.1 hattributes⟩ noAttributes

/-- Among tokens that have been stripped none is malformed. -/
theorem not_malformed_of_tokens (h : start.tokens r before = .ok s) {front rest : List Token}
    {t : Token} (hsplit : before = front ++ t :: rest) : ¬Malformed r front t e := by
  intro hmalformed
  rw [hsplit] at h
  obtain ⟨s₁, hfront, hrest⟩ := tokens_append_eq_ok_iff.1 h
  obtain ⟨s₂, hstrips, -⟩ := tokens_cons_eq_ok_iff.1 hrest
  obtain ⟨e', hfails⟩ := exists_fails_of_malformed (nests_of_tokens hfront) hmalformed
  have hok := token_eq_ok_iff.2 hstrips
  rw [token_eq_error_iff.2 hfails] at hok
  cases hok

end Stripping

/-! ## Where tokens stand -/

namespace Token

/-- The name of the tag that a token is or begins. -/
def name? : Token → Option String
  | .tag t => some t.name
  | .openQuote name _ => some name
  | .char _ => none

/-- The byte position behind some tokens at the beginning of a text. -/
def place (before : List Token) : Nat := utf8Length (before.flatMap source)

theorem place_cons (t : Token) (before : List Token) :
    place (t :: before) = utf8Length t.source + place before := by
  rw [place, place, List.flatMap_cons, utf8Length_append]

/-- A token stands at a position of a text. -/
def StandsAt (text : String) (start : Nat) : Token → Prop
  | .tag t => TagAt text start t
  | .openQuote name offset => OpenQuoteAt text start name offset
  | .char c => Spans text start (start + c.utf8Size) [c]

/-- Each token of a cut is the first one of the characters that are left there. -/
theorem exists_first_of_cutFrom {position : Nat} {cs : List Char} {after : List Token}
    (h : cutFrom 0 position cs = before ++ token :: after) :
    ∃ c rest, cs = before.flatMap source ++ c :: rest
      ∧ token = first (position + place before) c rest := by
  induction before generalizing position cs with
  | nil =>
    cases cs with
    | nil => cases h
    | cons c cs =>
      obtain ⟨more, rest, -, -, hcut⟩ := cutFrom_cons position c cs
      rw [hcut] at h
      exact ⟨c, cs, rfl, (List.cons.inj h).1.symm⟩
  | cons t before ih =>
    cases cs with
    | nil => cases h
    | cons c cs =>
      obtain ⟨more, rest, hsource, rfl, hcut⟩ := cutFrom_cons position c cs
      rw [hcut, List.cons_append, List.cons.injEq] at h
      obtain ⟨rfl, h⟩ := h
      obtain ⟨c', rest', rfl, rfl⟩ := ih h
      refine ⟨c', rest', ?_, ?_⟩
      · rw [List.flatMap_cons, hsource]
        simp
      · rw [place_cons, Nat.add_assoc]

theorem standsAt_of_cut {after : List Token} (h : cut text = before ++ token :: after) :
    token.StandsAt text (place before) := by
  obtain ⟨c, rest, htext, rfl⟩ := exists_first_of_cutFrom h
  rw [Nat.zero_add]
  have hscan := Scan.ofText_eq htext
  unfold first
  split
  · next t hfound => exact Scan.ofText_eq_tag_iff.1 (hscan.trans hfound)
  · next name offset hfound =>
    exact Scan.ofText_eq_unterminatedQuote_iff.1 (hscan.trans hfound)
  · exact ⟨before.flatMap source, rest, by rw [htext]; simp, rfl, rfl⟩

end Token

/-! ## What errors point at -/

namespace MarkupError

/-- The tag that an error is about, as it is written. -/
def tag : MarkupError → String
  | .unterminatedQuote tag _ => tag
  | .invalidAttributeName tag _ _ => tag
  | .emptyAttributeValue tag _ => tag
  | .unmatchedEnd tag _ => tag
  | .shapeMismatch tag _ _ => tag
  | .invalidParameter tag _ _ => tag
  | .reservedName tag => tag

/-- The byte position that an error is reported at. -/
def offset? : MarkupError → Option Nat
  | .unterminatedQuote _ offset => some offset
  | .invalidAttributeName _ _ offset => some offset
  | .emptyAttributeValue _ offset => some offset
  | .unmatchedEnd _ offset => some offset
  | .shapeMismatch _ _ offset => some offset
  | .invalidParameter _ _ _ => none
  | .reservedName _ => none

/-- Where in a text an error points: for a token that stands at a position, at its `<`, at a quote
after that, at the very text that is no name, or at a place between the name and the `>`. -/
def PointsInto (text : String) (start : Nat) (token : Token) : MarkupError → Prop
  | .unterminatedQuote _ offset =>
    start < offset ∧ ∃ q, isQuote q ∧ Spans text offset (offset + q.utf8Size) [q]
  | .invalidAttributeName _ name offset =>
    start < offset ∧ Spans text offset (offset + name.utf8ByteSize) name.toList
  | .emptyAttributeValue _ offset =>
    ∃ t, token = .tag t ∧ t.bodyStart ≤ offset ∧ offset < t.stop
  | .unmatchedEnd _ offset => offset = start ∧ Spans text offset (offset + 1) ['<']
  | .shapeMismatch _ _ offset => offset = start ∧ Spans text offset (offset + 1) ['<']
  | .invalidParameter _ _ _ => False
  | .reservedName _ => False

end MarkupError

/-- An error is reported for a token of a text. -/
structure Token.IsBlamed (r : TagRegistry) (text : String) (before : List Token) (token : Token)
    (e : MarkupError) : Prop where
  /-- It is malformed in the way that the error says. -/
  malformed : Malformed r before token e
  /-- It is the first malformed token. -/
  first : ∀ front t rest e', before = front ++ t :: rest → ¬Malformed r front t e'
  /-- It stands where the tokens before it end. -/
  stands : token.StandsAt text (place before)
  /-- It is a tag of the library's own, and the error has its name. -/
  name : token.name? = some e.tag ∧ ∃ d, r.custom? e.tag = some d
  /-- It is no tag of the text renderer. -/
  family : r.Built → r.classify? e.tag = some .custom
  /-- The error points at what is wrong with it. -/
  points : e.PointsInto text (place before) token
  /-- The error points at a character of the text. -/
  inside : ∃ offset c, e.offset? = some offset ∧ Spans text offset (offset + c.utf8Size) [c]

/-- The body of a tag stands in the text, and its `>` stands behind it. -/
theorem TagAt.exists_body {start : Nat} {t : Tag} (h : TagAt text start t) :
    start < t.bodyStart ∧ ∃ c rest, Spans text t.bodyStart t.stop (t.body.toList ++ c :: rest) := by
  obtain ⟨rfl, closing, name, body, -, hreports⟩ := h
  obtain ⟨_, _, _, _, hbodyStart⟩ := hreports.front
  have hcovers := hreports.covers
  rw [tagChars, List.append_assoc] at hcovers
  have hrest := hcovers.right
  rw [hbodyStart] at hrest
  refine ⟨?_, ?_⟩
  · rw [← hbodyStart, Scan.utf8Length_tagFront]
    omega
  · rw [hreports.body]
    split
    · next hslash =>
      obtain ⟨init, rfl⟩ := List.getLast?_eq_some_iff.1 hslash
      rw [List.append_assoc] at hrest
      rw [List.dropLast_concat]
      exact ⟨'/', ['>'], hrest⟩
    · exact ⟨'>', [], hrest⟩

theorem TagAt.opening {start : Nat} {t : Tag} (h : TagAt text start t) :
    Spans text start (start + 1) ['<'] := by
  obtain ⟨rfl, closing, name, body, -, hreports⟩ := h
  exact hreports.covers.first

/-- In front of a character of the text stands a character or it itself. -/
theorem exists_character {start stop : Nat} {cs rest : List Char} {c : Char}
    (h : Spans text start stop (cs ++ c :: rest)) : ∃ d, Spans text start (start + d.utf8Size) [d] := by
  cases cs with
  | nil => exact ⟨c, h.first⟩
  | cons d cs => exact ⟨d, h.first⟩

/-- Where a body is misread the text shows what is wrong. -/
theorem points_of_misread {start : Nat} {t : Tag} (h : TagAt text start t)
    (hmisread : Attribute.Misread t.name t.bodyStart t.body.toList e) :
    e.tag = t.name ∧ e.PointsInto text start (.tag t)
      ∧ ∃ offset c, e.offset? = some offset ∧ Spans text offset (offset + c.utf8Size) [c] := by
  obtain ⟨hstart, c, rest, hbody⟩ := h.exists_body
  generalize t.body.toList = body at hmisread hbody
  cases hmisread with
  | @quote before inner q quote unclosed =>
    rw [List.append_assoc] at hbody
    have hquote := hbody.right.first
    exact ⟨rfl, ⟨by omega, q, quote, hquote⟩, _, q, rfl, hquote⟩
  | @name before name inner part ends noName =>
    rw [List.append_assoc] at hbody
    obtain ⟨d, hd⟩ := exists_character hbody.right
    rw [List.append_assoc] at hbody
    refine ⟨rfl, ⟨by omega, ?_⟩, _, d, rfl, hd⟩
    rw [← utf8Length_toList, String.toList_ofList]
    exact hbody.right.left
  | @value before inner missing =>
    rw [List.append_assoc] at hbody
    obtain ⟨d, hd⟩ := exists_character hbody.right
    obtain ⟨_, _, _, _, hstop⟩ := hbody.right
    have hpos := c.utf8Size_pos
    simp only [utf8Length_append, utf8Length_cons] at hstop
    exact ⟨rfl, ⟨t, rfl, by omega, by omega⟩, _, d, rfl, hd⟩

/-- Every error of a malformed token points at what is wrong. -/
theorem points_of_malformed {start : Nat} (hstands : token.StandsAt text start)
    (h : Malformed r before token e) :
    (token.name? = some e.tag ∧ ∃ d, r.custom? e.tag = some d) ∧ e.PointsInto text start token
      ∧ ∃ offset c, e.offset? = some offset ∧ Spans text offset (offset + c.utf8Size) [c] := by
  cases h with
  | @openQuote name offset d known =>
    obtain ⟨closing, body, q, rest, -, -, -, hfront, hquote, -, hrest⟩ := hstands
    obtain ⟨_, _, _, _, hoffset⟩ := hfront
    refine ⟨⟨rfl, d, known⟩, ⟨?_, q, hquote, hrest.first⟩, offset, q, rfl, hrest.first⟩
    rw [utf8Length_append, Scan.utf8Length_tagFront] at hoffset
    omega
  | @shape t d known shape =>
    obtain rfl : t.start = start := hstands.1
    exact ⟨⟨rfl, d, known⟩, ⟨rfl, hstands.opening⟩, t.start, '<', rfl, hstands.opening⟩
  | @unmatched t d known shape boundary surplus =>
    obtain rfl : t.start = start := hstands.1
    exact ⟨⟨rfl, d, known⟩, ⟨rfl, hstands.opening⟩, t.start, '<', rfl, hstands.opening⟩
  | @misread t d _ known shape boundary noAttributes place =>
    obtain ⟨htag, hpoints, hinside⟩ := points_of_misread hstands place
    exact ⟨⟨by rw [htag]; rfl, d, by rwa [htag]⟩, hpoints, hinside⟩

/-- **An error of a text is that of its first malformed tag, and points at what is wrong there.** The
tag is one of the library's own, and what the error points at is a character of the text. -/
theorem strip_error_blames (h : r.strip text = .error e) :
    ∃ before token after, Token.cut text = before ++ token :: after
      ∧ token.IsBlamed r text before e := by
  obtain ⟨before, token, after, s, hcut, hbefore, hfails⟩ := TagRegistry.strip_eq_error_iff.1 h
  have hmalformed := Stripping.malformed_of_fails (Stripping.nests_of_tokens hbefore) hfails
  have hstands := Token.standsAt_of_cut hcut
  obtain ⟨hname, hpoints, hinside⟩ := points_of_malformed hstands hmalformed
  exact ⟨before, token, after, hcut,
    { malformed := hmalformed
      first := fun front t rest e' hsplit => Stripping.not_malformed_of_tokens hbefore hsplit
      stands := hstands
      name := hname
      family := fun hbuilt => hbuilt.classify?_eq_custom_iff.2 hname.2
      points := hpoints
      inside := hinside }⟩

/-- A tag whose quotes pair up for the scan, but not for its attributes: one of them is part of a
value without quotes. -/
def crossedQuotes : String := "é<b x><wait=it's a=\"x'\" b=\"/>!"

theorem strip_error_blames_crossedQuotes :
    TagRegistry.builtin.strip crossedQuotes = .error (.unterminatedQuote "wait" 27)
      ∧ ∃ before token after, Token.cut crossedQuotes = before ++ token :: after
        ∧ token.IsBlamed .builtin crossedQuotes before (.unterminatedQuote "wait" 27) := by
  have hstrip : TagRegistry.builtin.strip crossedQuotes = .error (.unterminatedQuote "wait" 27) := by
    decide +kernel
  exact ⟨hstrip, strip_error_blames hstrip⟩

end BranchingDialogue
