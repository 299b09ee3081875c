import BranchingDialogue.Proofs.Markup.Bytewise

/-!
# What a scan finds

A tag, by the grammar, is `<`, at most one `/`, a name, a body and `>`, without a `/` both in front
of the name and at the end of the body. `TagAt` says that such a tag stands at a byte position of a
text and how it is reported, `OpenQuoteAt` that what stands there goes on like a tag up to a quote
without a partner.

Main result: `Scan.ofText_grammar`, a scan finds the one, the other or nothing, exactly as it stands
in the text, and all its cuts fall between characters.
-/

namespace BranchingDialogue

/-! ## The grammar -/

/-- A character that a body can begin with. -/
def BeginsBody (c : Char) : Prop := c = '=' ∨ c = '/' ∨ isBlank c

/-- A name and a body that make up a tag. -/
structure IsTag (closing : Bool) (name body : List Char) : Prop where
  named : IsTagName name
  opens : ∀ c ∈ body.head?, BeginsBody c
  content : IsBody body
  oneSlash : ¬(closing ∧ body.getLast? = some '/')

/-- The characters of a tag up to its body. -/
def tagFront (closing : Bool) (name : List Char) : List Char :=
  '<' :: (if closing then ['/'] else []) ++ name

/-- The characters of a tag. -/
def tagChars (closing : Bool) (name body : List Char) : List Char :=
  tagFront closing name ++ body ++ ['>']

/-- What is reported of a tag is what stands in the text. -/
structure Tag.Reports (t : Tag) (text : String) (closing : Bool) (name body : List Char) : Prop where
  covers : Spans text t.start t.stop (tagChars closing name body)
  front : Spans text t.start t.bodyStart (tagFront closing name)
  source : t.source.toList = tagChars closing name body
  name : t.name.toList = name
  boundary :
    t.boundary = if closing then .stop else if body.getLast? = some '/' then .marker else .start
  body : t.body.toList = if body.getLast? = some '/' then body.dropLast else body

/-- A tag stands at a position of a text. -/
def TagAt (text : String) (start : Nat) (t : Tag) : Prop :=
  t.start = start ∧ ∃ closing name body, IsTag closing name body ∧ t.Reports text closing name body

/-- What stands at a position of a text goes on like a tag up to a quote that is never closed. -/
def OpenQuoteAt (text : String) (start : Nat) (name : String) (offset : Nat) : Prop :=
  ∃ closing body q rest, IsTagName name.toList ∧ (∃ c ∈ body.head?, BeginsBody c) ∧ IsBody body
    ∧ Spans text start offset (tagFront closing name.toList ++ body)
    ∧ isQuote q ∧ q ∉ rest ∧ Spans text offset text.utf8ByteSize (q :: rest)

namespace Scan

theorem opensBody_iff {c : Char} : opensBody c ↔ c = '>' ∨ BeginsBody c := by
  simp only [opensBody, BeginsBody, Bool.or_eq_true, beq_iff_eq, or_assoc]

theorem not_beginsBody_of_isQuote {q : Char} (h : isQuote q) : ¬BeginsBody q := by
  simp only [isQuote, Bool.or_eq_true, beq_iff_eq] at h
  unfold BeginsBody
  rcases h with rfl | rfl <;> decide

/-- Only an empty body begins with a `>`. -/
theorem head?_ne_closing {body : List Char} (h : IsBody body) : ∀ c ∈ body.head?, c ≠ '>' := by
  cases h with
  | nil => simp
  | quoted quote =>
    rintro c hc rfl
    cases hc
    exact absurd quote (by decide)
  | plain noQuote noOpening noClosing =>
    rintro c hc
    cases hc
    exact noClosing

/-- In front of a `>` a body is empty or begins like one. -/
theorem opens_closed_iff {body : List Char} (h : IsBody body) (rest : List Char) :
    (body ++ '>' :: rest).head?.any opensBody ↔ ∀ c ∈ body.head?, BeginsBody c := by
  have hclosing := head?_ne_closing h
  cases body with
  | nil => simp [opensBody]
  | cons c body => simpa [opensBody_iff] using fun hc => absurd hc (hclosing c rfl)

/-- In front of a quote a body is not empty. -/
theorem opens_openQuote_iff {body : List Char} {q : Char} (h : IsBody body) (quote : isQuote q)
    (rest : List Char) :
    (body ++ q :: rest).head?.any opensBody ↔ ∃ c ∈ body.head?, BeginsBody c := by
  have hclosing := head?_ne_closing h
  cases body with
  | nil =>
    have hq := not_beginsBody_of_isQuote quote
    have hq' : q ≠ '>' := by
      rintro rfl
      exact absurd quote (by decide)
    simp [opensBody_iff, hq, hq']
  | cons c body => simpa [opensBody_iff] using fun hc => absurd hc (hclosing c rfl)

theorem utf8Length_tagFront (closing : Bool) (name : List Char) :
    utf8Length (tagFront closing name) = 1 + (if closing then 1 else 0) + utf8Length name := by
  have hlen : utf8Length ('<' :: if closing then ['/'] else []) = 1 + if closing then 1 else 0 := by
    cases closing <;> rfl
  rw [tagFront, utf8Length_append, hlen]

/-! ## What is found after the `<` -/

theorem assemble_eq_tag_iff {start : Nat} {closing : Bool} {name body : List Char} {t : Tag} :
    assemble start closing name body = .tag t
      ↔ ¬(closing ∧ body.getLast? = some '/')
        ∧ { boundary :=
              if closing then .stop else if body.getLast? = some '/' then .marker else .start
            name := String.ofList name
            body := String.ofList (if body.getLast? = some '/' then body.dropLast else body)
            start
            stop := start + utf8Length (tagChars closing name body)
            bodyStart := start + utf8Length (tagFront closing name)
            source := String.ofList (tagChars closing name body) } = t := by
  have hfront : start + utf8Length (tagFront closing name)
      = start + 1 + (if closing then 1 else 0) + utf8Length name := by
    rw [utf8Length_tagFront]
    omega
  have hstop : start + utf8Length (tagChars closing name body)
      = start + 1 + (if closing then 1 else 0) + utf8Length name + utf8Length body + 1 := by
    have hclose : utf8Length ['>'] = 1 := rfl
    rw [tagChars, utf8Length_append, utf8Length_append, utf8Length_tagFront]
    omega
  rw [hfront, hstop]
  unfold assemble
  simp only [Bool.and_eq_true, decide_eq_true_eq]
  split
  · next hboth => simp [hboth]
  · next hends => simp [hends, tagChars, tagFront]

theorem afterOpening_eq_tag_iff {start : Nat} {cs : List Char} {t : Tag} :
    afterOpening start cs = .tag t
      ↔ ∃ closing name body rest, IsTagName name ∧ (∀ c ∈ body.head?, BeginsBody c) ∧ IsBody body
        ∧ '<' :: cs = tagChars closing name body ++ rest
        ∧ assemble start closing name body = .tag t := by
  constructor
  · intro h
    have hfound : afterOpening start cs ≠ .notATag := by
      rw [h]
      nofun
    obtain ⟨closing, name, afterName, hbegins, rfl⟩ := exists_beginsTag_of_afterOpening hfound
    rw [afterOpening_eq hbegins] at h
    split at h
    · next body hend =>
      obtain ⟨hbody, rest, rfl⟩ := bodyEnd_eq_closed_iff.1 hend
      exact ⟨closing, name, body, rest, isTagName_iff.2 ⟨hbegins.named, hbegins.letters⟩,
        (opens_closed_iff hbody rest).1 hbegins.opens, hbody, by simp [tagChars, tagFront], h⟩
    · cases h
    · cases h
  · rintro ⟨closing, name, body, rest, hname, hopens, hbody, hcs, htag⟩
    obtain rfl : cs = (if closing then ['/'] else []) ++ name ++ (body ++ '>' :: rest) := by
      simpa [tagChars, tagFront] using hcs
    obtain ⟨hnamed, hletters⟩ := isTagName_iff.1 hname
    rw [afterOpening_eq ⟨hnamed, hletters, (opens_closed_iff hbody rest).2 hopens⟩,
      bodyEnd_closing hbody]
    exact htag

theorem afterOpening_eq_unterminatedQuote_iff {start offset : Nat} {cs : List Char}
    {name : String} :
    afterOpening start cs = .unterminatedQuote name offset
      ↔ ∃ closing body q rest, IsTagName name.toList ∧ (∃ c ∈ body.head?, BeginsBody c)
        ∧ IsBody body ∧ isQuote q ∧ q ∉ rest
        ∧ '<' :: cs = tagFront closing name.toList ++ body ++ q :: rest
        ∧ offset = start + utf8Length (tagFront closing name.toList ++ body) := by
  have hfront (closing : Bool) (name body : List Char) :
      start + 1 + (if closing then 1 else 0) + utf8Length name + utf8Length body
        = start + utf8Length (tagFront closing name ++ body) := by
    rw [utf8Length_append, utf8Length_tagFront]
    omega
  constructor
  · intro h
    have hfound : afterOpening start cs ≠ .notATag := by
      rw [h]
      nofun
    obtain ⟨closing, letters, afterName, hbegins, rfl⟩ := exists_beginsTag_of_afterOpening hfound
    rw [afterOpening_eq hbegins] at h
    split at h
    · next body _ =>
      unfold assemble at h
      simp only at h
      split at h <;> cases h
    · cases h
    · next offset' hend =>
      cases h
      obtain ⟨body, q, rest, hbody, hquote, hopen, rfl, rfl⟩ := bodyEnd_eq_openQuote_iff.1 hend
      rw [String.toList_ofList]
      exact ⟨closing, body, q, rest, isTagName_iff.2 ⟨hbegins.named, hbegins.letters⟩,
        (opens_openQuote_iff hbody hquote rest).1 hbegins.opens, hbody, hquote, hopen,
        by simp [tagFront], hfront closing letters body⟩
  · rintro ⟨closing, body, q, rest, hname, hopens, hbody, hquote, hopen, hcs, rfl⟩
    obtain rfl : cs = (if closing then ['/'] else []) ++ name.toList ++ (body ++ q :: rest) := by
      simpa [tagFront] using hcs
    obtain ⟨hnamed, hletters⟩ := isTagName_iff.1 hname
    rw [afterOpening_eq ⟨hnamed, hletters, (opens_openQuote_iff hbody hquote rest).2 hopens⟩,
      bodyEnd_openQuote hbody hquote hopen]
    simp only [hfront, String.ofList_toList]

/-! ## What is found in a text -/

/-- Where something is found stands a `<`. -/
theorem ofText_eq_iff {text : String} {start : Nat} {found : Scan} (h : found ≠ .notATag) :
    ofText text start = found
      ↔ ∃ before cs, text.toList = before ++ '<' :: cs ∧ utf8Length before = start
        ∧ afterOpening start cs = found := by
  constructor
  · rintro rfl
    unfold ofText at h ⊢
    split at h
    · next cs hcs =>
      obtain ⟨before, htext, hlen⟩ := exists_of_dropBytes? hcs
      unfold fromList at h
      split at h
      · next cs => exact ⟨before, cs, htext, hlen, rfl⟩
      · exact absurd rfl h
    · exact absurd rfl h
  · rintro ⟨before, cs, htext, rfl, hfound⟩
    rw [ofText_eq htext]
    exact hfound

theorem ofText_eq_tag_iff {text : String} {start : Nat} {t : Tag} :
    ofText text start = .tag t ↔ TagAt text start t := by
  rw [ofText_eq_iff (by simp)]
  constructor
  · rintro ⟨before, cs, htext, rfl, h⟩
    obtain ⟨closing, name, body, rest, hname, hopens, hbody, hcs, htag⟩ :=
      afterOpening_eq_tag_iff.1 h
    obtain ⟨hslash, rfl⟩ := assemble_eq_tag_iff.1 htag
    rw [hcs] at htext
    refine ⟨rfl, closing, name, body, ⟨hname, hopens, hbody, hslash⟩, ?_⟩
    exact
      { covers := ⟨before, rest, by rw [htext, List.append_assoc], rfl, rfl⟩
        front := ⟨before, body ++ '>' :: rest, by rw [htext, tagChars]; simp, rfl, rfl⟩
        source := String.toList_ofList
        name := String.toList_ofList
        boundary := rfl
        body := String.toList_ofList }
  · rintro ⟨rfl, closing, name, body, htag, hreports⟩
    obtain ⟨before, after, htext, hbefore, hstop⟩ := hreports.covers
    obtain ⟨_, _, _, _, hbodyStart⟩ := hreports.front
    refine ⟨before, (if closing then ['/'] else []) ++ name ++ body ++ '>' :: after,
      by rw [htext]; simp [tagChars, tagFront], hbefore, afterOpening_eq_tag_iff.2 ?_⟩
    refine ⟨closing, name, body, after, htag.named, htag.opens, htag.content,
      by simp [tagChars, tagFront], assemble_eq_tag_iff.2 ⟨htag.oneSlash, ?_⟩⟩
    rw [hstop, hbodyStart, ← hreports.boundary, ← hreports.body, ← hreports.source]
    obtain rfl := hreports.name
    simp only [String.ofList_toList]

theorem ofText_eq_unterminatedQuote_iff {text : String} {start offset : Nat} {name : String} :
    ofText text start = .unterminatedQuote name offset ↔ OpenQuoteAt text start name offset := by
  rw [ofText_eq_iff (by simp)]
  constructor
  · rintro ⟨before, cs, htext, rfl, h⟩
    obtain ⟨closing, body, q, rest, hname, hopens, hbody, hquote, hopen, hcs, rfl⟩ :=
      afterOpening_eq_unterminatedQuote_iff.1 h
    rw [hcs] at htext
    refine ⟨closing, body, q, rest, hname, hopens, hbody,
      ⟨before, q :: rest, by rw [htext]; simp, rfl, rfl⟩, hquote, hopen,
      before ++ (tagFront closing name.toList ++ body), [], by rw [htext]; simp,
      utf8Length_append _ _, ?_⟩
    rw [← utf8Length_toList, htext]
    simp only [utf8Length_append]
    omega
  · rintro ⟨closing, body, q, rest, hname, hopens, hbody, hfront, hquote, hopen, hrest⟩
    obtain ⟨before, after, htext, hbefore, hstop⟩ := hfront.append hrest
    obtain ⟨-, -, -, -, hoffset⟩ := hfront
    -- The quote and what follows it reach to the end of the text.
    obtain rfl : after = [] := by
      cases after with
      | nil => rfl
      | cons c after =>
        have hpos := c.utf8Size_pos
        rw [← utf8Length_toList, htext] at hstop
        simp only [utf8Length_append, utf8Length_cons] at hstop
        omega
    refine ⟨before, (if closing then ['/'] else []) ++ name.toList ++ body ++ q :: rest,
      by rw [htext]; simp [tagFront], hbefore, afterOpening_eq_unterminatedQuote_iff.2 ?_⟩
    exact ⟨closing, body, q, rest, hname, hopens, hbody, hquote, hopen, by simp [tagFront],
      hoffset.symm⟩

/-- **A scan finds exactly what the grammar says.** At every byte position of every text, positions
inside a character and past the end included, it cuts the text between characters only, and finds a
tag where a tag stands, an open quote where one stops a tag, and otherwise nothing. -/
theorem ofText_grammar (text : String) (start : Nat) :
    Bytewise.scan? text start = some (ofText text start)
      ∧ (∀ t, ofText text start = .tag t ↔ TagAt text start t)
      ∧ (∀ name offset,
        ofText text start = .unterminatedQuote name offset ↔ OpenQuoteAt text start name offset)
      ∧ (ofText text start = .notATag
        ↔ (¬∃ t, TagAt text start t) ∧ ¬∃ name offset, OpenQuoteAt text start name offset) := by
  refine ⟨Bytewise.scan?_eq text start, fun t => ofText_eq_tag_iff,
    fun name offset => ofText_eq_unterminatedQuote_iff, ?_⟩
  simp only [← ofText_eq_tag_iff, ← ofText_eq_unterminatedQuote_iff]
  cases ofText text start <;> simp

end Scan

end BranchingDialogue
