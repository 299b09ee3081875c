import BranchingDialogue.Proofs.Markup.Grammar

/-!
# Cutting a text at its tags

A tag is scanned from its own characters alone, wherever they stand: `Scan.exists_of_fromList`.
`CutFrom` says how a text falls into pieces from a byte position on: where a tag is scanned the
piece is the span that the scan reports, elsewhere it is one character. Every text is cut in
exactly one way and nothing gets lost: `cutFrom_cut`, `CutFrom.eq`, `CutFrom.spans`.
-/

namespace BranchingDialogue

/-! ## What a scanned tag covers -/

namespace Scan

/-- A name, and a character after it that can begin a body or end the tag. -/
structure BeginsTag (name rest : List Char) : Prop where
  named : name ≠ []
  letters : ∀ c ∈ name, isNameChar c
  opens : rest.head?.any opensBody

/-- Where a `<` begins a tag, or something with an open quote, a name comes after it. -/
theorem exists_beginsTag_of_afterOpening {start : Nat} {cs : List Char}
    (h : afterOpening start cs ≠ .notATag) :
    ∃ (closing : Bool) (name rest : List Char), BeginsTag name rest
      ∧ cs = (if closing then ['/'] else []) ++ name ++ rest := by
  unfold afterOpening at h
  simp only at h
  have hslash : cs = (if decide (cs.head? = some '/') then ['/'] else [])
      ++ (if cs.head? = some '/' then cs.tail else cs) := by
    by_cases hhead : cs.head? = some '/'
    · obtain ⟨rest, rfl⟩ := List.head?_eq_some_iff.1 hhead
      simp
    · simp [hhead]
  generalize (if cs.head? = some '/' then cs.tail else cs) = afterSlash at h hslash
  split at h
  · exact absurd rfl h
  · next hname =>
    simp only [Bool.or_eq_true, Bool.not_eq_true', List.isEmpty_iff, not_or] at hname
    refine ⟨cs.head? = some '/', afterSlash.takeWhile isNameChar, afterSlash.dropWhile isNameChar,
      ⟨hname.1, fun c hc => List.mem_takeWhile_imp hc, by simpa using hname.2⟩, ?_⟩
    rw [List.append_assoc, List.takeWhile_append_dropWhile]
    exact hslash

/-- A name ends where a body can begin. -/
theorem not_isNameChar_of_opensBody {c : Char} (h : opensBody c) : ¬isNameChar c := by
  simp only [opensBody, isBlank, Bool.or_eq_true, beq_iff_eq] at h
  rcases h with ((rfl | rfl) | rfl) | (((rfl | rfl) | rfl) | rfl) | rfl <;> decide

/-- After a name the end of the body is looked for. -/
theorem afterOpening_eq {name rest : List Char} (h : BeginsTag name rest) (start : Nat)
    (closing : Bool) :
    afterOpening start ((if closing then ['/'] else []) ++ name ++ rest)
      = match bodyEnd none (start + 1 + (if closing then 1 else 0) + utf8Length name) [] rest with
        | .closed body => assemble start closing name body
        | .broken => .notATag
        | .openQuote offset => .unterminatedQuote (String.ofList name) offset := by
  obtain ⟨first, letters, rfl⟩ := List.exists_cons_of_ne_nil h.named
  have hfirst : first ≠ '/' := by
    rintro rfl
    exact absurd (h.letters '/' List.mem_cons_self) (by decide)
  -- The body begins with a character that no name has.
  have hopens := h.opens
  obtain ⟨next, after, rfl⟩ : ∃ next after, rest = next :: after := by
    cases rest with
    | nil => simp at hopens
    | cons next after => exact ⟨next, after, rfl⟩
  have hstop : ∀ c ∈ (next :: after).head?, ¬isNameChar c := by
    rintro c ⟨⟩
    exact not_isNameChar_of_opensBody (by simpa using hopens)
  have hname := takeWhile_run h.letters hstop
  have hrest := dropWhile_run h.letters hstop
  generalize htext : first :: letters ++ next :: after = text at hname hrest
  have hhead : text.head? = some first := by rw [← htext]; rfl
  rw [List.append_assoc, htext, afterOpening]
  generalize next :: after = rest at hopens hrest
  cases closing with
  | false =>
    cases hend : bodyEnd none (start + 1 + 0 + utf8Length (first :: letters)) [] rest <;>
      simp only [Bool.false_eq_true, if_false, List.nil_append, hhead, Option.some.injEq, hfirst,
        decide_false, hname, hrest, List.isEmpty_cons, hopens, Bool.not_true, Bool.or_self, hend]
  | true =>
    cases hend : bodyEnd none (start + 1 + 1 + utf8Length (first :: letters)) [] rest <;>
      simp only [if_true, List.singleton_append, List.head?_cons, decide_true, List.tail_cons, hname,
        hrest, List.isEmpty_cons, hopens, Bool.not_true, Bool.or_self, Bool.false_eq_true, if_false,
        hend]

/-- The characters of a tag, but for a `/` in front, are a name, a body and `>`. -/
structure IsTagText (name body : List Char) : Prop where
  named : name ≠ []
  letters : ∀ c ∈ name, isNameChar c
  opens : opensBody (body.head?.getD '>')
  closes : ∀ position rest, bodyEnd none position [] (body ++ '>' :: rest) = .closed body

theorem IsTagText.beginsTag {name body : List Char} (h : IsTagText name body) (rest : List Char) :
    BeginsTag name (body ++ '>' :: rest) where
  named := h.named
  letters := h.letters
  opens := by
    have hopens := h.opens
    cases body with
    | nil => simpa using hopens
    | cons c body => simpa using hopens

/-- A tag that is found is assembled from the characters up to the `>` of its body. -/
theorem append_of_afterOpening {start : Nat} {cs : List Char} {t : Tag}
    (h : afterOpening start cs = .tag t) :
    ∃ closing name body rest, IsTagText name body ∧ assemble start closing name body = .tag t
      ∧ cs = (if closing then ['/'] else []) ++ name ++ body ++ '>' :: rest := by
  have hfound : afterOpening start cs ≠ .notATag := by
    rw [h]
    nofun
  obtain ⟨closing, name, afterName, hbegins, rfl⟩ := exists_beginsTag_of_afterOpening hfound
  rw [afterOpening_eq hbegins] at h
  split at h
  · next body hend =>
    obtain ⟨hbody, rest, rfl⟩ := bodyEnd_eq_closed_iff.1 hend
    refine ⟨closing, name, body, rest, ⟨hbegins.named, hbegins.letters, ?_, bodyEnd_closing hbody⟩,
      h, (List.append_assoc _ _ _).symm⟩
    have hopens := hbegins.opens
    cases body with
    | nil => simpa using hopens
    | cons c body => simpa using hopens
  · cases h
  · cases h

/-- Such characters are a tag, whatever comes after them. -/
theorem afterOpening_append {name body : List Char} (h : IsTagText name body) (start : Nat)
    (closing : Bool) (rest : List Char) :
    afterOpening start ((if closing then ['/'] else []) ++ name ++ body ++ '>' :: rest)
      = assemble start closing name body := by
  rw [List.append_assoc, afterOpening_eq (h.beginsTag rest), h.closes]

/-- A tag can be assembled from the same characters anywhere. -/
theorem exists_of_assemble {start : Nat} {closing : Bool} {name body : List Char} {t : Tag}
    (h : assemble start closing name body = .tag t) (start' : Nat) :
    ∃ t', assemble start' closing name body = .tag t' ∧ t'.name = t.name ∧ t'.source = t.source := by
  unfold assemble at h ⊢
  simp only at h ⊢
  split at h
  · cases h
  · next hends =>
    cases h
    exact ⟨_, if_neg hends, rfl, rfl⟩

/-- A tag covers the characters it was assembled from. -/
theorem covers_of_assemble {start : Nat} {closing : Bool} {name body : List Char} {t : Tag}
    (h : assemble start closing name body = .tag t) :
    t.start = start ∧ t.stop = start + utf8Length t.source.toList
      ∧ t.source.toList = '<' :: (if closing then ['/'] else []) ++ name ++ body ++ ['>'] := by
  unfold assemble at h
  simp only at h
  split at h
  · cases h
  · cases h
    refine ⟨rfl, ?_, String.toList_ofList⟩
    have hopen : utf8Length ('<' :: if closing then ['/'] else [])
        = 1 + if closing then 1 else 0 := by
      cases closing <;> rfl
    have hclose : utf8Length ['>'] = 1 := rfl
    simp only [String.toList_ofList, utf8Length_append, hopen, hclose]
    omega

/-- A scanned tag begins where the scan does and covers the characters up to its end. -/
theorem covers_of_fromList {start : Nat} {cs : List Char} {t : Tag}
    (h : fromList start cs = .tag t) :
    t.start = start ∧ t.stop = start + utf8Length t.source.toList ∧ t.source.toList ≠ []
      ∧ ∃ rest, cs = t.source.toList ++ rest := by
  unfold fromList at h
  split at h
  · next cs =>
    obtain ⟨closing, name, body, rest, -, htag, rfl⟩ := append_of_afterOpening h
    obtain ⟨hstart, hstop, hsource⟩ := covers_of_assemble htag
    refine ⟨hstart, hstop, by simp [hsource], rest, ?_⟩
    rw [hsource]
    simp
  · cases h

/-- A scanned tag is scanned wherever its characters stand, and has its name there. -/
theorem exists_of_fromList {start : Nat} {cs : List Char} {t : Tag}
    (h : fromList start cs = .tag t) (start' : Nat) (rest' : List Char) :
    ∃ t', fromList start' (t.source.toList ++ rest') = .tag t' ∧ t'.name = t.name
      ∧ t'.source = t.source := by
  unfold fromList at h
  split at h
  · obtain ⟨closing, name, body, rest, htext, htag, rfl⟩ := append_of_afterOpening h
    obtain ⟨-, -, hsource⟩ := covers_of_assemble htag
    obtain ⟨t', htag', hname, hsame⟩ := exists_of_assemble htag start'
    have hcs : t.source.toList ++ rest'
        = '<' :: ((if closing then ['/'] else []) ++ name ++ body ++ '>' :: rest') := by
      rw [hsource]
      simp
    exact ⟨t', by rw [hcs, fromList, afterOpening_append htext, htag'], hname, hsame⟩
  · cases h

/-- In a text a scan sees the characters from its position on. -/
theorem ofText_eq {text : String} {before cs : List Char} (h : text.toList = before ++ cs) :
    ofText text (utf8Length before) = fromList (utf8Length before) cs := by
  rw [ofText, h, dropBytes?_append]

theorem spans_of_ofText {text : String} {start : Nat} {t : Tag} (h : ofText text start = .tag t) :
    t.start = start ∧ Spans text start t.stop t.source.toList := by
  unfold ofText at h
  split at h
  · next cs hcs =>
    obtain ⟨before, htext, hlen⟩ := exists_of_dropBytes? hcs
    obtain ⟨hstart, hstop, -, rest, rfl⟩ := covers_of_fromList h
    exact ⟨hstart, before, rest, by rw [htext, List.append_assoc], hlen, hstop.symm⟩
  · cases h

end Scan

/-! ## Pieces -/

/-- A piece of a text: a tag, or a character at which no tag begins. -/
structure Piece where
  tag? : Option Tag
  chars : List Char

/-- The pieces that a text falls into from a byte position on. -/
inductive CutFrom (text : String) : Nat → List Piece → Prop
  | done : CutFrom text text.utf8ByteSize []
  | tag {start : Nat} {t : Tag} {cs : List Char} {ps : List Piece}
      (scanned : Scan.ofText text start = .tag t) (covers : Spans text t.start t.stop cs)
      (rest : CutFrom text t.stop ps) : CutFrom text start (⟨some t, cs⟩ :: ps)
  | char {start : Nat} {c : Char} {ps : List Piece}
      (plain : ∀ t, Scan.ofText text start ≠ .tag t)
      (covers : Spans text start (start + c.utf8Size) [c])
      (rest : CutFrom text (start + c.utf8Size) ps) : CutFrom text start (⟨none, [c]⟩ :: ps)

namespace CutFrom

variable {text : String} {start : Nat} {ps qs : List Piece}

/-- The pieces make up the text from the position on. -/
theorem spans (h : CutFrom text start ps) :
    Spans text start text.utf8ByteSize (ps.flatMap Piece.chars) := by
  induction h with
  | done => exact .nil_at_end text
  | tag scanned covers rest ih =>
    rw [(Scan.spans_of_ofText scanned).1] at covers
    exact covers.append ih
  | char plain covers rest ih => exact covers.append ih

theorem flatMap_chars (h : CutFrom text 0 ps) : ps.flatMap Piece.chars = text.toList :=
  h.spans.eq (.whole text)

theorem not_spans_end {c : Char} :
    ¬Spans text text.utf8ByteSize (text.utf8ByteSize + c.utf8Size) [c] := by
  intro h
  have hle := h.le_size
  have hpos := c.utf8Size_pos
  omega

/-- There is no tag to be scanned at the end of a text. -/
theorem not_scanned_end {t : Tag} : Scan.ofText text text.utf8ByteSize ≠ .tag t := by
  have hend : text.toList = text.toList ++ [] := (List.append_nil _).symm
  rw [← utf8Length_toList, Scan.ofText_eq hend]
  nofun

/-- A text is cut in one way only. -/
theorem eq (h : CutFrom text start ps) (h' : CutFrom text start qs) : ps = qs := by
  induction h generalizing qs with
  | done =>
    cases h' with
    | done => rfl
    | tag scanned => exact absurd scanned not_scanned_end
    | char plain covers => exact absurd covers not_spans_end
  | tag scanned covers rest ih =>
    cases h' with
    | done => exact absurd scanned not_scanned_end
    | tag scanned' covers' rest' =>
      rw [scanned] at scanned'
      cases scanned'
      rw [covers.eq covers', ih rest']
    | char plain => exact absurd scanned (plain _)
  | char plain covers rest ih =>
    cases h' with
    | done => exact absurd covers not_spans_end
    | tag scanned => exact absurd scanned (plain _)
    | char plain' covers' rest' =>
      obtain rfl := covers.head_eq covers'
      rw [ih rest']

end CutFrom

/-! ## The cut of the parser -/

namespace Token

/-- The piece that a token stands for. -/
def piece : Token → Piece
  | .tag t => ⟨some t, t.source.toList⟩
  | .openQuote _ _ => ⟨none, ['<']⟩
  | .char c => ⟨none, [c]⟩

/-- Characters that are skipped are passed over. -/
theorem cutFrom_append (position : Nat) (skipped cs : List Char) :
    cutFrom skipped.length position (skipped ++ cs)
      = cutFrom 0 (position + utf8Length skipped) cs := by
  induction skipped generalizing position with
  | nil => rfl
  | cons c skipped ih =>
    rw [List.length_cons, List.cons_append, cutFrom, ih, utf8Length_cons, Nat.add_assoc]

/-- What begins with an open quote is a `<`. -/
theorem eq_of_openQuote {start : Nat} {c : Char} {cs : List Char} {name : String} {offset : Nat}
    (h : Scan.fromList start (c :: cs) = .unterminatedQuote name offset) : c = '<' := by
  unfold Scan.fromList at h
  split at h
  · next heq => exact (List.cons.inj heq).1
  · cases h

/-- The first token of some characters. -/
def first (position : Nat) (c : Char) (cs : List Char) : Token :=
  match Scan.fromList position (c :: cs) with
  | .tag t => .tag t
  | .unterminatedQuote name offset => .openQuote name offset
  | .notATag => .char c

/-- Where the first token is no tag, it is one character. -/
theorem eq_of_first {position : Nat} {c : Char} {cs : List Char}
    (h : ∀ t, Scan.fromList position (c :: cs) ≠ .tag t) :
    (first position c cs).source = [c] ∧ (first position c cs).piece = ⟨none, [c]⟩ := by
  unfold first
  split
  · next t hfound => exact absurd hfound (h t)
  · next name offset hfound =>
    obtain rfl := eq_of_openQuote hfound
    exact ⟨rfl, rfl⟩
  · exact ⟨rfl, rfl⟩

/-- The first token is cut off, and then what comes after it is cut. -/
theorem cutFrom_cons (position : Nat) (c : Char) (cs : List Char) :
    ∃ more rest, (first position c cs).source = c :: more ∧ cs = more ++ rest
      ∧ cutFrom 0 position (c :: cs) = first position c cs
          :: cutFrom 0 (position + utf8Length (first position c cs).source) rest := by
  by_cases htag : ∃ t, Scan.fromList position (c :: cs) = .tag t
  · obtain ⟨t, hfound⟩ := htag
    obtain ⟨-, hstop, hne, rest, hsource⟩ := Scan.covers_of_fromList hfound
    have hfirst : first position c cs = .tag t := by rw [first, hfound]
    cases hchars : t.source.toList with
    | nil => exact absurd hchars hne
    | cons d more =>
      rw [hchars, List.cons_append, List.cons.injEq] at hsource
      obtain ⟨rfl, rfl⟩ := hsource
      refine ⟨more, rest, by rw [hfirst, source, hchars], rfl, ?_⟩
      rw [hfirst, source, hchars, cutFrom, hfound]
      simp only
      -- The characters of the tag after the first are skipped one by one.
      rw [← String.length_toList, hchars, List.length_cons, Nat.add_sub_cancel, cutFrom_append,
        utf8Length_cons, Nat.add_assoc]
  · have hplain : ∀ t, Scan.fromList position (c :: cs) ≠ .tag t := fun t ht => htag ⟨t, ht⟩
    obtain ⟨hsource, -⟩ := eq_of_first hplain
    refine ⟨[], cs, hsource, rfl, ?_⟩
    rw [hsource, cutFrom, first]
    split <;> simp_all

/-- The rest of a text is cut into the pieces of its tokens. -/
theorem cutFrom_cutFrom {text : String} {before cs : List Char}
    (h : text.toList = before ++ cs) :
    CutFrom text (utf8Length before) ((cutFrom 0 (utf8Length before) cs).map piece) := by
  -- A tag takes more than its first character, so the induction is on how much is left.
  induction hlen : cs.length using Nat.strongRecOn generalizing before cs with
  | ind n ih =>
    cases cs with
    | nil =>
      have hend : utf8Length before = text.utf8ByteSize := by
        rw [← utf8Length_toList, h, List.append_nil]
      rw [hend]
      exact .done
    | cons c cs =>
      have hscan := Scan.ofText_eq h
      obtain ⟨more, rest, hsource, rfl, hcut⟩ := cutFrom_cons (utf8Length before) c cs
      have hbefore : text.toList
          = before ++ (first (utf8Length before) c (more ++ rest)).source ++ rest := by
        rw [h, hsource, List.append_assoc, List.cons_append]
      have hshort : rest.length < n := by
        rw [← hlen, List.length_cons, List.length_append]
        omega
      have hrest := ih rest.length hshort hbefore rfl
      rw [utf8Length_append] at hrest
      rw [hcut, List.map_cons]
      by_cases htag : ∃ t, Scan.fromList (utf8Length before) (c :: (more ++ rest)) = .tag t
      · obtain ⟨t, hfound⟩ := htag
        obtain ⟨hstart, hstop, -⟩ := Scan.covers_of_fromList hfound
        have hcovers := (Scan.spans_of_ofText (hscan.trans hfound)).2
        have hfirst : first (utf8Length before) c (more ++ rest) = .tag t := by
          rw [first, hfound]
        rw [hfirst, source, ← hstop] at hrest
        rw [hfirst, source, ← hstop]
        exact .tag (hscan.trans hfound) (hstart ▸ hcovers) hrest
      · have hplain : ∀ t, Scan.fromList (utf8Length before) (c :: (more ++ rest)) ≠ .tag t :=
          fun t ht => htag ⟨t, ht⟩
        obtain ⟨hone, hpiece⟩ := eq_of_first hplain
        rw [hone, utf8Length_cons, utf8Length_nil, Nat.add_zero] at hrest
        rw [hpiece, hone, utf8Length_cons, utf8Length_nil, Nat.add_zero]
        exact .char (by rwa [hscan]) ⟨before, more ++ rest, by simpa using h, rfl, rfl⟩ hrest

/-- **A text is cut into the pieces of its tokens.** -/
theorem cutFrom_cut (text : String) : CutFrom text 0 ((cut text).map piece) :=
  cutFrom_cutFrom (List.nil_append _).symm

end Token

end BranchingDialogue
