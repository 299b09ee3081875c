import BranchingDialogue.Proofs.Markup.Placing

/-!
# Stripping a stripped text

Taking tags out of a text joins the characters around them. A tag that is kept is scanned from its
own characters, so it is the same tag in what is shown, and a character other than `<` is still a
mere character. Only a `<` that began no tag in the text can begin one in what is shown.

Main result: `strip_again_iff`.
-/

namespace BranchingDialogue

variable {r : TagRegistry}

/-! ## Texts without tags of the library's own -/

/-- The token is neither a tag of the library's own nor the beginning of one. -/
def Token.IsForeign (r : TagRegistry) : Token → Prop
  | .tag t => r.custom? t.name = none
  | .openQuote name _ => r.custom? name = none
  | .char _ => True

namespace Token

variable {t : Token} {ts : List Token}

theorem custom?_piece_of_isForeign (h : t.IsForeign r) : t.piece.custom? r = none := by
  cases t with
  | tag t =>
    have hname : r.custom? t.name = none := h
    simp [piece, Piece.custom?, hname]
  | openQuote name offset => rfl
  | char c => rfl

/-- A token that is stripped is foreign unless it is a tag that is taken out. -/
theorem isForeign_of_strips {s s' : Stripping} (h : Stripping.Strips r s t s')
    (hpiece : t.piece.custom? r = none) : t.IsForeign r := by
  cases h with
  | foreign unknown => exact unknown
  | quote unknown => exact unknown
  | char c => trivial
  | marks known | opens known | closes known =>
    rw [Stripping.custom?_piece known] at hpiece
    cases hpiece

/-- Foreign tokens are no error. -/
theorem exists_tokens_of_isForeign (h : ∀ t ∈ ts, t.IsForeign r) (s : Stripping) :
    ∃ s', s.tokens r ts = .ok s' := by
  induction ts generalizing s with
  | nil => exact ⟨s, rfl⟩
  | cons t ts ih =>
    rw [List.forall_mem_cons] at h
    obtain ⟨s₁, hstrips⟩ : ∃ s₁, Stripping.Strips r s t s₁ := by
      cases t with
      | tag t => exact ⟨_, .foreign h.1⟩
      | openQuote name offset => exact ⟨_, .quote h.1⟩
      | char c => exact ⟨_, .char c⟩
    obtain ⟨s', hrest⟩ := ih h.2 s₁
    exact ⟨s', Stripping.tokens_cons_eq_ok_iff.2 ⟨s₁, hstrips, hrest⟩⟩

end Token

namespace Stripping

/-- Every token of a text that can be stripped is stripped at some time. -/
theorem exists_strips_of_tokens {s s' : Stripping} {t : Token} {ts : List Token}
    (h : s.tokens r ts = .ok s') (ht : t ∈ ts) : ∃ s₁ s₂, Strips r s₁ t s₂ := by
  obtain ⟨before, after, rfl⟩ := List.append_of_mem ht
  obtain ⟨s₁, -, hrest⟩ := tokens_append_eq_ok_iff.1 h
  obtain ⟨s₂, hstrips, -⟩ := tokens_cons_eq_ok_iff.1 hrest
  exact ⟨s₁, s₂, hstrips⟩

end Stripping

/-- A text that can be stripped is made of tokens of which each can, and shows what it should. -/
theorem TagRegistry.places_of_strip {text : String} {s : StrippedText} (h : r.strip text = .ok s) :
    s.Places r ((Token.cut text).map Token.piece)
      ∧ ∀ t ∈ Token.cut text, ∃ s₁ s₂, Stripping.Strips r s₁ t s₂ := by
  unfold strip at h
  cases htokens : Stripping.start.tokens r (Token.cut text) with
  | error e =>
    rw [htokens] at h
    cases h
  | ok last =>
    rw [htokens] at h
    cases h
    have hplaces := StrippedText.places_finish ((Stripping.follows_start r).tokens htokens)
    rw [List.nil_append] at hplaces
    exact ⟨hplaces, fun t ht => Stripping.exists_strips_of_tokens htokens ht⟩

namespace Piece

theorem shown_append (ps qs : List Piece) : shown r (ps ++ qs) = shown r ps ++ shown r qs := by
  simp [shown]

theorem shown_cons (p : Piece) (ps : List Piece) :
    shown r (p :: ps) = (if (p.custom? r).isNone then p.chars else []) ++ shown r ps := by
  rw [← List.singleton_append, shown_append, ← List.nil_append [p], shown_concat]
  rfl

/-- Where all characters are shown there was nothing to take out. -/
theorem custom?_eq_none_of_shown {ps : List Piece} (hne : ∀ p ∈ ps, p.chars ≠ [])
    (h : shown r ps = ps.flatMap chars) : ∀ p ∈ ps, p.custom? r = none := by
  induction ps with
  | nil => nofun
  | cons p ps ih =>
    rw [List.forall_mem_cons] at hne ⊢
    rw [shown_cons, List.flatMap_cons] at h
    cases hp : p.custom? r with
    | none =>
      rw [hp] at h
      exact ⟨rfl, ih hne.2 (List.append_cancel_left h)⟩
    | some o =>
      -- What is shown of the others is too short.
      rw [hp] at h
      have hle : (shown r ps).length ≤ (ps.flatMap chars).length := (sublist_shown ps).length_le
      have hpos := List.length_pos_of_ne_nil hne.1
      have hlen := congrArg List.length h
      simp only [Option.isNone_some, Bool.false_eq_true, if_false, List.nil_append,
        List.length_append] at hlen
      omega

/-- Of two beginnings of some pieces the one that shows more leaves fewer pieces. -/
theorem length_lt_of_shown {ps qs ps' qs' : List Piece} (h : ps' ++ qs' = ps ++ qs)
    (hlt : (shown r ps).length < (shown r ps').length) : qs'.length < qs.length := by
  by_contra hle
  have hlen := congrArg List.length h
  rw [List.length_append, List.length_append] at hlen
  obtain ⟨more, rfl⟩ : ps' <+: ps :=
    List.prefix_of_prefix_length_le ⟨qs', h⟩ ⟨qs, rfl⟩ (by omega)
  have hmono : (shown r ps').length ≤ (shown r (ps' ++ more)).length := length_shown_mono
  omega

end Piece

namespace CutFrom

variable {text : String} {start : Nat} {ps : List Piece} {p : Piece}

/-- A piece is a scanned tag or one character. -/
theorem of_mem (h : CutFrom text start ps) (hp : p ∈ ps) :
    (∃ position cs t, Scan.fromList position cs = .tag t ∧ p = ⟨some t, t.source.toList⟩)
      ∨ ∃ c, p = ⟨none, [c]⟩ := by
  induction h with
  | done => cases hp
  | @tag start t cs ps scanned covers rest ih =>
    rcases List.mem_cons.1 hp with rfl | hp
    · obtain ⟨hstart, hspans⟩ := Scan.spans_of_ofText scanned
      obtain rfl := covers.eq (hstart ▸ hspans)
      unfold Scan.ofText at scanned
      split at scanned
      · exact .inl ⟨_, _, t, scanned, rfl⟩
      · cases scanned
    · exact ih hp
  | @char start c ps plain covers rest ih =>
    rcases List.mem_cons.1 hp with rfl | hp
    · exact .inr ⟨c, rfl⟩
    · exact ih hp

theorem chars_ne_nil (h : CutFrom text start ps) (hp : p ∈ ps) : p.chars ≠ [] := by
  rcases h.of_mem hp with ⟨position, cs, t, hfound, rfl⟩ | ⟨c, rfl⟩
  · exact (Scan.covers_of_fromList hfound).2.2.1
  · exact List.cons_ne_nil c []

end CutFrom

/-- A text comes out of stripping as it was exactly if all its tokens are foreign. -/
theorem TagRegistry.strip_eq_self_iff {text : String} :
    r.strip text = .ok ⟨text, []⟩ ↔ ∀ t ∈ Token.cut text, t.IsForeign r := by
  have hcut := Token.cutFrom_cut text
  constructor
  · intro h t ht
    obtain ⟨hplaces, hstrips⟩ := places_of_strip h
    obtain ⟨s₁, s₂, hstrips⟩ := hstrips t ht
    have hshown := hplaces.text.symm.trans hcut.flatMap_chars.symm
    exact Token.isForeign_of_strips hstrips
      (Piece.custom?_eq_none_of_shown (fun p hp => hcut.chars_ne_nil hp) hshown _
        (List.mem_map_of_mem ht))
  · intro h
    obtain ⟨last, htokens⟩ := Token.exists_tokens_of_isForeign h Stripping.start
    have hstrip : r.strip text = .ok last.finish := by rw [strip, htokens]; rfl
    have hforeign : ∀ p ∈ (Token.cut text).map Token.piece, p.custom? r = none := by
      intro p hp
      obtain ⟨t, ht, rfl⟩ := List.mem_map.1 hp
      exact Token.custom?_piece_of_isForeign (h t ht)
    rw [hstrip, (places_of_strip hstrip).1.eq_of_foreign hcut hforeign]

/-! ## Tags that come about -/

/-- Cutting what is shown of some pieces, all is foreign up to a `<` that is a mere character among
the pieces. There begins a tag of the library's own, or a quote in one is opened there and never
closed, or there is some other tag, which ends inside a piece and has one of the former after it. -/
def Reassembles (r : TagRegistry) (ps : List Piece) (ts : List Token) : Prop :=
  ∃ done rest before token after, ps = done ++ ⟨none, ['<']⟩ :: rest
    ∧ ts = before ++ token :: after ∧ before.flatMap Token.source = Piece.shown r done
    ∧ (∀ t ∈ before, t.IsForeign r)
    ∧ (¬token.IsForeign r
      ∨ (∀ qs, qs <+: ps → Piece.shown r qs ≠ Piece.shown r done ++ token.source)
        ∧ ∃ t ∈ after, ¬t.IsForeign r)

variable {text : String} {ps : List Piece}

/-- A tag that is kept is cut off as a foreign tag, and a character other than `<` as itself. -/
theorem Token.first_of_piece (hcut : CutFrom text 0 ps) {p : Piece} (hp : p ∈ ps)
    (hkept : p.custom? r = none) (hplain : p ≠ ⟨none, ['<']⟩) (position : Nat) (rest : List Char)
    {c : Char} {cs : List Char} (hcs : p.chars ++ rest = c :: cs) :
    (first position c cs).IsForeign r ∧ (first position c cs).source = p.chars := by
  rcases hcut.of_mem hp with ⟨position', cs', t, hfound, rfl⟩ | ⟨d, rfl⟩
  · obtain ⟨t', hfound', hname, hsource⟩ := Scan.exists_of_fromList hfound position rest
    rw [hcs] at hfound'
    have hfirst : first position c cs = .tag t' := by rw [first, hfound']
    have hunknown : r.custom? t.name = none := by simpa [Piece.custom?] using hkept
    rw [hfirst, source, hsource]
    exact ⟨by rw [IsForeign, hname, hunknown], rfl⟩
  · obtain ⟨rfl, -⟩ := List.cons.inj hcs
    have hne : d ≠ '<' := by
      rintro rfl
      exact hplain rfl
    have hscan : Scan.fromList position (d :: cs) = .notATag := by
      unfold Scan.fromList
      split
      · next heq => exact absurd (List.cons.inj heq).1 hne
      · rfl
    have hfirst : first position d cs = .char d := by rw [first, hscan]
    rw [hfirst]
    exact ⟨trivial, rfl⟩

/-- What is shown of some pieces has been cut so far that the tokens before, which are foreign, make
up what is shown of the pieces done; the other tokens are the cut of what is shown of the rest. -/
structure CutSoFar (r : TagRegistry) (ps : List Piece) (ts : List Token) (done rest : List Piece)
    (before : List Token) : Prop where
  pieces : ps = done ++ rest
  tokens : ts = before ++ Token.cutFrom 0 (utf8Length (Piece.shown r done)) (Piece.shown r rest)
  shown : before.flatMap Token.source = Piece.shown r done
  foreign : ∀ t ∈ before, t.IsForeign r

namespace CutSoFar

variable {ts before : List Token} {done rest : List Piece} {p : Piece}

/-- A tag of the library's own is passed over. -/
theorem skip (h : CutSoFar r ps ts done (p :: rest) before) (hp : (p.custom? r).isNone = false) :
    CutSoFar r ps ts (done ++ [p]) rest before := by
  have hdone : Piece.shown r (done ++ [p]) = Piece.shown r done := by
    rw [Piece.shown_concat, hp]
    exact List.append_nil _
  have hrest : Piece.shown r (p :: rest) = Piece.shown r rest := by
    rw [Piece.shown_cons, hp]
    rfl
  refine ⟨by rw [h.pieces, List.append_assoc]; rfl, ?_, by rw [hdone, h.shown], h.foreign⟩
  rw [hdone, h.tokens, hrest]

/-- Where a piece is kept there is a first token, which is its piece unless this is a `<`. -/
theorem exists_first (h : CutSoFar r ps ts done (p :: rest) before) (hcut : CutFrom text 0 ps)
    (hkept : p.custom? r = none) :
    ∃ token tail, token.source ≠ [] ∧ Piece.shown r (p :: rest) = token.source ++ tail
      ∧ ts = before ++ token
          :: Token.cutFrom 0 (utf8Length (Piece.shown r done ++ token.source)) tail
      ∧ (p ≠ ⟨none, ['<']⟩ → token.IsForeign r ∧ token.source = p.chars) := by
  have hp : p ∈ ps := h.pieces ▸ List.mem_append_right done List.mem_cons_self
  have hshown : Piece.shown r (p :: rest) = p.chars ++ Piece.shown r rest := by
    rw [Piece.shown_cons, hkept]
    rfl
  obtain ⟨c, cs, hcs⟩ := List.exists_cons_of_ne_nil
    (List.append_ne_nil_of_left_ne_nil (hcut.chars_ne_nil hp) (Piece.shown r rest))
  obtain ⟨more, tail, hsource, rfl, hfirst⟩ :=
    Token.cutFrom_cons (utf8Length (Piece.shown r done)) c cs
  refine ⟨_, tail, by rw [hsource]; nofun, by rw [hshown, hcs, hsource]; rfl, ?_, fun hplain =>
    Token.first_of_piece hcut hp hkept hplain _ _ hcs⟩
  rw [h.tokens, hshown, hcs, hfirst, utf8Length_append]

/-- After a foreign token that ends between two pieces the cut goes on with the rest of these. -/
theorem advance (h : CutSoFar r ps ts done rest before) {token : Token} {tail : List Char}
    (hsplit : Piece.shown r rest = token.source ++ tail)
    (hts : ts = before ++ token
      :: Token.cutFrom 0 (utf8Length (Piece.shown r done ++ token.source)) tail)
    (htoken : token.IsForeign r) {done' rest' : List Piece} (hps : ps = done' ++ rest')
    (hdone : Piece.shown r done' = Piece.shown r done ++ token.source) :
    CutSoFar r ps ts done' rest' (before ++ [token]) := by
  have htail : tail = Piece.shown r rest' := by
    have hboth : Piece.shown r (done ++ rest) = Piece.shown r (done' ++ rest') := by
      rw [← h.pieces, ← hps]
    rw [Piece.shown_append, Piece.shown_append, hdone, hsplit, ← List.append_assoc] at hboth
    exact List.append_cancel_left hboth
  refine ⟨hps, ?_, ?_, ?_⟩
  · rw [hts, hdone, htail, List.append_assoc, List.singleton_append]
  · rw [List.flatMap_append, h.shown, hdone, List.flatMap_singleton]
  · rw [List.forall_mem_append, List.forall_mem_singleton]
    exact ⟨h.foreign, htoken⟩

/-- **What is shown is cut into foreign tokens unless a `<` that was a mere character begins one
that is not.** -/
theorem isForeign_or_reassembles (h : CutSoFar r ps ts done rest before)
    (hcut : CutFrom text 0 ps) : (∀ t ∈ ts, t.IsForeign r) ∨ Reassembles r ps ts := by
  -- A foreign tag that comes about may take several pieces: the induction is on how many are left.
  induction hlen : rest.length using Nat.strongRecOn generalizing done rest before with
  | ind n ih =>
    cases rest with
    | nil =>
      left
      rw [h.tokens]
      simpa [Piece.shown, Token.cutFrom] using h.foreign
    | cons p rest =>
      have hlt : rest.length < n := by simp [← hlen]
      cases hkept : p.custom? r with
      | some o => exact ih rest.length hlt (h.skip (by rw [hkept]; rfl)) rfl
      | none =>
        obtain ⟨token, tail, hne, hsplit, hts, hkind⟩ := h.exists_first hcut hkept
        by_cases hplain : p = ⟨none, ['<']⟩
        · subst hplain
          have hps := h.pieces
          by_cases htoken : token.IsForeign r
          · by_cases hbetween : ∃ qs, qs <+: ps
                ∧ Piece.shown r qs = Piece.shown r done ++ token.source
            · obtain ⟨qs, ⟨rest', hqs⟩, hshown⟩ := hbetween
              have hmore : (Piece.shown r done).length < (Piece.shown r qs).length := by
                rw [hshown, List.length_append]
                exact Nat.lt_add_of_pos_right (List.length_pos_of_ne_nil hne)
              have hshort : rest'.length < n :=
                hlen ▸ Piece.length_lt_of_shown (hqs.trans hps) hmore
              exact ih rest'.length hshort (h.advance hsplit hts htoken hqs.symm hshown) rfl
            · by_cases hafter : ∀ t ∈ Token.cutFrom 0
                  (utf8Length (Piece.shown r done ++ token.source)) tail, t.IsForeign r
              · left
                rw [hts]
                simpa only [List.forall_mem_append, List.forall_mem_cons] using
                  And.intro h.foreign ⟨htoken, hafter⟩
              · right
                refine ⟨done, rest, before, token, _, hps, hts, h.shown, h.foreign, .inr ⟨?_, ?_⟩⟩
                · exact fun qs hqs hshown => hbetween ⟨qs, hqs, hshown⟩
                · simpa only [not_forall, exists_prop] using hafter
          · right
            exact ⟨done, rest, before, token, _, hps, hts, h.shown, h.foreign, .inl htoken⟩
        · obtain ⟨htoken, hsame⟩ := hkind hplain
          have hnext : ps = (done ++ [p]) ++ rest := by rw [h.pieces, List.append_assoc]; rfl
          refine ih rest.length hlt (h.advance hsplit hts htoken hnext ?_) rfl
          rw [Piece.shown_concat, hkept, hsame]
          rfl

end CutSoFar

/-- **A stripped text comes out of stripping as it was, and without tags, unless taking out tags
has made new ones.** -/
theorem strip_again_iff (r : TagRegistry) (text : String) {s : StrippedText} {ps : List Piece}
    (h : r.strip text = .ok s) (hcut : CutFrom text 0 ps) :
    r.strip s.text = .ok ⟨s.text, []⟩ ↔ ¬Reassembles r ps (Token.cut s.text) := by
  have htext : s.text.toList = Piece.shown r ps := by
    rw [hcut.eq (Token.cutFrom_cut text)]
    exact (TagRegistry.places_of_strip h).1.text
  rw [TagRegistry.strip_eq_self_iff]
  constructor
  · rintro hall ⟨done, rest, before, token, after, -, hts, -, -, hculprit⟩
    rcases hculprit with hbad | ⟨-, t, ht, hbad⟩
    · exact hbad (hall token (by simp [hts]))
    · exact hbad (hall t (by simp [hts, ht]))
  · intro hnone
    have hstart : CutSoFar r ps (Token.cut s.text) [] ps [] := by
      refine ⟨(List.nil_append ps).symm, ?_, rfl, nofun⟩
      rw [Token.cut, htext]
      rfl
    exact (hstart.isForeign_or_reassembles hcut).resolve_right hnone

/-- A pause written around another one. -/
def splitPause : String := "<wa<wait=1/>it=1/>"

/-- The same text with the inner pause taken out. -/
def splitPauseStripped : StrippedText where
  text := "<wait=1/>"
  tags := [⟨"wait", .single, .wait, 3, 0, some "1", []⟩]

/-- What is shown of it is a pause, which stripping takes out. -/
theorem strip_splitPause :
    TagRegistry.builtin.strip splitPause = .ok splitPauseStripped
      ∧ TagRegistry.builtin.strip splitPauseStripped.text ≠ .ok ⟨splitPauseStripped.text, []⟩ := by
  decide +kernel

/-- A text with pauses, one of them in a tag of the text renderer, and a `<` that begins nothing. -/
def splitBold : String := "1 < 2<wait=1/> <<wait=2/>b>x</b>"

/-- The same text with the pauses taken out. -/
def splitBoldStripped : StrippedText where
  text := "1 < 2 <b>x</b>"
  tags :=
    [⟨"wait", .single, .wait, 5, 0, some "1", []⟩, ⟨"wait", .single, .wait, 7, 0, some "2", []⟩]

theorem strip_again_iff_split :
    ¬Reassembles .builtin ((Token.cut splitBold).map Token.piece) (Token.cut splitBoldStripped.text)
      ∧ Reassembles .builtin ((Token.cut splitPause).map Token.piece)
        (Token.cut splitPauseStripped.text) := by
  have hbold : TagRegistry.builtin.strip splitBold = .ok splitBoldStripped := by decide +kernel
  have hpause : TagRegistry.builtin.strip splitPause = .ok splitPauseStripped := by decide +kernel
  constructor
  · exact (strip_again_iff .builtin splitBold hbold (Token.cutFrom_cut _)).1 (by decide +kernel)
  · by_contra hnone
    have hagain := (strip_again_iff .builtin splitPause hpause (Token.cutFrom_cut _)).2 hnone
    exact absurd hagain (by decide +kernel)

end BranchingDialogue
