import BranchingDialogue.Proofs.Markup.Nesting

/-!
# What span tags cover

A tag that is off the stack stays as it is: `Stripping.frozen_tokens`. So a tag that was closed covers
what stands between it and its partner, and at the end only those are closed that have no partner:
`Stripping.partners_finish`.

Of two tags of one name the later one lies within the earlier one, or begins where the earlier one
has ended: a step keeps this (`Stripping.Layered`), so in a stripped text the ranges of one name are
nested: `Stripping.nested_finish`.
-/

namespace BranchingDialogue

variable {r : TagRegistry} {ts us : List Token} {t : Token}

namespace PlacedTag

/-- A tag covers a character. -/
def Covers (p : PlacedTag) (index : Nat) : Prop := p.start ≤ index ∧ index < p.stop

/-- All that a tag covers is covered by another one. -/
def Within (p q : PlacedTag) : Prop := q.start ≤ p.start ∧ p.stop ≤ q.stop

/-- A tag that is made to reach up to a place. -/
def upTo (p : PlacedTag) (count : Nat) : PlacedTag := { p with length := count - p.start }

theorem stop_upTo {p : PlacedTag} {count : Nat} (h : p.start ≤ count) : (p.upTo count).stop = count := by
  show p.start + (count - p.start) = count
  omega

end PlacedTag

namespace Stripping

variable {s s' : Stripping} {i j : Nat}

/-! ## Tags off the stack -/

/-- **A step changes no tag that is off the stack, and puts none back.** -/
theorem frozen_strips (h : Strips r s t s') (hi : i < s.tags.size) (hclosed : i ∉ s.unclosed) :
    s'.tags[i]? = s.tags[i]? ∧ i < s'.tags.size ∧ i ∉ s'.unclosed := by
  have hpush (p : PlacedTag) :
      (s.tags.push p)[i]? = s.tags[i]? ∧ i < (s.tags.push p).size := by
    rw [Array.getElem?_push, if_neg (by omega), Array.size_push]
    exact ⟨rfl, by omega⟩
  cases h with
  | foreign unknown => exact ⟨rfl, hi, hclosed⟩
  | quote unknown => exact ⟨rfl, hi, hclosed⟩
  | char c => exact ⟨rfl, hi, hclosed⟩
  | marks => exact ⟨(hpush _).1, (hpush _).2, hclosed⟩
  | opens =>
    refine ⟨(hpush _).1, (hpush _).2, ?_⟩
    rw [List.mem_cons, not_or]
    exact ⟨by omega, hclosed⟩
  | @closes _ _ k known boundary shape innermost =>
    have hne : k ≠ i := by
      rintro rfl
      exact hclosed (mem_of_innermost innermost).1
    refine ⟨?_, by simpa [close] using hi, fun hmem => hclosed (List.mem_of_mem_erase hmem)⟩
    show (s.close k).tags[i]? = s.tags[i]?
    rw [getElem?_tags_close]
    simp [hne]

theorem frozen_tokens (h : s.tokens r ts = .ok s') (hi : i < s.tags.size)
    (hclosed : i ∉ s.unclosed) : s'.tags[i]? = s.tags[i]? ∧ i ∉ s'.unclosed := by
  induction ts generalizing s with
  | nil =>
    cases h
    exact ⟨rfl, hclosed⟩
  | cons t ts ih =>
    obtain ⟨s₁, hstrips, hrest⟩ := tokens_cons_eq_ok_iff.1 h
    obtain ⟨hsame, hsize, hclosed₁⟩ := frozen_strips hstrips hi hclosed
    obtain ⟨hlast, hclosed'⟩ := ih hrest hsize hclosed₁
    exact ⟨hlast.trans hsame, hclosed'⟩

/-! ## The end -/

theorem getElem?_tags_closeAll (s : Stripping) (is : List Nat) (i : Nat) :
    (is.foldl close s).tags[i]?
      = (s.tags[i]?).map fun p => if i ∈ is then p.upTo s.count else p := by
  induction is generalizing s with
  | nil => simp
  | cons j is ih =>
    have hcount (k : Nat) : (s.close k).count = s.count := rfl
    rw [List.foldl_cons, ih, getElem?_tags_close, Option.map_map]
    congr 1
    funext p
    by_cases hj : j = i
    · by_cases his : i ∈ is <;> simp [hj, his, hcount, PlacedTag.upTo]
    · have hj' : i ≠ j := Ne.symm hj
      by_cases his : i ∈ is <;> simp [hj, hj', his, hcount]

/-- What is never closed reaches to the end. -/
theorem getElem?_tags_finish_of_mem {p : PlacedTag} (hp : s.tags[i]? = some p)
    (hi : i ∈ s.unclosed) : s.finish.tags[i]? = some (p.upTo s.count) := by
  rw [finish, Array.getElem?_toList, getElem?_tags_closeAll, hp, Option.map_some, if_pos hi]

theorem getElem?_tags_finish_of_not_mem (hi : i ∉ s.unclosed) :
    s.finish.tags[i]? = s.tags[i]? := by
  rw [finish, Array.getElem?_toList, getElem?_tags_closeAll]
  simp [hi]

theorem exists_of_finish {p : PlacedTag} (h : s.finish.tags[i]? = some p) :
    ∃ q, s.tags[i]? = some q ∧ p = if i ∈ s.unclosed then q.upTo s.count else q := by
  rw [finish, Array.getElem?_toList, getElem?_tags_closeAll, Option.map_eq_some_iff] at h
  obtain ⟨q, hq, rfl⟩ := h
  exact ⟨q, hq, rfl⟩

theorem Nests.charCount_eq (h : s.Nests r ts) : s.finish.charCount = s.count := by
  rw [StrippedText.charCount, finish, String.length_ofList, h.follows.shown, h.follows.count]

end Stripping

/-! ## Partners -/

/-- The tags that are taken out of some tokens cover what they and their partners enclose. -/
structure StrippedText.Partners (r : TagRegistry) (ts : List Token) (s : StrippedText) : Prop where
  /-- An end tag closes its one partner, which covers all that is shown in between. -/
  closed : ∀ before c after, ts = before ++ .tag c :: after → (∃ d, r.custom? c.name = some d) →
    c.boundary = .stop →
      ∃ outer o inner, before = outer ++ .tag o :: inner ∧ Pairs o inner c
        ∧ (∀ outer' o' inner', before = outer' ++ .tag o' :: inner' → Pairs o' inner' c →
          outer' = outer)
        ∧ ∃ p, s.tags[Token.listedCount r outer]? = some p
          ∧ p.start = Token.shownCount r outer ∧ p.stop = Token.shownCount r before
  /-- A start tag has at most one partner. -/
  unique : ∀ (outer : List Token) o inner c after inner' c' after',
    ts = outer ++ .tag o :: (inner ++ .tag c :: after) →
    inner ++ .tag c :: after = inner' ++ .tag c' :: after' → Pairs o inner c → Pairs o inner' c' →
      inner = inner'
  /-- A start tag without a partner covers all that is shown after it. -/
  unclosed : ∀ outer o rest, ts = outer ++ .tag o :: rest → (∃ d, r.custom? o.name = some d) →
    o.boundary = .start → (¬∃ inner c after, rest = inner ++ .tag c :: after ∧ Pairs o inner c) →
      ∃ p, s.tags[Token.listedCount r outer]? = some p
        ∧ p.start = Token.shownCount r outer ∧ p.stop = s.charCount

theorem Pairs.unique {o c c' : Tag} {inner inner' after after' : List Token}
    (h : Pairs o inner c) (h' : Pairs o inner' c')
    (hsplit : inner ++ .tag c :: after = inner' ++ .tag c' :: after') : inner = inner' := by
  have hname := sameName_trans (sameName_symm h.name) h'.name
  have hbetween := h'.between
  rw [← Token.bracket?_congr hname] at hbetween
  exact closing_unique h.between hbetween (Token.bracket?_stop h.closes (sameName_refl _))
    (Token.bracket?_stop h'.closes (sameName_symm hname)) hsplit

theorem Pairs.unique_start {o o' c : Tag} {outer outer' inner inner' : List Token}
    (h : Pairs o inner c) (h' : Pairs o' inner' c)
    (hsplit : outer ++ .tag o :: inner = outer' ++ .tag o' :: inner') : outer' = outer := by
  obtain ⟨hupright, hzero⟩ := balanced_iff.1 h'.between
  rcases eq_or_height_pos h.between hupright (Token.bracket?_start h.opens h.name)
    (Token.bracket?_start h'.opens h'.name) hsplit with heq | hpos
  · exact heq
  · omega

/-- After a start tag without a partner nothing is closed that was opened before. -/
theorem upright_of_no_partner {o : Tag} {rest : List Token} (hstart : o.boundary = .start)
    (h : ¬∃ inner c after, rest = inner ++ .tag c :: after ∧ Pairs o inner c) :
    Upright (Token.bracket? o.name) rest := by
  by_contra hnot
  obtain ⟨inner, t, after, rfl, hstep, hbalanced⟩ := exists_closing hnot
  obtain ⟨c, rfl, hname, hstop⟩ := Token.exists_stop_of_bracket? hstep
  rw [← Token.bracket?_congr hname] at hbalanced
  exact h ⟨inner, c, after, rfl, hstart, hstop, sameName_symm hname, hbalanced⟩

namespace Stripping

variable {s s' last : Stripping}

/-- What a closed tag covers is settled when it is closed. -/
theorem exists_closed {before after : List Token} {c : Tag} {d : TagDefinition}
    (h : start.tokens r (before ++ .tag c :: after) = .ok last) (known : r.custom? c.name = some d)
    (hstop : c.boundary = .stop) :
    ∃ outer o inner, before = outer ++ .tag o :: inner ∧ Pairs o inner c
      ∧ ∃ p, last.finish.tags[Token.listedCount r outer]? = some p
        ∧ p.start = Token.shownCount r outer ∧ p.stop = Token.shownCount r before := by
  obtain ⟨s₁, hbefore, hrest⟩ := tokens_append_eq_ok_iff.1 h
  obtain ⟨s₂, hstrips, hafter⟩ := tokens_cons_eq_ok_iff.1 hrest
  have hnests := nests_of_tokens hbefore
  cases hstrips with
  | foreign unknown => rw [known] at unknown; cases unknown
  | marks _ boundary => rw [hstop] at boundary; cases boundary
  | opens _ boundary => rw [hstop] at boundary; cases boundary
  | @closes _ d' i known' _ _ innermost =>
    obtain ⟨outer, o, inner, hopens, hpairs⟩ := hnests.pairs_of_innermost known' hstop innermost
    obtain ⟨d₀, hd₀⟩ := hopens.known
    obtain ⟨p, hp, hof⟩ := hnests.exists_placed hopens.split hd₀ (by rw [hopens.boundary]; nofun)
    rw [hopens.index] at hp
    have hfits := hnests.follows.fits i p hp
    -- The tag is off the stack now, so nothing changes it any more.
    have hclosed : (s₁.close i).tags[i]? = some (p.upTo s₁.count) := by
      rw [getElem?_tags_close, hp, Option.map_some, if_pos rfl]
      rfl
    have hsize : i < (s₁.close i).tags.size := (Array.getElem?_eq_some_iff.1 hclosed).1
    obtain ⟨hsame, hoff⟩ := frozen_tokens hafter hsize hnests.nodup.not_mem_erase
    refine ⟨outer, o, inner, hopens.split, hpairs, p.upTo s₁.count, ?_, hof.start, ?_⟩
    · rw [hopens.index, getElem?_tags_finish_of_not_mem hoff, hsame]
      exact hclosed
    · rw [PlacedTag.stop_upTo (by omega), hnests.count_eq]

/-- **Start tags and end tags of a text are partners like brackets.** -/
theorem partners_finish (h : start.tokens r ts = .ok last) : last.finish.Partners r ts where
  closed := by
    rintro before c after rfl ⟨d, known⟩ hstop
    obtain ⟨outer, o, inner, rfl, hpairs, hplaced⟩ := exists_closed h known hstop
    exact ⟨outer, o, inner, rfl, hpairs,
      fun outer' o' inner' hsplit hpairs' => hpairs.unique_start hpairs' hsplit, hplaced⟩
  unique := by
    rintro outer o inner c after inner' c' after' - hsplit hpairs hpairs'
    exact hpairs.unique hpairs' hsplit
  unclosed := by
    rintro outer o rest hsplit ⟨d, known⟩ hstart hnone
    have hnests := nests_of_tokens h
    have hopens : Opens r ts (Token.listedCount r outer) outer o rest :=
      ⟨hsplit, ⟨d, known⟩, hstart, upright_of_no_partner hstart hnone, rfl⟩
    have hmem := (hnests.unclosed _).2 ⟨outer, o, rest, hopens⟩
    obtain ⟨p, hp, hof⟩ := hnests.exists_placed hsplit known (by rw [hstart]; nofun)
    have hfits := hnests.follows.fits _ p hp
    refine ⟨p.upTo last.count, getElem?_tags_finish_of_mem hp hmem, hof.start, ?_⟩
    rw [PlacedTag.stop_upTo (by omega), hnests.charCount_eq]

/-! ## Nested ranges -/

/-- Of two tags of one name the earlier one is on the stack, or has ended before the later one
begins, or encloses it. -/
def Layered (s : Stripping) : Prop :=
  ∀ (i j : Nat) p q, i < j → s.tags[i]? = some p → s.tags[j]? = some q → p.name = q.name →
    i ∈ s.unclosed ∨ p.stop ≤ q.start ∨ j ∉ s.unclosed ∧ q.stop ≤ p.stop

theorem layered_start : start.Layered := by
  intro i j p q hlt hp
  simp [start] at hp

/-- A new tag begins where all that are off the stack have ended. -/
theorem Layered.push (h : s.Layered) (hnests : s.Nests r ts) {p : PlacedTag}
    (hstart : p.start = s.count) {unclosed : List Nat} (hkeep : ∀ i ∈ s.unclosed, i ∈ unclosed)
    (hnew : ∀ i ∈ unclosed, i ∈ s.unclosed ∨ i = s.tags.size) :
    Layered { s with tags := s.tags.push p, unclosed := unclosed } := by
  intro i j p' q' hlt hp' hq' hname
  simp only [Array.getElem?_push] at hp' hq'
  have hi : i ≠ s.tags.size := by
    rintro rfl
    rw [if_neg (by omega)] at hq'
    have hsize := (Array.getElem?_eq_some_iff.1 hq').1
    omega
  rw [if_neg hi] at hp'
  split at hq'
  · cases hq'
    have hfits := hnests.follows.fits i p' hp'
    refine .inr (.inl ?_)
    rw [hstart]
    exact hfits
  · next hj =>
    rcases h i j p' q' hlt hp' hq' hname with hopen | hbefore | ⟨hclosed, hwithin⟩
    · exact .inl (hkeep i hopen)
    · exact .inr (.inl hbefore)
    · exact .inr (.inr ⟨fun hmem => (hnew j hmem).elim hclosed hj, hwithin⟩)

/-- A tag is closed after all later ones of its name, so it encloses them. -/
theorem Layered.pop (h : s.Layered) (hnests : s.Nests r ts) {k : Nat} {name : String}
    (hfound : s.innermost? name = some k) :
    Layered { s.close k with unclosed := s.unclosed.erase k } := by
  obtain ⟨hk, hkname⟩ := mem_of_innermost hfound
  intro i j p' q' hlt hp' hq' hname
  simp only [getElem?_tags_close, Option.map_eq_some_iff] at hp' hq'
  obtain ⟨p, hp, rfl⟩ := hp'
  obtain ⟨q, hq, rfl⟩ := hq'
  have hfits := hnests.follows.fits
  by_cases hki : k = i
  · subst hki
    rw [if_pos rfl, if_neg (by omega)] at hname ⊢
    refine .inr (.inr ⟨fun hmem => ?_, ?_⟩)
    · rw [hp, Option.map_some, Option.some.injEq] at hkname
      have hle := le_of_innermost hnests.decreasing hfound (List.mem_of_mem_erase hmem)
        (by rw [hq, Option.map_some, ← hname, ← hkname])
      omega
    · have hp₀ := hfits k p hp
      have hq₀ := hfits j q hq
      show q.start + q.length ≤ p.start + (s.count - p.start)
      omega
  · rw [if_neg hki] at hname ⊢
    have hqname : p.name = q.name := by
      split at hname <;> exact hname
    rcases h i j p q hlt hp hq hqname with hopen | hbefore | ⟨hclosed, hwithin⟩
    · exact .inl (hnests.nodup.mem_erase_iff.2 ⟨Ne.symm hki, hopen⟩)
    · refine .inr (.inl ?_)
      split <;> exact hbefore
    · have hkj : k ≠ j := by
        rintro rfl
        exact hclosed hk
      rw [if_neg hkj]
      exact .inr (.inr ⟨fun hmem => hclosed (List.mem_of_mem_erase hmem), hwithin⟩)

/-- **A step keeps the layers of each name.** -/
theorem Layered.strips (h : s.Layered) (hnests : s.Nests r ts) (hstrips : Strips r s t s') :
    s'.Layered := by
  cases hstrips with
  | foreign unknown => exact h
  | quote unknown => exact h
  | char c => exact h
  | marks => exact h.push hnests rfl (fun i hi => hi) fun i hi => .inl hi
  | opens =>
    exact h.push hnests rfl (fun i hi => List.mem_cons_of_mem _ hi)
      fun i hi => (List.mem_cons.1 hi).symm
  | closes known boundary shape innermost => exact h.pop hnests innermost

theorem Layered.tokens (h : s.Layered) (hnests : s.Nests r ts) (htokens : s.tokens r us = .ok s') :
    s'.Layered := by
  induction us generalizing s ts with
  | nil =>
    cases htokens
    exact h
  | cons u us ih =>
    obtain ⟨s₁, hstrips, hrest⟩ := tokens_cons_eq_ok_iff.1 htokens
    exact ih (h.strips hnests hstrips) (hnests.strips hstrips) hrest

/-- **The ranges of tags of one name are nested.** -/
theorem nested_finish (h : start.tokens r ts = .ok last) :
    last.finish.tags.Pairwise fun p q =>
      p.name = q.name → (∃ index, p.Covers index ∧ q.Covers index) → q.Within p := by
  have hnests := nests_of_tokens h
  have hlayered := layered_start.tokens (nests_start r) h
  have hplaces := StrippedText.places_finish hnests.follows
  have hstarts := hplaces.pairwise_start
  have hfits := hnests.follows.fits
  rw [List.pairwise_map] at hstarts
  rw [List.pairwise_iff_getElem] at hstarts ⊢
  rintro i j hi hj hlt hname ⟨index, hp, hq⟩
  refine ⟨hstarts i j hi hj hlt, ?_⟩
  obtain ⟨p, hpi, hpeq⟩ := exists_of_finish (List.getElem?_eq_getElem hi)
  obtain ⟨q, hqj, hqeq⟩ := exists_of_finish (List.getElem?_eq_getElem hj)
  have hpfits := hfits i p hpi
  have hqfits := hfits j q hqj
  have hnames : p.name = q.name := by
    rw [hpeq, hqeq] at hname
    split at hname <;> split at hname <;> exact hname
  rw [hpeq] at hp ⊢
  rw [hqeq] at hq ⊢
  by_cases hopen : i ∈ last.unclosed
  · rw [if_pos hopen, PlacedTag.stop_upTo (by omega)]
    split
    · rw [PlacedTag.stop_upTo (by omega)]
    · exact hqfits
  · rw [if_neg hopen] at hp ⊢
    rcases hlayered i j p q hlt hpi hqj hnames with hmem | hbefore | ⟨hclosed, hwithin⟩
    · exact absurd hmem hopen
    · -- The earlier one has ended, so no character is shared.
      have hstart : q.start ≤ index := by
        split at hq <;> exact hq.1
      have hstop := hp.2
      omega
    · rwa [if_neg hclosed]

end Stripping

end BranchingDialogue
