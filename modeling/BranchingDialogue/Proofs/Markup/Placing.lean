import BranchingDialogue.Proofs.Loops
import BranchingDialogue.Proofs.Markup.Cut
import BranchingDialogue.Proofs.Markup.Step
import Mathlib.Data.List.Flatten
import Mathlib.Data.List.Induction

/-!
# Where stripped tags are placed

A text falls into pieces, `CutFrom`. What is shown of it are the pieces that are no tags of the
library's own, and of these tags those that are not end tags are listed, each with the number of
characters that are shown of the pieces before it. `Follows` says that a text being stripped has
come so far; every step keeps it, and so does closing tags at the end.

Main result: `strip_places`.
-/

namespace BranchingDialogue

/-! ## What is to be shown and listed -/

namespace Piece

variable (r : TagRegistry)

/-- The tag that a piece is, if it is one of the library's own. -/
def custom? (p : Piece) : Option (TagDefinition × Tag) :=
  p.tag?.bind fun t => (r.custom? t.name).map fun d => (d, t)

/-- The tag that a piece is, if it is one of the library's own and no end tag. -/
def listed? (p : Piece) : Option (TagDefinition × Tag) :=
  (p.custom? r).filter fun o => o.2.boundary ≠ .stop

/-- The characters that are shown of some pieces. -/
def shown (ps : List Piece) : List Char :=
  (ps.filter fun p => (p.custom? r).isNone).flatMap chars

/-- The tags to be listed of some pieces, with the numbers of characters that are shown before. -/
def listed (ps : List Piece) : List ((TagDefinition × Tag) × Nat) :=
  ps.zipIdx.filterMap fun (p, i) => (p.listed? r).map fun o => (o, (shown r (ps.take i)).length)

variable {r}

theorem shown_concat (ps : List Piece) (p : Piece) :
    shown r (ps ++ [p]) = shown r ps ++ if (p.custom? r).isNone then p.chars else [] := by
  unfold shown
  rw [List.filter_append, List.flatMap_append]
  split
  · next h => simp [h]
  · next h => simp [h]

theorem listed_concat (ps : List Piece) (p : Piece) :
    listed r (ps ++ [p])
      = listed r ps ++ ((p.listed? r).map fun o => (o, (shown r ps).length)).toList := by
  unfold listed
  -- Of the pieces before a former one nothing has changed.
  rw [List.zipIdx_append, List.filterMap_append]
  congr 1
  · refine List.filterMap_congr fun ⟨q, i⟩ hq => ?_
    have hi : i < ps.length := by simpa using List.snd_lt_of_mem_zipIdx hq
    simp only
    rw [List.take_append_of_le_length (Nat.le_of_lt hi)]
  · cases h : p.listed? r <;> simp [h]

theorem length_shown_mono {ps qs : List Piece} :
    (shown r ps).length ≤ (shown r (ps ++ qs)).length := by
  simp [shown]

theorem le_of_mem_listed {ps : List Piece} {o : (TagDefinition × Tag) × Nat}
    (h : o ∈ listed r ps) : o.2 ≤ (shown r ps).length := by
  unfold listed at h
  obtain ⟨⟨p, i⟩, hp, ho⟩ := List.mem_filterMap.1 h
  obtain ⟨o', -, rfl⟩ := Option.map_eq_some_iff.1 ho
  calc (shown r (ps.take i)).length
      ≤ (shown r (ps.take i ++ ps.drop i)).length := length_shown_mono
    _ = (shown r ps).length := by rw [List.take_append_drop]

/-- A tag that is listed has a definition in the registry. -/
theorem mem_definitions_of_mem_listed {ps : List Piece} {o : (TagDefinition × Tag) × Nat}
    (h : o ∈ listed r ps) : o.1.1 ∈ r.definitions := by
  obtain ⟨⟨p, i⟩, -, hlisted⟩ := List.mem_filterMap.1 h
  obtain ⟨o', hlisted', rfl⟩ := Option.map_eq_some_iff.1 hlisted
  obtain ⟨hcustom, -⟩ := Option.filter_eq_some_iff.1 hlisted'
  obtain ⟨t, -, hknown⟩ := Option.bind_eq_some_iff.1 hcustom
  obtain ⟨d, hd, rfl⟩ := Option.map_eq_some_iff.1 hknown
  exact List.mem_of_find?_eq_some hd

/-- Later tags are listed at later places or the same. -/
theorem pairwise_listed (ps : List Piece) : (listed r ps).Pairwise fun o o' => o.2 ≤ o'.2 := by
  induction ps using List.reverseRecOn with
  | nil => exact .nil
  | append_singleton ps p ih =>
    rw [listed_concat, List.pairwise_append]
    refine ⟨ih, by cases p.listed? r <;> simp, fun o ho o' ho' => ?_⟩
    have heq : o'.2 = (shown r ps).length := by
      cases h : p.listed? r <;> simp_all
    rw [heq]
    exact le_of_mem_listed ho

theorem sublist_shown (ps : List Piece) : (shown r ps).Sublist (ps.flatMap chars) :=
  (List.filter_sublist (l := ps)).flatMap _

end Piece

/-- A tag is placed as one that is to be listed; how far it reaches is not said. -/
structure PlacedTag.IsOf (o : (TagDefinition × Tag) × Nat) (t : PlacedTag) : Prop where
  name : t.name = o.1.1.name
  shape : t.shape = o.1.1.shape
  behavior : t.behavior = o.1.1.behavior
  start : t.start = o.2
  attributes : ∃ as, o.1.2.attributes = .ok as ∧ t.parameter = Stripping.ownValue as
    ∧ t.attributes = Stripping.named as

/-! ## How far a text being stripped has come -/

namespace Stripping

/-- A text being stripped is where it should be after some pieces. -/
structure Follows (r : TagRegistry) (ps : List Piece) (s : Stripping) : Prop where
  shown : s.shown.reverse = Piece.shown r ps
  count : s.count = (Piece.shown r ps).length
  tags : List.Forall₂ (fun o t => PlacedTag.IsOf o t) (Piece.listed r ps) s.tags.toList
  fits : ∀ (i : Nat) t, s.tags[i]? = some t → t.start + t.length ≤ s.count
  single : ∀ (i : Nat) t, s.tags[i]? = some t → t.shape = .single → t.length = 0
  unclosed : ∀ i ∈ s.unclosed, ∃ t, s.tags[i]? = some t ∧ t.shape = .span

variable {r : TagRegistry} {ps : List Piece} {s s' : Stripping}

theorem follows_start (r : TagRegistry) : start.Follows r [] where
  shown := rfl
  count := rfl
  tags := .nil
  fits := by simp [start]
  single := by simp [start]
  unclosed := by simp [start]

/-- Closing a tag changes nothing but how far it reaches. -/
theorem getElem?_tags_close (s : Stripping) (i j : Nat) :
    (s.close i).tags[j]?
      = (s.tags[j]?).map fun t => if i = j then { t with length := s.count - t.start } else t := by
  unfold close
  rw [Array.getElem?_modify]
  split <;> simp_all

theorem Follows.close (h : s.Follows r ps) {i : Nat} (hi : i ∈ s.unclosed) :
    (s.close i).Follows r ps where
  shown := h.shown
  count := h.count
  tags := by
    refine forall₂_iff_getElem?.2 ⟨?_, fun j o t ho ht => ?_⟩
    · rw [h.tags.length_eq, Array.length_toList, Array.length_toList, Stripping.close,
        Array.size_modify]
    · rw [Array.getElem?_toList, getElem?_tags_close, Option.map_eq_some_iff] at ht
      obtain ⟨t', ht', rfl⟩ := ht
      have hof := (forall₂_iff_getElem?.1 h.tags).2 j o t' ho (by rwa [Array.getElem?_toList])
      split
      · exact ⟨hof.name, hof.shape, hof.behavior, hof.start, hof.attributes⟩
      · exact hof
  fits := by
    intro j t ht
    rw [getElem?_tags_close, Option.map_eq_some_iff] at ht
    obtain ⟨t', ht', rfl⟩ := ht
    have hfits := h.fits j t' ht'
    have hcount : (s.close i).count = s.count := rfl
    rw [hcount]
    split
    · simp only
      omega
    · exact hfits
  single := by
    intro j t ht hsingle
    rw [getElem?_tags_close, Option.map_eq_some_iff] at ht
    obtain ⟨t', ht', rfl⟩ := ht
    -- The tag that is closed is a span, so it is not one of those that stay empty.
    obtain ⟨t'', ht'', hspan⟩ := h.unclosed i hi
    split at hsingle
    · next heq =>
      subst heq
      rw [ht'] at ht''
      cases ht''
      exact absurd (hspan.symm.trans hsingle) (by decide)
    · next hne =>
      rw [if_neg hne]
      exact h.single j t' ht' hsingle
  unclosed := by
    intro j hj
    obtain ⟨t, ht, hspan⟩ := h.unclosed j hj
    rw [getElem?_tags_close, ht]
    refine ⟨_, rfl, ?_⟩
    split <;> exact hspan

/-! ## One step -/

theorem Follows.display (h : s.Follows r ps) {p : Piece} (hp : p.custom? r = none) :
    (s.display p.chars).Follows r (ps ++ [p]) where
  shown := by
    rw [Piece.shown_concat, hp, ← h.shown]
    simp [Stripping.display]
  count := by
    rw [Piece.shown_concat, hp]
    simp [Stripping.display, h.count]
  tags := by
    rw [Piece.listed_concat, Piece.listed?, hp, Option.filter_none, Option.map_none,
      Option.toList_none, List.append_nil]
    exact h.tags
  fits := by
    intro i t ht
    have hfits := h.fits i t ht
    simp only [Stripping.display]
    omega
  single := h.single
  unclosed := h.unclosed

theorem custom?_piece {t : Tag} {d : TagDefinition} (known : r.custom? t.name = some d) :
    (Token.tag t).piece.custom? r = some (d, t) := by
  simp [Token.piece, Piece.custom?, known]

/-- A tag that is taken out leaves what is shown as it is. -/
theorem shown_concat_tag {t : Tag} {d : TagDefinition} (known : r.custom? t.name = some d) :
    Piece.shown r (ps ++ [(Token.tag t).piece]) = Piece.shown r ps := by
  rw [Piece.shown_concat, custom?_piece known]
  exact List.append_nil _

theorem Follows.takeOut (h : s.Follows r ps) {t : Tag} {d : TagDefinition} {as : List Attribute}
    (known : r.custom? t.name = some d) (hstop : t.boundary ≠ .stop)
    (has : t.attributes = .ok as) {unclosed : List Nat}
    (hunclosed : ∀ i ∈ unclosed, i ∈ s.unclosed ∨ i = s.tags.size ∧ d.shape = .span) :
    Follows r (ps ++ [(Token.tag t).piece])
      { s with tags := s.tags.push (s.placed d as), unclosed := unclosed } where
  shown := by rw [shown_concat_tag known, h.shown]
  count := by rw [shown_concat_tag known, h.count]
  tags := by
    have hlisted : (Token.tag t).piece.listed? r = some (d, t) := by
      simp [Piece.listed?, custom?_piece known, hstop]
    rw [Piece.listed_concat, hlisted, Array.toList_push]
    refine List.rel_append h.tags (.cons ⟨rfl, rfl, rfl, h.count, as, has, rfl, rfl⟩ .nil)
  fits := by
    intro i t' ht'
    rw [Array.getElem?_push] at ht'
    split at ht'
    · cases ht'
      exact Nat.le_refl _
    · exact h.fits i t' ht'
  single := by
    intro i t' ht' hsingle
    rw [Array.getElem?_push] at ht'
    split at ht'
    · cases ht'
      rfl
    · exact h.single i t' ht' hsingle
  unclosed := by
    intro i hi
    rcases hunclosed i hi with hold | ⟨rfl, hspan⟩
    · obtain ⟨t', ht', hspan⟩ := h.unclosed i hold
      refine ⟨t', ?_, hspan⟩
      rw [Array.getElem?_push, if_neg, ht']
      rintro rfl
      simp at ht'
    · exact ⟨s.placed d as, by simp, hspan⟩

/-- **A step follows its piece.** -/
theorem Follows.strips {t : Token} (h : s.Follows r ps) (hstrips : Strips r s t s') :
    s'.Follows r (ps ++ [t.piece]) := by
  cases hstrips with
  | foreign unknown =>
    exact h.display (p := (Token.tag _).piece) (by simp [Token.piece, Piece.custom?, unknown])
  | quote unknown => exact h.display (p := ⟨none, ['<']⟩) rfl
  | char c => exact h.display (p := ⟨none, [c]⟩) rfl
  | marks known boundary shape attributes =>
    exact h.takeOut known (by rw [boundary]; nofun) attributes fun i hi => .inl hi
  | opens known boundary shape attributes =>
    refine h.takeOut known (by rw [boundary]; nofun) attributes fun i hi => ?_
    rcases List.mem_cons.1 hi with rfl | hi
    · exact .inr ⟨rfl, shape⟩
    · exact .inl hi
  | @closes t d i known boundary shape innermost =>
    have hclose := h.close (List.mem_of_find?_eq_some innermost)
    have hlisted : (Token.tag t).piece.listed? r = none := by
      simp [Piece.listed?, custom?_piece known, boundary]
    exact
      { shown := by rw [shown_concat_tag known]; exact hclose.shown
        count := by rw [shown_concat_tag known]; exact hclose.count
        tags := by
          rw [Piece.listed_concat, hlisted, Option.map_none, Option.toList_none, List.append_nil]
          exact hclose.tags
        fits := hclose.fits
        single := hclose.single
        unclosed := fun j hj => hclose.unclosed j (List.mem_of_mem_erase hj) }

theorem Follows.tokens {ts : List Token} (h : s.Follows r ps) (htokens : s.tokens r ts = .ok s') :
    s'.Follows r (ps ++ ts.map Token.piece) := by
  induction ts generalizing s ps with
  | nil =>
    cases htokens
    rwa [List.map_nil, List.append_nil]
  | cons t ts ih =>
    obtain ⟨s₁, hstrips, hrest⟩ := tokens_cons_eq_ok_iff.1 htokens
    have hstep := ih (h.strips hstrips) hrest
    rwa [List.append_assoc] at hstep

/-! ## The end -/

/-- Closing all that is still open keeps everything in its place. -/
theorem Follows.closeAll {is : List Nat} (h : s.Follows r ps) (his : ∀ i ∈ is, i ∈ s.unclosed) :
    (is.foldl Stripping.close s).Follows r ps := by
  induction is generalizing s with
  | nil => exact h
  | cons i is ih =>
    rw [List.forall_mem_cons] at his
    exact ih (h.close his.1) his.2

end Stripping

/-- A stripped text shows what is to be shown of some pieces and lists what is to be listed. -/
structure StrippedText.Places (r : TagRegistry) (ps : List Piece) (s : StrippedText) : Prop where
  text : s.text.toList = Piece.shown r ps
  tags : List.Forall₂ (fun o t => PlacedTag.IsOf o t) (Piece.listed r ps) s.tags
  fits : ∀ t ∈ s.tags, t.start + t.length ≤ s.charCount
  single : ∀ t ∈ s.tags, t.shape = .single → t.length = 0

namespace StrippedText

variable {r : TagRegistry} {ps : List Piece} {s : StrippedText} {text : String}

theorem places_finish {s : Stripping} (h : s.Follows r ps) : s.finish.Places r ps := by
  have hend := h.closeAll fun i hi => hi
  have hcount : (s.unclosed.foldl Stripping.close s).count = s.count := by
    rw [hend.count, h.count]
  have hchars : s.finish.charCount = s.count := by
    rw [charCount, Stripping.finish, String.length_ofList, h.shown, h.count]
  refine ⟨?_, hend.tags, fun t ht => ?_, fun t ht => ?_⟩
  · rw [Stripping.finish, String.toList_ofList, h.shown]
  · obtain ⟨i, hi⟩ := List.mem_iff_getElem?.1 ht
    rw [hchars, ← hcount]
    exact hend.fits i t (by rwa [← Array.getElem?_toList])
  · obtain ⟨i, hi⟩ := List.mem_iff_getElem?.1 ht
    exact hend.single i t (by rwa [← Array.getElem?_toList])

theorem Places.sublist (h : s.Places r ps) (hcut : CutFrom text 0 ps) :
    s.text.toList.Sublist text.toList := by
  rw [h.text, ← hcut.flatMap_chars]
  exact Piece.sublist_shown ps

theorem Places.pairwise_start (h : s.Places r ps) :
    (s.tags.map PlacedTag.start).Pairwise (· ≤ ·) := by
  have hstarts : (Piece.listed r ps).map (·.2) = s.tags.map PlacedTag.start :=
    map_eq_of_forall₂ (h.tags.imp fun _ _ hof => hof.start.symm)
  rw [← hstarts, List.pairwise_map]
  exact Piece.pairwise_listed ps

/-- Without tags of the library's own a text stays as it is. -/
theorem Places.eq_of_foreign (h : s.Places r ps) (hcut : CutFrom text 0 ps)
    (hforeign : ∀ p ∈ ps, p.custom? r = none) : s = ⟨text, []⟩ := by
  have hall : (ps.filter fun p => (p.custom? r).isNone) = ps := by
    rw [List.filter_eq_self]
    intro p hp
    rw [hforeign p hp]
    rfl
  have hlisted : Piece.listed r ps = [] := by
    rw [Piece.listed, List.filterMap_eq_nil_iff]
    rintro ⟨p, i⟩ hp
    simp [Piece.listed?, hforeign p (List.fst_mem_of_mem_zipIdx hp)]
  have htext : s.text = text := by
    rw [← String.toList_inj, h.text, Piece.shown, hall, hcut.flatMap_chars]
  have htags : s.tags = [] := by
    have htags := h.tags
    rw [hlisted, List.forall₂_nil_left_iff] at htags
    exact htags
  cases s
  simp only at htext htags
  rw [htext, htags]

end StrippedText

/-- **Stripping deletes exactly the library's own tags and lists those that are no end tags where
they stood.** So nothing gets longer, the places do not decrease, a text without such tags stays as
it is, and a tag that is still open never begins after the characters shown so far. -/
theorem strip_places (r : TagRegistry) (text : String) {s : StrippedText}
    (h : r.strip text = .ok s) :
    ∃ ps, (∀ qs, CutFrom text 0 qs ↔ qs = ps) ∧ s.Places r ps
      ∧ s.text.utf8ByteSize ≤ text.utf8ByteSize ∧ s.charCount ≤ text.length
      ∧ (s.tags.map PlacedTag.start).Pairwise (· ≤ ·)
      ∧ ((∀ p ∈ ps, p.custom? r = none) → s = ⟨text, []⟩)
      ∧ ∀ before after, Token.cut text = before ++ after →
          ∃ s', Stripping.start.tokens r before = .ok s'
            ∧ ∀ i ∈ s'.unclosed, ∃ t, s'.tags[i]? = some t ∧ t.start ≤ s'.count := by
  -- The pieces are those of the parser's tokens; no other list of pieces is a cut.
  have hcut := Token.cutFrom_cut text
  unfold TagRegistry.strip at h
  cases htokens : Stripping.start.tokens r (Token.cut text) with
  | error e =>
    rw [htokens] at h
    cases h
  | ok last =>
    rw [htokens] at h
    cases h
    have hplaces := StrippedText.places_finish ((Stripping.follows_start r).tokens htokens)
    rw [List.nil_append] at hplaces
    have hsublist := hplaces.sublist hcut
    refine ⟨_, fun qs => ⟨fun hqs => hqs.eq hcut, fun hqs => hqs ▸ hcut⟩, hplaces, ?_, ?_,
      hplaces.pairwise_start, hplaces.eq_of_foreign hcut, fun before after hsplit => ?_⟩
    · rw [← utf8Length_toList, ← utf8Length_toList]
      exact utf8Length_le_of_sublist hsublist
    · rw [StrippedText.charCount, ← String.length_toList, ← String.length_toList]
      exact hsublist.length_le
    · rw [hsplit] at htokens
      obtain ⟨s', hbefore, -⟩ := Stripping.tokens_append_eq_ok_iff.1 htokens
      have hfollows := (Stripping.follows_start r).tokens hbefore
      refine ⟨s', hbefore, fun i hi => ?_⟩
      obtain ⟨t, ht, -⟩ := hfollows.unclosed i hi
      have hfits := hfollows.fits i t ht
      exact ⟨t, ht, by omega⟩

/-- A text with tags of both kinds, a quote that is never closed and a character of two bytes. -/
def mixedMarkup : String := "Né<wait=0.5/> <b>a</b><gradient from=\"<\"><c x=\""

/-- The same text with the tags of the library's own taken out. -/
def mixedStripped : StrippedText where
  text := "Né <b>a</b><c x=\""
  tags :=
    [⟨"wait", .single, .wait, 2, 0, some "0.5", []⟩,
      ⟨"gradient", .span, .gradient, 11, 6, none, [("from", "<")]⟩]

theorem strip_places_mixed :
    TagRegistry.builtin.strip mixedMarkup = .ok mixedStripped
      ∧ ∃ ps, CutFrom mixedMarkup 0 ps ∧ mixedStripped.Places .builtin ps := by
  have hstrip : TagRegistry.builtin.strip mixedMarkup = .ok mixedStripped := by decide +kernel
  obtain ⟨ps, hcut, hplaces, -⟩ := strip_places .builtin mixedMarkup hstrip
  exact ⟨hstrip, ps, (hcut ps).2 rfl, hplaces⟩

end BranchingDialogue
