import BranchingDialogue.Proofs.Brackets
import BranchingDialogue.Proofs.Markup.Placing
import BranchingDialogue.Proofs.Markup.Registering

/-!
# Start tags and end tags as brackets

The tags of one name are brackets. `Pairs` says that a start tag and an end tag are partners: between
them the tags of their name are balanced. `IsOpen` says that a start tag has no partner yet.

While a text is stripped, the tags on the stack are exactly the open ones, the one that begins last on
top (`Nests`). So an end tag closes its partner, and it has none exactly if as many tags of its name
have been closed as were opened: `Nests.pairs_of_innermost`, `Nests.innermost?_eq_none_iff`.
-/

namespace BranchingDialogue

/-! ## Brackets -/

/-- What a tag does as a bracket. -/
def Boundary.bracket? : Boundary → Option DyckStep
  | .start => some .U
  | .stop => some .D
  | .marker => none

namespace Token

/-- What a token does as a bracket among the tags of a name. -/
def bracket? (name : String) : Token → Option DyckStep
  | .tag t => if sameName t.name name then t.boundary.bracket? else none
  | .openQuote _ _ => none
  | .char _ => none

variable {name name' : String} {t : Token}

theorem bracket?_congr (h : sameName name name') : bracket? name = bracket? name' := by
  funext t
  cases t with
  | tag t => rw [bracket?, bracket?, sameName_congr h]
  | openQuote _ _ => rfl
  | char _ => rfl

theorem exists_of_bracket? {step : DyckStep} (h : bracket? name t = some step) :
    ∃ u, t = .tag u ∧ sameName u.name name ∧ u.boundary.bracket? = some step := by
  cases t with
  | tag u =>
    rw [bracket?] at h
    split at h
    · next hname => exact ⟨u, rfl, hname, h⟩
    · cases h
  | openQuote _ _ => cases h
  | char _ => cases h

theorem bracket?_start {o : Tag} (h : o.boundary = .start) (hname : sameName o.name name) :
    bracket? name (.tag o) = some .U := by
  rw [bracket?, if_pos hname, h]
  rfl

theorem bracket?_stop {c : Tag} (h : c.boundary = .stop) (hname : sameName c.name name) :
    bracket? name (.tag c) = some .D := by
  rw [bracket?, if_pos hname, h]
  rfl

theorem bracket?_of_other {u : Tag} (hname : ¬sameName u.name name) : bracket? name (.tag u) = none :=
  if_neg hname

theorem exists_start_of_bracket? (h : bracket? name t = some .U) :
    ∃ o, t = .tag o ∧ sameName o.name name ∧ o.boundary = .start := by
  obtain ⟨o, rfl, hname, hstep⟩ := exists_of_bracket? h
  refine ⟨o, rfl, hname, ?_⟩
  cases hboundary : o.boundary <;> simp_all [Boundary.bracket?]

theorem exists_stop_of_bracket? (h : bracket? name t = some .D) :
    ∃ c, t = .tag c ∧ sameName c.name name ∧ c.boundary = .stop := by
  obtain ⟨c, rfl, hname, hstep⟩ := exists_of_bracket? h
  refine ⟨c, rfl, hname, ?_⟩
  cases hboundary : c.boundary <;> simp_all [Boundary.bracket?]

/-- If more is opened than closed under a name, a start tag of it is still open. -/
theorem exists_open_start {ts : List Token} (h : 0 < height (bracket? name) ts) :
    ∃ outer o inner, ts = outer ++ .tag o :: inner ∧ sameName o.name name ∧ o.boundary = .start
      ∧ Upright (bracket? o.name) inner := by
  obtain ⟨outer, t, inner, hsplit, hstep, hupright, -⟩ := exists_open (Int.le_refl 0) h
  obtain ⟨o, rfl, hname, hstart⟩ := exists_start_of_bracket? hstep
  exact ⟨outer, o, inner, hsplit, hname, hstart, by rwa [bracket?_congr hname]⟩

end Token

/-- A start tag and an end tag are partners over what stands between them. -/
structure Pairs (o : Tag) (inner : List Token) (c : Tag) : Prop where
  opens : o.boundary = .start
  closes : c.boundary = .stop
  name : sameName o.name c.name
  between : Balanced (Token.bracket? c.name) inner

/-! ## Places in the list of tags -/

namespace Piece

variable {r : TagRegistry} {p : Piece}

theorem listed_prefix (ps qs : List Piece) : listed r ps <+: listed r (ps ++ qs) := by
  induction qs using List.reverseRecOn with
  | nil => rw [List.append_nil]
  | append_singleton qs q ih =>
    rw [← List.append_assoc, listed_concat]
    exact ih.trans (List.prefix_append _ _)

theorem listed_prefix_of_listed? {o : TagDefinition × Tag} (h : p.listed? r = some o)
    (ps qs : List Piece) :
    listed r ps ++ [(o, (shown r ps).length)] <+: listed r (ps ++ p :: qs) := by
  have hprefix := listed_prefix (r := r) (ps ++ [p]) qs
  rw [listed_concat, h, List.append_assoc, List.singleton_append] at hprefix
  exact hprefix

/-- A tag is listed behind those that are listed before it. -/
theorem getElem?_listed {o : TagDefinition × Tag} (h : p.listed? r = some o)
    (ps qs : List Piece) :
    (listed r (ps ++ p :: qs))[(listed r ps).length]? = some (o, (shown r ps).length) := by
  obtain ⟨more, hmore⟩ := listed_prefix_of_listed? h ps qs
  rw [← hmore]
  simp

end Piece

namespace Token

variable {r : TagRegistry}

/-- How many characters are shown of some tokens. -/
def shownCount (r : TagRegistry) (ts : List Token) : Nat := (Piece.shown r (ts.map piece)).length

/-- How many tags are listed of some tokens. -/
def listedCount (r : TagRegistry) (ts : List Token) : Nat := (Piece.listed r (ts.map piece)).length

/-- The token is a tag of the library's own that is listed. -/
def IsListed (r : TagRegistry) (t : Token) : Prop :=
  ∃ o d, t = .tag o ∧ r.custom? o.name = some d ∧ o.boundary ≠ .stop

theorem listed?_piece {o : Tag} {d : TagDefinition} (known : r.custom? o.name = some d)
    (hstop : o.boundary ≠ .stop) : (Token.tag o).piece.listed? r = some (d, o) := by
  simp [Piece.listed?, Stripping.custom?_piece known, hstop]

theorem listedCount_lt {t : Token} (h : t.IsListed r) (before after : List Token) :
    listedCount r before < listedCount r (before ++ t :: after) := by
  obtain ⟨o, d, rfl, known, hstop⟩ := h
  have hlen := (Piece.listed_prefix_of_listed? (listed?_piece known hstop) (before.map piece)
    (after.map piece)).length_le
  rw [List.length_append, List.length_singleton] at hlen
  rw [listedCount, listedCount, List.map_append, List.map_cons]
  omega

/-- Where a tag is listed says where it stands. -/
theorem eq_of_listedCount {t t' : Token} {before before' after after' : List Token}
    (ht : t.IsListed r) (ht' : t'.IsListed r)
    (hsplit : before ++ t :: after = before' ++ t' :: after')
    (h : listedCount r before = listedCount r before') : before = before' := by
  rcases List.append_eq_append_iff.1 hsplit with ⟨more, rfl, hrest⟩ | ⟨more, rfl, hrest⟩
  · cases more with
    | nil => simp
    | cons u more =>
      rw [List.cons_append, List.cons.injEq] at hrest
      obtain ⟨rfl, -⟩ := hrest
      have hlt := listedCount_lt ht before more
      omega
  · cases more with
    | nil => simp
    | cons u more =>
      rw [List.cons_append, List.cons.injEq] at hrest
      obtain ⟨rfl, -⟩ := hrest
      have hlt := listedCount_lt ht' before' more
      omega

end Token

/-! ## Open tags -/

variable {r : TagRegistry} {ts : List Token} {t : Token} {i : Nat}

/-- A start tag is the one with a number in the list of tags, and has no partner. -/
structure Opens (r : TagRegistry) (ts : List Token) (i : Nat) (outer : List Token) (o : Tag)
    (inner : List Token) : Prop where
  split : ts = outer ++ .tag o :: inner
  known : ∃ d, r.custom? o.name = some d
  boundary : o.boundary = .start
  upright : Upright (Token.bracket? o.name) inner
  index : Token.listedCount r outer = i

/-- Among some tokens the tag with a number in the list of tags is open. -/
def IsOpen (r : TagRegistry) (ts : List Token) (i : Nat) : Prop :=
  ∃ outer o inner, Opens r ts i outer o inner

namespace Opens

variable {outer inner outer' inner' : List Token} {o o' c : Tag}

theorem isListed (h : Opens r ts i outer o inner) : (Token.tag o).IsListed r := by
  obtain ⟨d, hd⟩ := h.known
  exact ⟨o, d, rfl, hd, by rw [h.boundary]; nofun⟩

theorem concat (h : Opens r ts i outer o inner)
    (ht : 0 ≤ height (Token.bracket? o.name) (inner ++ [t])) :
    Opens r (ts ++ [t]) i outer o (inner ++ [t]) where
  split := by rw [h.split, List.append_assoc, List.cons_append]
  known := h.known
  boundary := h.boundary
  upright := upright_concat_iff.2 ⟨h.upright, ht⟩
  index := h.index

/-- Only one tag has a number. -/
theorem eq (h : Opens r ts i outer o inner) (h' : Opens r ts i outer' o' inner') :
    outer = outer' ∧ o = o' ∧ inner = inner' := by
  have hsplit := h.split.symm.trans h'.split
  obtain rfl := Token.eq_of_listedCount h.isListed h'.isListed hsplit (h.index.trans h'.index.symm)
  have hrest := List.append_cancel_left hsplit
  cases hrest
  exact ⟨rfl, rfl, rfl⟩

end Opens

/-- After one more token a tag is open if it is that token, or was open and is not closed by it. -/
theorem isOpen_concat_iff :
    IsOpen r (ts ++ [t]) i
      ↔ (∃ o d, t = .tag o ∧ r.custom? o.name = some d ∧ o.boundary = .start
          ∧ i = Token.listedCount r ts)
        ∨ ∃ outer o inner, Opens r ts i outer o inner
          ∧ 0 ≤ height (Token.bracket? o.name) (inner ++ [t]) := by
  constructor
  · rintro ⟨outer, o, inner, hopens⟩
    have hsplit := hopens.split
    cases inner using List.reverseRecOn with
    | nil =>
      obtain ⟨rfl, hlast⟩ := List.append_inj' hsplit rfl
      cases hlast
      obtain ⟨d, hd⟩ := hopens.known
      exact .inl ⟨o, d, rfl, hd, hopens.boundary, hopens.index.symm⟩
    | append_singleton inner u =>
      rw [← List.cons_append, ← List.append_assoc] at hsplit
      obtain ⟨rfl, hlast⟩ := List.append_inj' hsplit rfl
      cases hlast
      obtain ⟨hupright, hheight⟩ := upright_concat_iff.1 hopens.upright
      exact .inr ⟨outer, o, inner, ⟨rfl, hopens.known, hopens.boundary, hupright, hopens.index⟩,
        hheight⟩
  · rintro (⟨o, d, rfl, known, boundary, rfl⟩ | ⟨outer, o, inner, hopens, hheight⟩)
    · exact ⟨ts, o, [], rfl, ⟨d, known⟩, boundary, upright_nil, rfl⟩
    · exact ⟨outer, o, inner ++ [t], hopens.concat hheight⟩

/-- A token is no end tag of the library's own. -/
def Token.ClosesNothing (r : TagRegistry) (t : Token) : Prop :=
  ∀ c d, t = .tag c → r.custom? c.name = some d → c.boundary ≠ .stop

theorem Token.ClosesNothing.height_nonneg (h : t.ClosesNothing r) {name : String}
    (known : ∃ d, r.custom? name = some d) : 0 ≤ height (Token.bracket? name) [t] := by
  obtain ⟨d, hd⟩ := known
  cases hstep : Token.bracket? name t with
  | none => rw [height_of_none hstep]
  | some step =>
    cases step with
    | U =>
      rw [height_of_opening hstep]
      omega
    | D =>
      obtain ⟨c, rfl, hname, hstop⟩ := Token.exists_stop_of_bracket? hstep
      exact absurd hstop (h c d rfl (by rw [TagRegistry.custom?_congr hname, hd]))

theorem isOpen_concat_of_closesNothing (h : t.ClosesNothing r) :
    IsOpen r (ts ++ [t]) i
      ↔ (∃ o d, t = .tag o ∧ r.custom? o.name = some d ∧ o.boundary = .start
          ∧ i = Token.listedCount r ts)
        ∨ IsOpen r ts i := by
  rw [isOpen_concat_iff]
  refine or_congr_right ⟨fun ⟨outer, o, inner, hopens, _⟩ => ⟨outer, o, inner, hopens⟩, ?_⟩
  rintro ⟨outer, o, inner, hopens⟩
  refine ⟨outer, o, inner, hopens, ?_⟩
  have hinner := hopens.upright.nonneg
  have hlast := h.height_nonneg hopens.known
  rw [height_append]
  omega

/-- An end tag closes its partner and leaves everything else open. -/
theorem isOpen_concat_of_pairs {outer inner : List Token} {o c : Tag} {j : Nat}
    (hopens : Opens r ts i outer o inner) (hpairs : Pairs o inner c) :
    IsOpen r (ts ++ [.tag c]) j ↔ IsOpen r ts j ∧ j ≠ i := by
  have hsame := Token.bracket?_congr hpairs.name
  rw [isOpen_concat_iff]
  constructor
  · rintro (⟨o', d, heq, -, hstart, -⟩ | ⟨outer', o', inner', hopens', hheight⟩)
    · cases heq
      exact absurd (hstart.symm.trans hpairs.closes) (by decide)
    · refine ⟨⟨outer', o', inner', hopens'⟩, ?_⟩
      rintro rfl
      -- After its partner nothing is left of the tag itself.
      obtain ⟨rfl, rfl, rfl⟩ := hopens.eq hopens'
      rw [hsame, height_append, (balanced_iff.1 hpairs.between).2,
        height_of_closing (Token.bracket?_stop hpairs.closes (sameName_refl _))] at hheight
      omega
  · rintro ⟨⟨outer', o', inner', hopens'⟩, hne⟩
    refine .inr ⟨outer', o', inner', hopens', ?_⟩
    have hinner := hopens'.upright.nonneg
    rw [height_append]
    by_cases hname : sameName c.name o'.name
    · -- A tag of the same name that is still open begins before the partner, which then is open.
      have hsame' := Token.bracket?_congr hname
      rw [height_of_closing (Token.bracket?_stop hpairs.closes hname)]
      have hupright := hopens'.upright
      rw [← hsame'] at hupright
      rcases eq_or_height_pos hpairs.between hupright
        (Token.bracket?_start hopens.boundary hpairs.name)
        (Token.bracket?_start hopens'.boundary (sameName_symm hname))
        (hopens.split.symm.trans hopens'.split) with rfl | hpos
      · exact absurd (hopens'.index.symm.trans hopens.index) hne
      · rw [← hsame']
        omega
    · rw [height_of_none (Token.bracket?_of_other hname)]
      omega

/-! ## The stack -/

namespace Stripping

variable {s s' : Stripping}

/-- A text being stripped has the open tags on its stack, the one that begins last on top. -/
structure Nests (r : TagRegistry) (ts : List Token) (s : Stripping) : Prop where
  follows : s.Follows r (ts.map Token.piece)
  unclosed : ∀ i, i ∈ s.unclosed ↔ IsOpen r ts i
  decreasing : s.unclosed.Pairwise (· > ·)
  upright : ∀ name d, r.custom? name = some d → Upright (Token.bracket? name) ts

theorem nests_start (r : TagRegistry) : start.Nests r [] where
  follows := follows_start r
  unclosed := by
    intro i
    refine ⟨fun h => absurd h List.not_mem_nil, ?_⟩
    rintro ⟨outer, o, inner, hopens⟩
    cases outer <;> cases hopens.split
  decreasing := .nil
  upright := fun _ _ _ => upright_nil

/-- The tag that is found on the stack is the last one of its name there. -/
theorem le_of_innermost {name : String} {i j : Nat} (hdecreasing : s.unclosed.Pairwise (· > ·))
    (hfound : s.innermost? name = some i) (hj : j ∈ s.unclosed)
    (hname : (s.tags[j]?.map (·.name)) = some name) : j ≤ i := by
  obtain ⟨-, above, below, hstack, habove⟩ := List.find?_eq_some_iff_append.1 hfound
  rw [hstack] at hj hdecreasing
  obtain ⟨-, hbelow, -⟩ := List.pairwise_append.1 hdecreasing
  rcases List.mem_append.1 hj with hj | hj
  · have hfree := habove j hj
    rw [decide_eq_true hname] at hfree
    exact absurd hfree (by decide)
  · rcases List.mem_cons.1 hj with rfl | hj
    · exact Nat.le_refl _
    · exact Nat.le_of_lt ((List.pairwise_cons.1 hbelow).1 j hj)

theorem mem_of_innermost {name : String} {i : Nat} (h : s.innermost? name = some i) :
    i ∈ s.unclosed ∧ (s.tags[i]?.map (·.name)) = some name := by
  obtain ⟨hname, above, below, hstack, -⟩ := List.find?_eq_some_iff_append.1 h
  exact ⟨by rw [hstack]; simp, of_decide_eq_true hname⟩

namespace Nests

variable {outer inner : List Token} {o c : Tag} {d : TagDefinition}

theorem nodup (h : s.Nests r ts) : s.unclosed.Nodup :=
  h.decreasing.imp fun hlt => Nat.ne_of_gt hlt

theorem count_eq (h : s.Nests r ts) : s.count = Token.shownCount r ts := h.follows.count

theorem size_eq (h : s.Nests r ts) : s.tags.size = Token.listedCount r ts := by
  rw [← Array.length_toList, ← h.follows.tags.length_eq, Token.listedCount]

/-- A tag that is listed is placed with its name where it stands. -/
theorem exists_placed (h : s.Nests r ts) {after : List Token} (hsplit : ts = outer ++ .tag o :: after)
    (known : r.custom? o.name = some d) (hstop : o.boundary ≠ .stop) :
    ∃ p, s.tags[Token.listedCount r outer]? = some p
      ∧ PlacedTag.IsOf ((d, o), Token.shownCount r outer) p := by
  have hlisted := Piece.getElem?_listed (Token.listed?_piece known hstop) (outer.map Token.piece)
    (after.map Token.piece)
  have htags := h.follows.tags
  rw [hsplit, List.map_append, List.map_cons] at htags
  obtain ⟨p, hp, hof⟩ := exists_right_of_forall₂ htags hlisted
  exact ⟨p, by rwa [Array.getElem?_toList] at hp, hof⟩

/-- An open tag is found under the names that are its own. -/
theorem name_eq_iff (h : s.Nests r ts) (hopens : Opens r ts i outer o inner)
    (known : r.custom? c.name = some d) :
    (s.tags[i]?.map (·.name)) = some d.name ↔ sameName o.name c.name := by
  obtain ⟨d', hd'⟩ := hopens.known
  obtain ⟨p, hp, hof⟩ := h.exists_placed hopens.split hd' (by rw [hopens.boundary]; nofun)
  rw [hopens.index] at hp
  rw [hp, Option.map_some, hof.name, Option.some.injEq, TagRegistry.sameName_iff_of_custom? hd' known]

/-- If something is open under a name, there is a tag of that name on the stack. -/
theorem exists_innermost (h : s.Nests r ts) (known : r.custom? c.name = some d)
    (hpos : 0 < height (Token.bracket? c.name) ts) : s.innermost? d.name ≠ none := by
  obtain ⟨outer, o, inner, hsplit, hname, hstart, hupright⟩ := Token.exists_open_start hpos
  have hopens : Opens r ts (Token.listedCount r outer) outer o inner :=
    ⟨hsplit, ⟨d, by rw [TagRegistry.custom?_congr hname, known]⟩, hstart, hupright, rfl⟩
  intro hnone
  have hall := List.find?_eq_none.1 hnone _ ((h.unclosed _).2 ⟨outer, o, inner, hopens⟩)
  exact hall (decide_eq_true ((h.name_eq_iff hopens known).2 hname))

/-- **The tag on the stack that an end tag closes is its partner.** -/
theorem pairs_of_innermost (h : s.Nests r ts) (known : r.custom? c.name = some d)
    (hstop : c.boundary = .stop) (hfound : s.innermost? d.name = some i) :
    ∃ outer o inner, Opens r ts i outer o inner ∧ Pairs o inner c := by
  obtain ⟨hi, hname⟩ := mem_of_innermost hfound
  obtain ⟨outer, o, inner, hopens⟩ := (h.unclosed i).1 hi
  have hsame := (h.name_eq_iff hopens known).1 hname
  refine ⟨outer, o, inner, hopens, hopens.boundary, hstop, hsame, ?_⟩
  have hupright := hopens.upright
  rw [Token.bracket?_congr hsame] at hupright
  refine balanced_iff.2 ⟨hupright, ?_⟩
  by_contra hne
  -- Otherwise a later tag of the name is open, and it would be found first.
  have hpos : 0 < height (Token.bracket? c.name) inner := by
    have hnonneg := hupright.nonneg
    omega
  obtain ⟨outer', o', inner', hsplit, hname', hstart', hupright'⟩ := Token.exists_open_start hpos
  have hsplit' : ts = (outer ++ .tag o :: outer') ++ .tag o' :: inner' := by
    rw [hopens.split, hsplit, List.append_assoc, List.cons_append]
  have hopens' : Opens r ts (Token.listedCount r (outer ++ .tag o :: outer')) _ o' inner' :=
    ⟨hsplit', ⟨d, by rw [TagRegistry.custom?_congr hname', known]⟩, hstart', hupright', rfl⟩
  have hlater := Token.listedCount_lt hopens.isListed outer outer'
  rw [hopens.index] at hlater
  have hle := le_of_innermost h.decreasing hfound ((h.unclosed _).2 ⟨_, o', inner', hopens'⟩)
    ((h.name_eq_iff hopens' known).2 hname')
  omega

/-- **An end tag has no partner exactly if nothing is open under its name.** -/
theorem innermost?_eq_none_iff (h : s.Nests r ts) (known : r.custom? c.name = some d)
    (hstop : c.boundary = .stop) :
    s.innermost? d.name = none ↔ height (Token.bracket? c.name) (ts ++ [.tag c]) < 0 := by
  rw [height_append, height_of_closing (Token.bracket?_stop hstop (sameName_refl _))]
  have hnonneg := (h.upright _ d known).nonneg
  constructor
  · intro hnone
    by_contra hle
    exact h.exists_innermost known (by omega) hnone
  · intro hneg
    by_contra hne
    obtain ⟨i, hi⟩ := Option.ne_none_iff_exists'.1 hne
    obtain ⟨outer, o, inner, hopens, hpairs⟩ := h.pairs_of_innermost known hstop hi
    have houter := h.upright _ d known outer _ hopens.split
    rw [hopens.split, height_append, height_cons,
      height_of_opening (Token.bracket?_start hpairs.opens hpairs.name),
      (balanced_iff.1 hpairs.between).2] at hneg
    omega

/-! ## One step -/

theorem upright_concat (h : s.Nests r ts) (hnothing : t.ClosesNothing r) (name : String)
    (d : TagDefinition) (known : r.custom? name = some d) :
    Upright (Token.bracket? name) (ts ++ [t]) := by
  have hupright := h.upright name d known
  have hlast := hnothing.height_nonneg ⟨d, known⟩
  have hnonneg := hupright.nonneg
  exact upright_concat_iff.2 ⟨hupright, by rw [height_append]; omega⟩

/-- A token that is neither a start tag nor an end tag leaves the stack as it is. -/
theorem keep (h : s.Nests r ts) (hfollows : s'.Follows r ((ts ++ [t]).map Token.piece))
    (hnothing : t.ClosesNothing r)
    (hstart : ∀ o d, t = .tag o → r.custom? o.name = some d → o.boundary ≠ .start)
    (hstack : s'.unclosed = s.unclosed) : s'.Nests r (ts ++ [t]) where
  follows := hfollows
  unclosed := by
    intro i
    rw [hstack, h.unclosed i, isOpen_concat_of_closesNothing hnothing]
    refine ⟨.inr, ?_⟩
    rintro (⟨o, d, rfl, known, boundary, -⟩ | hopen)
    · exact absurd boundary (hstart o d rfl known)
    · exact hopen
  decreasing := hstack ▸ h.decreasing
  upright := h.upright_concat hnothing

/-- A start tag is put on the stack. -/
theorem push (h : s.Nests r ts) (hfollows : s'.Follows r ((ts ++ [Token.tag o]).map Token.piece))
    (known : r.custom? o.name = some d) (boundary : o.boundary = .start)
    (hstack : s'.unclosed = s.tags.size :: s.unclosed) : s'.Nests r (ts ++ [.tag o]) := by
  have hnothing : (Token.tag o).ClosesNothing r := by
    rintro c d' heq -
    cases heq
    rw [boundary]
    nofun
  exact
    { follows := hfollows
      unclosed := by
        intro i
        rw [hstack, List.mem_cons, h.unclosed i, h.size_eq, isOpen_concat_of_closesNothing hnothing]
        refine or_congr_left ⟨fun hi => ⟨o, d, rfl, known, boundary, hi⟩, ?_⟩
        rintro ⟨_, _, -, -, -, hi⟩
        exact hi
      decreasing := by
        rw [hstack]
        refine List.pairwise_cons.2 ⟨fun i hi => ?_, h.decreasing⟩
        obtain ⟨p, hp, -⟩ := h.follows.unclosed i hi
        exact (Array.getElem?_eq_some_iff.1 hp).1
      upright := h.upright_concat hnothing }

/-- An end tag takes its partner off the stack. -/
theorem pop (h : s.Nests r ts) (hfollows : s'.Follows r ((ts ++ [Token.tag c]).map Token.piece))
    (known : r.custom? c.name = some d) (hstop : c.boundary = .stop)
    (hfound : s.innermost? d.name = some i) (hstack : s'.unclosed = s.unclosed.erase i) :
    s'.Nests r (ts ++ [.tag c]) := by
  obtain ⟨outer, o, inner, hopens, hpairs⟩ := h.pairs_of_innermost known hstop hfound
  exact
    { follows := hfollows
      unclosed := by
        intro j
        rw [hstack, h.nodup.mem_erase_iff, h.unclosed j, isOpen_concat_of_pairs hopens hpairs]
        exact and_comm
      decreasing := by
        rw [hstack]
        exact h.decreasing.sublist List.erase_sublist
      upright := by
        intro name d' known'
        have hupright := h.upright name d' known'
        refine upright_concat_iff.2 ⟨hupright, ?_⟩
        rw [height_append]
        by_cases hname : sameName c.name name
        · -- The partner is open in front of the end tag.
          have houter := hupright outer _ hopens.split
          have hbetween := (balanced_iff.1 hpairs.between).2
          rw [Token.bracket?_congr hname] at hbetween
          rw [hopens.split, height_append, height_cons, hbetween,
            height_of_opening (Token.bracket?_start hpairs.opens (sameName_trans hpairs.name hname)),
            height_of_closing (Token.bracket?_stop hstop hname)]
          omega
        · have hnonneg := hupright.nonneg
          rw [height_of_none (Token.bracket?_of_other hname)]
          omega }

/-- **A step keeps the open tags on the stack.** -/
theorem strips (h : s.Nests r ts) (hstrips : Strips r s t s') : s'.Nests r (ts ++ [t]) := by
  have hfollows : s'.Follows r ((ts ++ [t]).map Token.piece) := by
    rw [List.map_append]
    exact h.follows.strips hstrips
  cases hstrips with
  | @foreign v unknown =>
    have hforeign : ∀ {u d}, Token.tag v = .tag u → r.custom? u.name = some d → False := by
      rintro u d ⟨⟩ known
      rw [unknown] at known
      cases known
    exact h.keep hfollows (fun c d heq known => (hforeign heq known).elim)
      (fun o d heq known => (hforeign heq known).elim) rfl
  | quote unknown => exact h.keep hfollows nofun nofun rfl
  | char c => exact h.keep hfollows nofun nofun rfl
  | @marks v _ _ known boundary =>
    have hmarker : ∀ {u : Tag}, Token.tag v = .tag u → u.boundary = .marker := by
      rintro u ⟨⟩
      exact boundary
    exact h.keep hfollows (fun c d heq _ => by rw [hmarker heq]; nofun)
      (fun o d heq _ => by rw [hmarker heq]; nofun) rfl
  | opens known boundary => exact h.push hfollows known boundary rfl
  | closes known boundary shape innermost => exact h.pop hfollows known boundary innermost rfl

theorem tokens {us : List Token} (h : s.Nests r ts) (htokens : s.tokens r us = .ok s') :
    s'.Nests r (ts ++ us) := by
  induction us generalizing s ts with
  | nil =>
    cases htokens
    rwa [List.append_nil]
  | cons u us ih =>
    obtain ⟨s₁, hstrips, hrest⟩ := tokens_cons_eq_ok_iff.1 htokens
    have hstep := ih (h.strips hstrips) hrest
    rwa [List.append_assoc] at hstep

end Nests

/-- What has been stripped of a text nests. -/
theorem nests_of_tokens (h : start.tokens r ts = .ok s) : s.Nests r ts :=
  (nests_start r).tokens h

end Stripping

end BranchingDialogue
