import BranchingDialogue.Proofs.Loops
import BranchingDialogue.Proofs.Markup.Cut
import BranchingDialogue.Markup.Attribute

/-!
# The grammar of attributes

`Attribute.ReadsAs` says which attributes the body of a tag has. A value stands in quotes or reaches to
the next blank, and it is never empty; a name is one of the same letters as a tag's. A body that has no
attributes in this sense is misread at a place: a quote there has no partner, what stands there is no
name, or a value is missing (`Attribute.Misread`).

Main results: `Tag.attributes_eq_ok_iff`, `Tag.misread_of_attributes`.
-/

namespace BranchingDialogue

namespace Attribute

/-! ## The grammar -/

/-- Characters begin with a value and go on with others. -/
inductive ValueFirst : (cs value rest : List Char) → Prop
  | quoted {q : Char} {value rest : List Char} (quote : isQuote q) (inside : q ∉ value)
      (nonempty : value ≠ []) : ValueFirst (q :: value ++ q :: rest) value rest
  | bare {value rest : List Char} (noQuote : ∀ c ∈ value.head?, ¬isQuote c)
      (noBlank : ∀ c ∈ value, ¬isBlank c) (ends : ∀ c ∈ rest.head?, isBlank c)
      (nonempty : value ≠ []) : ValueFirst (value ++ rest) value rest

/-- Characters are read as attributes with names. -/
inductive NamedReadAs : List Char → List Attribute → Prop
  | done {blanks : List Char} (blank : ∀ c ∈ blanks, isBlank c) : NamedReadAs blanks []
  | named {blanks name cs value rest : List Char} {as : List Attribute}
      (blank : ∀ c ∈ blanks, isBlank c) (isName : IsTagName name)
      (first : ValueFirst cs value rest) (after : NamedReadAs rest as) :
      NamedReadAs (blanks ++ (name ++ '=' :: cs))
        (⟨some (String.ofList name), String.ofList value⟩ :: as)

/-- The body of a tag is read as attributes, of which the tag's own value comes first. -/
inductive ReadsAs : List Char → List Attribute → Prop
  | own {cs value rest : List Char} {as : List Attribute} (first : ValueFirst cs value rest)
      (after : NamedReadAs rest as) : ReadsAs ('=' :: cs) (⟨none, String.ofList value⟩ :: as)
  | named {body : List Char} {as : List Attribute} (noOwn : ∀ c ∈ body.head?, c ≠ '=')
      (all : NamedReadAs body as) : ReadsAs body as

/-- What is wrong with some characters that begin at a byte position. -/
inductive Misread (tag : String) (position : Nat) : List Char → MarkupError → Prop
  | quote {before rest : List Char} {q : Char} (quote : isQuote q) (unclosed : q ∉ rest) :
      Misread tag position (before ++ q :: rest)
        (.unterminatedQuote tag (position + utf8Length before))
  | name {before name rest : List Char} (part : ∀ c ∈ name, c ≠ '=' ∧ ¬isBlank c)
      (ends : ∀ c ∈ rest.head?, c = '=' ∨ isBlank c) (noName : ¬IsTagName name) :
      Misread tag position (before ++ (name ++ rest))
        (.invalidAttributeName tag (String.ofList name) (position + utf8Length before))
  | value {before rest : List Char} (missing : ¬∃ value after, ValueFirst rest value after) :
      Misread tag position (before ++ rest)
        (.emptyAttributeValue tag (position + utf8Length before))

variable {tag : String} {name? : Option String} {position : Nat} {e : MarkupError}

/-- What is wrong with the end of some characters is wrong with all of them. -/
theorem Misread.append {front cs : List Char} (h : Misread tag (position + utf8Length front) cs e) :
    Misread tag position (front ++ cs) e := by
  cases h with
  | quote quote unclosed =>
    rw [← List.append_assoc, Nat.add_assoc, ← utf8Length_append]
    exact .quote quote unclosed
  | name part ends noName =>
    rw [← List.append_assoc, Nat.add_assoc, ← utf8Length_append]
    exact .name part ends noName
  | value missing =>
    rw [← List.append_assoc, Nat.add_assoc, ← utf8Length_append]
    exact .value missing

/-- What is misread is never taken for an end tag. -/
theorem Misread.ne_unmatchedEnd {cs : List Char} (h : Misread tag position cs e) (name : String)
    (offset : Nat) : e ≠ .unmatchedEnd name offset := by
  cases h <;> nofun

/-! ## Values -/

/-- In quotes a value is read if it is not empty. -/
theorem readValue_quoted {q : Char} {value : List Char} (quote : isQuote q) (inside : q ∉ value)
    (rest : List Char) :
    readValue tag name? position (q :: value ++ q :: rest)
      = if value = [] then .error (.emptyAttributeValue tag position)
        else .ok (⟨name?, String.ofList value⟩, position + utf8Length value + 2, rest) := by
  have hinside : ∀ c ∈ value, (c != q) = true := by
    intro c hc
    rw [bne_iff_ne]
    rintro rfl
    exact inside hc
  have hends : ∀ c ∈ (q :: rest).head?, ¬(c != q) = true := by
    rintro c ⟨⟩
    simp
  have hread := takeWhile_run hinside hends
  have hleft := dropWhile_run hinside hends
  unfold readValue
  simp only [List.cons_append, quote, if_true, hread, hleft, List.isEmpty_iff]

/-- A quote without a partner is an error. -/
theorem readValue_unclosed {q : Char} {rest : List Char} (quote : isQuote q) (unclosed : q ∉ rest) :
    readValue tag name? position (q :: rest) = .error (.unterminatedQuote tag position) := by
  have hleft : rest.dropWhile (· != q) = [] := by
    rw [List.dropWhile_eq_nil_iff]
    intro c hc
    rw [bne_iff_ne]
    rintro rfl
    exact unclosed hc
  unfold readValue
  simp only [quote, if_true, hleft]

/-- Without quotes a value is what stands in front of the next blank. -/
theorem readValue_bare {value rest : List Char} (noQuote : ∀ c ∈ (value ++ rest).head?, ¬isQuote c)
    (noBlank : ∀ c ∈ value, ¬isBlank c) (ends : ∀ c ∈ rest.head?, isBlank c) :
    readValue tag name? position (value ++ rest)
      = if value = [] then .error (.emptyAttributeValue tag position)
        else .ok (⟨name?, String.ofList value⟩, position + utf8Length value, rest) := by
  have hplain : ∀ c ∈ value, (!isBlank c) = true := by simpa using noBlank
  have hstop : ∀ c ∈ rest.head?, ¬(!isBlank c) = true := by simpa using ends
  have hread := takeWhile_run hplain hstop
  have hleft := dropWhile_run hplain hstop
  unfold readValue
  simp only [hread, hleft, List.isEmpty_iff]
  cases hcs : value ++ rest with
  | nil => rfl
  | cons c cs =>
    rw [hcs] at noQuote
    simp only [if_neg (noQuote c rfl)]

theorem ValueFirst.length_le {cs value rest : List Char} (h : ValueFirst cs value rest) :
    rest.length ≤ cs.length := by
  cases h with
  | quoted => simp only [List.length_cons, List.length_append]; omega
  | bare => simp only [List.length_append]; omega

theorem readValue_of_valueFirst {cs value rest : List Char} (h : ValueFirst cs value rest)
    (tag : String) (name? : Option String) (position : Nat) :
    ∃ next, readValue tag name? position cs = .ok (⟨name?, String.ofList value⟩, next, rest) := by
  cases h with
  | quoted quote inside nonempty =>
    exact ⟨_, by rw [readValue_quoted quote inside, if_neg nonempty]⟩
  | bare noQuote noBlank ends nonempty =>
    have hhead : ∀ c ∈ (value ++ rest).head?, ¬isQuote c := by
      rwa [List.head?_append_of_ne_nil _ nonempty]
    exact ⟨_, by rw [readValue_bare hhead noBlank ends, if_neg nonempty]⟩

theorem not_valueFirst_of_error {cs : List Char} (h : readValue tag name? position cs = .error e) :
    ¬∃ value rest, ValueFirst cs value rest := by
  rintro ⟨value, rest, hfirst⟩
  obtain ⟨next, hread⟩ := readValue_of_valueFirst hfirst tag name? position
  rw [hread] at h
  cases h

/-- No value begins with a blank. -/
theorem not_valueFirst_of_blank {cs : List Char} (h : ∀ c ∈ cs.head?, isBlank c) :
    ¬∃ value rest, ValueFirst cs value rest := by
  rintro ⟨value, rest, hfirst⟩
  cases hfirst with
  | @quoted q _ _ quote =>
    have hblank : isBlank q := h q rfl
    simp only [isQuote, Bool.or_eq_true, beq_iff_eq] at quote
    rcases quote with rfl | rfl <;> exact absurd hblank (by decide)
  | bare noQuote noBlank ends nonempty =>
    rw [List.head?_append_of_ne_nil _ nonempty] at h
    obtain ⟨c, hc⟩ := Option.ne_none_iff_exists'.1 (mt List.head?_eq_none_iff.1 nonempty)
    exact noBlank c (List.mem_of_mem_head? hc) (h c hc)

/-- A value is read, or the characters are misread. -/
theorem readValue_cases (tag : String) (name? : Option String) (position : Nat) (cs : List Char) :
    (∃ front value rest, cs = front ++ rest ∧ ValueFirst cs value rest
        ∧ readValue tag name? position cs
          = .ok (⟨name?, String.ofList value⟩, position + utf8Length front, rest))
      ∨ ∃ e, readValue tag name? position cs = .error e ∧ Misread tag position cs e := by
  have hempty (hread : readValue tag name? position cs = .error (.emptyAttributeValue tag position)) :
      Misread tag position ([] ++ cs) (.emptyAttributeValue tag (position + utf8Length [])) :=
    .value (not_valueFirst_of_error hread)
  by_cases hquoted : ∃ q inner, isQuote q ∧ cs = q :: inner
  · obtain ⟨q, inner, hq, rfl⟩ := hquoted
    by_cases hclosed : q ∈ inner
    · obtain ⟨value, rest, rfl, hinside⟩ := List.eq_append_cons_of_mem hclosed
      have hread : readValue tag name? position (q :: value ++ q :: rest) = _ :=
        readValue_quoted hq hinside rest
      split at hread
      · exact .inr ⟨_, hread, hempty hread⟩
      · next hvalue =>
        have hone : q.utf8Size = 1 := by
          simp only [isQuote, Bool.or_eq_true, beq_iff_eq] at hq
          rcases hq with rfl | rfl <;> rfl
        refine .inl ⟨q :: value ++ [q], value, rest, by simp, .quoted hq hinside hvalue, ?_⟩
        rw [List.cons_append] at hread
        rw [hread]
        simp only [utf8Length_append, utf8Length_cons, utf8Length_nil, hone]
        congr 3
        omega
    · have hmisread : Misread tag position ([] ++ q :: inner)
          (.unterminatedQuote tag (position + utf8Length [])) := .quote hq hclosed
      exact .inr ⟨_, readValue_unclosed hq hclosed, hmisread⟩
  · obtain ⟨value, rest, rfl, hplain, hstop⟩ := exists_run (fun c => !isBlank c) cs
    have hnoQuote : ∀ c ∈ (value ++ rest).head?, ¬isQuote c := by
      intro c hc hq
      obtain ⟨inner, hinner⟩ := List.head?_eq_some_iff.1 hc
      exact hquoted ⟨c, inner, hq, hinner⟩
    have hnoBlank : ∀ c ∈ value, ¬isBlank c := by simpa using hplain
    have hends : ∀ c ∈ rest.head?, isBlank c := by simpa using hstop
    have hread : readValue tag name? position (value ++ rest) = _ :=
      readValue_bare hnoQuote hnoBlank hends
    split at hread
    · exact .inr ⟨_, hread, hempty hread⟩
    · next hvalue =>
      rw [List.head?_append_of_ne_nil _ hvalue] at hnoQuote
      exact .inl ⟨value, value, rest, rfl, .bare hnoQuote hnoBlank hends hvalue, hread⟩

/-! ## Names -/

theorem part_of_isTagName {name : List Char} (h : IsTagName name) :
    ∀ c ∈ name, c ≠ '=' ∧ ¬isBlank c := by
  intro c hc
  have hletter := (isTagName_iff.1 h).2 c hc
  have hopens : ¬opensBody c := fun hopens => Scan.not_isNameChar_of_opensBody hopens hletter
  simp only [opensBody, Bool.or_eq_true, beq_iff_eq, not_or] at hopens
  exact ⟨hopens.1.1.2, hopens.2⟩

/-- What is taken for a name ends at the next `=` or blank. -/
theorem namePart_run {name rest : List Char} (part : ∀ c ∈ name, c ≠ '=' ∧ ¬isBlank c)
    (ends : ∀ c ∈ rest.head?, c = '=' ∨ isBlank c) :
    (name ++ rest).takeWhile (fun c => c != '=' && !isBlank c) = name
      ∧ (name ++ rest).dropWhile (fun c => c != '=' && !isBlank c) = rest := by
  have hpart : ∀ c ∈ name, (c != '=' && !isBlank c) = true := by simpa using part
  have hstop : ∀ c ∈ rest.head?, ¬(c != '=' && !isBlank c) = true := by
    intro c hc
    have hend := ends c hc
    simp only [Bool.and_eq_true, bne_iff_ne, Bool.not_eq_true', not_and, Bool.not_eq_false]
    exact fun hne => hend.resolve_left hne
  exact ⟨takeWhile_run hpart hstop, dropWhile_run hpart hstop⟩

theorem invalid_iff {name : List Char} :
    (name.isEmpty || !name.all isNameChar) = true ↔ ¬IsTagName name := by
  rw [isTagName_iff, Bool.or_eq_true, List.isEmpty_iff, Bool.not_eq_true', List.all_eq_false]
  constructor
  · rintro (rfl | ⟨c, hc, hletter⟩) ⟨hne, hletters⟩
    · exact hne rfl
    · exact hletter (hletters c hc)
  · intro h
    by_cases hne : name = []
    · exact .inl hne
    · by_contra hnone
      rw [not_or] at hnone
      exact h ⟨hne, fun c hc => by_contra fun hletter => hnone.2 ⟨c, hc, hletter⟩⟩

/-- A value is expected behind the name. -/
theorem readNamed_equals {name : List Char} (isName : IsTagName name) (cs : List Char) :
    readNamed tag position (name ++ '=' :: cs)
      = readValue tag (some (String.ofList name)) (position + utf8Length name + 1) cs := by
  have hends : ∀ c ∈ ('=' :: cs).head?, c = '=' ∨ isBlank c := by simp
  obtain ⟨hname, hleft⟩ := namePart_run (part_of_isTagName isName) hends
  unfold readNamed
  simp only [hname, hleft, if_neg (mt invalid_iff.1 (Classical.not_not.2 isName))]

theorem readNamed_noValue {name rest : List Char} (isName : IsTagName name)
    (ends : ∀ c ∈ rest.head?, isBlank c) :
    readNamed tag position (name ++ rest)
      = .error (.emptyAttributeValue tag (position + utf8Length name)) := by
  obtain ⟨hname, hleft⟩ :=
    namePart_run (part_of_isTagName isName) fun c hc => .inr (ends c hc)
  unfold readNamed
  simp only [hname, hleft, if_neg (mt invalid_iff.1 (Classical.not_not.2 isName))]
  split
  · exact absurd (ends '=' rfl) (by decide)
  · rfl

theorem readNamed_noName {name rest : List Char} (part : ∀ c ∈ name, c ≠ '=' ∧ ¬isBlank c)
    (ends : ∀ c ∈ rest.head?, c = '=' ∨ isBlank c) (noName : ¬IsTagName name) :
    readNamed tag position (name ++ rest)
      = .error (.invalidAttributeName tag (String.ofList name) position) := by
  obtain ⟨hname, -⟩ := namePart_run part ends
  unfold readNamed
  simp only [hname, if_pos (invalid_iff.2 noName)]

/-- An attribute is read, or the characters are misread. -/
theorem readNamed_cases (tag : String) (position : Nat) (cs : List Char) :
    (∃ name after front value rest, cs = name ++ '=' :: after ∧ IsTagName name
        ∧ after = front ++ rest ∧ ValueFirst after value rest
        ∧ readNamed tag position cs
          = .ok (⟨some (String.ofList name), String.ofList value⟩,
            position + utf8Length name + 1 + utf8Length front, rest))
      ∨ ∃ e, readNamed tag position cs = .error e ∧ Misread tag position cs e := by
  obtain ⟨name, rest, rfl, hpart, hstop⟩ := exists_run (fun c => c != '=' && !isBlank c) cs
  have hpart' : ∀ c ∈ name, c ≠ '=' ∧ ¬isBlank c := by simpa using hpart
  have hends : ∀ c ∈ rest.head?, c = '=' ∨ isBlank c := by
    intro c hc
    have hend := hstop c hc
    simp only [Bool.and_eq_true, bne_iff_ne, Bool.not_eq_true', not_and, Bool.not_eq_false] at hend
    by_cases hequals : c = '='
    · exact .inl hequals
    · exact .inr (hend hequals)
  by_cases hname : IsTagName name
  · by_cases hequals : ∃ after, rest = '=' :: after
    · obtain ⟨after, rfl⟩ := hequals
      have hread : readNamed tag position (name ++ '=' :: after) = _ := readNamed_equals hname after
      rcases readValue_cases tag (some (String.ofList name)) (position + utf8Length name + 1) after
        with ⟨front, value, rest, hsplit, hfirst, hvalue⟩ | ⟨e, hvalue, hmisread⟩
      · exact .inl ⟨name, after, front, value, rest, rfl, hname, hsplit, hfirst,
          hread.trans hvalue⟩
      · refine .inr ⟨e, hread.trans hvalue, ?_⟩
        have hfront : utf8Length (name ++ ['=']) = utf8Length name + 1 := utf8Length_append _ _
        rw [Nat.add_assoc, ← hfront] at hmisread
        simpa using hmisread.append
    · have hblank : ∀ c ∈ rest.head?, isBlank c := by
        intro c hc
        rcases hends c hc with rfl | hblank
        · exact absurd ((List.head?_eq_some_iff.1 hc)) hequals
        · exact hblank
      exact .inr ⟨_, readNamed_noValue hname hblank, .value (not_valueFirst_of_blank hblank)⟩
  · have hmisread : Misread tag position ([] ++ (name ++ rest))
        (.invalidAttributeName tag (String.ofList name) (position + utf8Length [])) :=
      .name hpart' hends hname
    exact .inr ⟨_, readNamed_noName hpart' hends hname, hmisread⟩

/-! ## All attributes -/

theorem mapM_id_ok_cons (a : Attribute) (xs : List (Except MarkupError Attribute)) :
    (Except.ok a :: xs).mapM id = (xs.mapM id).map (a :: ·) := by
  rw [List.mapM_cons]
  cases xs.mapM id <;> rfl

/-- Blanks in front of an attribute are passed over. -/
theorem readNames_run {blanks rest : List Char} (blank : ∀ c ∈ blanks, isBlank c)
    (ends : ∀ c ∈ rest.head?, ¬isBlank c) (nonempty : rest ≠ []) (fuel : Nat) :
    readNames tag (fuel + 1) position (blanks ++ rest)
      = match readNamed tag (position + utf8Length blanks) rest with
        | .error e => [.error e]
        | .ok (a, next, rest) => .ok a :: readNames tag fuel next rest := by
  rw [readNames, takeWhile_run blank ends, dropWhile_run blank ends]
  split
  · exact absurd rfl nonempty
  · rfl

theorem readNames_blanks {blanks : List Char} (blank : ∀ c ∈ blanks, isBlank c) (fuel : Nat) :
    readNames tag fuel position blanks = [] := by
  cases fuel with
  | zero => rfl
  | succ fuel =>
    have hleft : blanks.dropWhile isBlank = [] := List.dropWhile_eq_nil_iff.2 blank
    rw [readNames, hleft]

theorem readNames_of_namedReadAs {cs : List Char} {as : List Attribute} (h : NamedReadAs cs as)
    {fuel : Nat} (hfuel : cs.length < fuel) (position : Nat) :
    (readNames tag fuel position cs).mapM id = .ok as := by
  induction h generalizing fuel position with
  | done blank =>
    rw [readNames_blanks blank]
    rfl
  | @named blanks name cs value rest as blank isName first _ ih =>
    obtain ⟨fuel, rfl⟩ : ∃ n, fuel = n + 1 := ⟨fuel - 1, by omega⟩
    have hends : ∀ c ∈ (name ++ '=' :: cs).head?, ¬isBlank c := by
      rw [List.head?_append_of_ne_nil _ isName.nonempty]
      intro c hc
      exact (part_of_isTagName isName c (List.mem_of_mem_head? hc)).2
    obtain ⟨next, hnext⟩ := readValue_of_valueFirst first tag (some (String.ofList name))
      (position + utf8Length blanks + utf8Length name + 1)
    have hlen := first.length_le
    simp only [List.length_append, List.length_cons] at hfuel
    rw [readNames_run blank hends (by simp), readNamed_equals isName, hnext]
    simp only
    rw [mapM_id_ok_cons, ih (by omega)]
    rfl

/-- All characters are read as attributes, or they are misread. -/
theorem readNames_cases (tag : String) (position : Nat) {fuel : Nat} {cs : List Char}
    (h : cs.length < fuel) :
    (∃ as, NamedReadAs cs as ∧ (readNames tag fuel position cs).mapM id = .ok as)
      ∨ ∃ e, (readNames tag fuel position cs).mapM id = .error e ∧ Misread tag position cs e := by
  induction fuel generalizing position cs with
  | zero => omega
  | succ fuel ih =>
    obtain ⟨blanks, rest, rfl, hblank, hends⟩ := exists_run isBlank cs
    by_cases hrest : rest = []
    · subst hrest
      rw [List.append_nil]
      exact .inl ⟨[], .done hblank, by rw [readNames_blanks hblank]; rfl⟩
    · rw [readNames_run hblank hends hrest]
      rcases readNamed_cases tag (position + utf8Length blanks) rest with
        ⟨name, after, front, value, left, rfl, hname, rfl, hfirst, hread⟩ | ⟨e, hread, hmisread⟩
      · rw [hread]
        simp only
        rw [mapM_id_ok_cons]
        simp only [List.length_append, List.length_cons] at h
        have hfront : utf8Length (blanks ++ (name ++ '=' :: front))
            = utf8Length blanks + (utf8Length name + 1 + utf8Length front) := by
          have hequals : '='.utf8Size = 1 := rfl
          simp only [utf8Length_append, utf8Length_cons, hequals]
          omega
        have hshort : left.length < fuel := by omega
        rcases ih (position + utf8Length blanks + utf8Length name + 1 + utf8Length front) hshort with
          ⟨as, has, hmore⟩ | ⟨e, hmore, hmisread⟩
        · exact .inl ⟨_, .named hblank hname hfirst has, by rw [hmore]; rfl⟩
        · refine .inr ⟨e, by rw [hmore]; rfl, ?_⟩
          have hsplit : blanks ++ (name ++ '=' :: (front ++ left))
              = (blanks ++ (name ++ '=' :: front)) ++ left := by simp
          rw [hsplit]
          refine .append ?_
          rwa [hfront, ← Nat.add_assoc, ← Nat.add_assoc, ← Nat.add_assoc]
      · rw [hread]
        exact .inr ⟨e, rfl, hmisread.append⟩

theorem readAll_named {body : List Char} (noOwn : ∀ c ∈ body.head?, c ≠ '=') (position : Nat) :
    readAll tag position body = readNames tag (body.length + 1) position body := by
  unfold readAll
  split
  · exact absurd rfl (noOwn '=' rfl)
  · rfl

theorem readAll_of_readsAs {body : List Char} {as : List Attribute} (h : ReadsAs body as)
    (position : Nat) : (readAll tag position body).mapM id = .ok as := by
  cases h with
  | own first after =>
    obtain ⟨next, hnext⟩ := readValue_of_valueFirst first tag none (position + 1)
    rw [readAll, hnext]
    simp only
    rw [mapM_id_ok_cons, readNames_of_namedReadAs after (Nat.lt_succ_self _)]
    rfl
  | named noOwn all =>
    rw [readAll_named noOwn, readNames_of_namedReadAs all (Nat.lt_succ_self _)]

/-- The body of a tag is read as attributes, or it is misread. -/
theorem readAll_cases (tag : String) (position : Nat) (body : List Char) :
    (∃ as, ReadsAs body as ∧ (readAll tag position body).mapM id = .ok as)
      ∨ ∃ e, (readAll tag position body).mapM id = .error e ∧ Misread tag position body e := by
  by_cases hown : ∃ cs, body = '=' :: cs
  · obtain ⟨cs, rfl⟩ := hown
    rw [readAll]
    rcases readValue_cases tag none (position + 1) cs with
      ⟨front, value, rest, rfl, hfirst, hread⟩ | ⟨e, hread, hmisread⟩
    · rw [hread]
      simp only
      rw [mapM_id_ok_cons]
      rcases readNames_cases tag (position + 1 + utf8Length front)
        (Nat.lt_succ_self rest.length) with ⟨as, has, hmore⟩ | ⟨e, hmore, hmisread⟩
      · exact .inl ⟨_, .own hfirst has, by rw [hmore]; rfl⟩
      · refine .inr ⟨e, by rw [hmore]; rfl, ?_⟩
        rw [Nat.add_assoc] at hmisread
        have hbehind : Misread tag (position + utf8Length ('=' :: front)) rest e := hmisread
        exact hbehind.append
    · rw [hread]
      have hbehind : Misread tag (position + utf8Length ['=']) cs e := hmisread
      exact .inr ⟨e, rfl, hbehind.append⟩
  · have hnoOwn : ∀ c ∈ body.head?, c ≠ '=' := by
      rintro c hc rfl
      exact hown (List.head?_eq_some_iff.1 hc)
    rw [readAll_named hnoOwn]
    rcases readNames_cases tag position (Nat.lt_succ_self body.length) with
      ⟨as, has, hread⟩ | hmisread
    · exact .inl ⟨as, .named hnoOwn has, hread⟩
    · exact .inr hmisread

end Attribute

namespace Tag

variable {t : Tag}

/-- **The attributes of a tag are what its body is read as.** -/
theorem attributes_eq_ok_iff {as : List Attribute} :
    t.attributes = .ok as ↔ Attribute.ReadsAs t.body.toList as := by
  constructor
  · intro h
    rcases Attribute.readAll_cases t.name t.bodyStart t.body.toList with
      ⟨as', has, hread⟩ | ⟨e, hread, -⟩
    · obtain rfl : as' = as := Except.ok.inj (hread.symm.trans h)
      exact has
    · cases hread.symm.trans h
  · intro h
    exact Attribute.readAll_of_readsAs h t.bodyStart

/-- **Where the attributes cannot be read the body is misread.** -/
theorem misread_of_attributes {e : MarkupError} (h : t.attributes = .error e) :
    (¬∃ as, Attribute.ReadsAs t.body.toList as)
      ∧ Attribute.Misread t.name t.bodyStart t.body.toList e := by
  constructor
  · rintro ⟨as, has⟩
    rw [attributes_eq_ok_iff.2 has] at h
    cases h
  · rcases Attribute.readAll_cases t.name t.bodyStart t.body.toList with
      ⟨as, -, hread⟩ | ⟨e', hread, hmisread⟩
    · cases hread.symm.trans h
    · obtain rfl : e' = e := Except.error.inj (hread.symm.trans h)
      exact hmisread

end Tag

end BranchingDialogue
