import BranchingDialogue.Proofs.Identifier
import BranchingDialogue.Proofs.Json.Numbers

/-!
# Texts, lists and records are read as they were written

The escapes of a text are undone (`readText_written`). Lists and records are written with one
element or member a line; they are read back if each of them is (`readList_between`,
`readMembers_written`), and a record is refused if one of its members is (`exists_error_of_member`).
What a record reader gathers on its way is followed by `Gathers`, member by member.
-/

namespace BranchingDialogue.Json

variable {α σ δ ρ : Type} {rest : List Char}

/-! ## Texts -/

/-- The escape of a control character, after its backslash. -/
theorem escaped_control {c : Char} (h : c.toNat < 0x20) (more : List Char) :
    escaped ('u' :: '0' :: '0' :: Nat.digitChar (c.toNat / 16) :: Nat.digitChar (c.toNat % 16)
      :: more) = .ok (c, more) := by
  have hunit : hexUnit? '0' '0' (Nat.digitChar (c.toNat / 16)) (Nat.digitChar (c.toNat % 16))
      = some c.toNat := by
    have hzero : hexValue? '0' = some 0 := rfl
    have hsum : (0 * 16 + 0) * 256 + (c.toNat / 16 * 16 + c.toNat % 16) = c.toNat := by omega
    rw [hexUnit?, hzero, Uuid.hexValue?_digitChar (by omega), Uuid.hexValue?_digitChar (by omega)]
    exact congrArg some hsum
  have hsingle : isTrailing c.toNat = false ∧ isLeading c.toNat = false := by
    simp only [isTrailing, isLeading, Bool.and_eq_false_iff, decide_eq_false_iff_not]
    omega
  simp only [escaped, hexUnit, hunit, hsingle.1, hsingle.2, Bool.false_eq_true, if_false,
    Char.ofNat_toNat]

/-- An escape is read as the character it was written for. -/
theorem textChars_writtenChar (b : Char) (bound read : List Char) (c : Char) (more : List Char) :
    textChars (b :: bound) read (writtenChar c ++ more) = textChars bound (c :: read) more := by
  unfold writtenChar
  by_cases hquote : c = '"'
  · subst hquote
    rfl
  by_cases hslash : c = '\\'
  · subst hslash
    rfl
  by_cases hback : c = '\x08'
  · subst hback
    rfl
  by_cases hfeed : c = '\x0c'
  · subst hfeed
    rfl
  by_cases hline : c = '\n'
  · subst hline
    rfl
  by_cases hreturn : c = '\r'
  · subst hreturn
    rfl
  by_cases htab : c = '\t'
  · subst htab
    rfl
  simp only [beq_iff_eq, hquote, hslash, hback, hfeed, hline, hreturn, htab, if_false]
  by_cases hcontrol : c.toNat < 0x20
  · rw [if_pos hcontrol]
    have hread := escaped_control hcontrol more
    simp only [List.cons_append, List.nil_append, textChars, hread]
  · rw [if_neg hcontrol]
    show textChars (b :: bound) read (c :: more) = _
    rw [textChars]
    · simp only [hcontrol, if_false]
    · exact hquote
    · exact hslash

/-- A text is read as it was written. -/
theorem textChars_written {cs bound : List Char} (read : List Char) (h : cs.length < bound.length) :
    textChars bound read (cs.flatMap writtenChar ++ '"' :: rest)
      = .ok (String.ofList (read.reverse ++ cs), rest) := by
  induction cs generalizing bound read with
  | nil =>
    cases bound with
    | nil => exact absurd h (Nat.not_lt_zero _)
    | cons b bound =>
      rw [List.append_nil]
      rfl
  | cons c cs ih =>
    cases bound with
    | nil => exact absurd h (Nat.not_lt_zero _)
    | cons b bound =>
      rw [List.flatMap_cons, List.append_assoc, textChars_writtenChar,
        ih (c :: read) (Nat.lt_of_succ_lt_succ h), List.reverse_cons, List.append_assoc, List.singleton_append]

theorem length_le_flatMap {β : Type} {f : β → List Char} (h : ∀ x, f x ≠ []) (xs : List β) :
    xs.length ≤ (xs.flatMap f).length := by
  induction xs with
  | nil => exact Nat.le_refl 0
  | cons x xs ih =>
    have hx := List.length_pos_iff.2 (h x)
    rw [List.flatMap_cons, List.length_append, List.length_cons]
    omega

theorem writtenChar_ne_nil (c : Char) : writtenChar c ≠ [] := by
  unfold writtenChar
  repeat' split
  all_goals exact nofun

theorem readText_written (s : String) (rest : List Char) :
    readText (s.toList.flatMap writtenChar ++ '"' :: rest) = .ok (s, rest) := by
  have hlength := length_le_flatMap writtenChar_ne_nil s.toList
  rw [readText, textChars_written]
  · rw [List.reverse_nil, List.nil_append, String.ofList_toList]
  · simp only [List.length_cons, List.length_append]
    omega

theorem opens_text (s : String) : Opens (writtenText s).toList := by
  rw [writtenText, String.toList_ofList]
  exact ⟨'"', _, rfl, rfl, by decide⟩

theorem takes_text (s : String) (depth : Nat) :
    Takes (readValue depth) (writtenText s).toList (.text s) := by
  refine takes_readValue (opens_text s) fun rest _ => ?_
  rw [writtenText, String.toList_ofList, readValue]
  show (readText ((s.toList.flatMap writtenChar ++ ['"']) ++ rest)).map (Prod.map Json.text id) = _
  rw [List.append_assoc, List.singleton_append, readText_written]
  rfl

/-! ## Words -/

theorem takes_null (depth : Nat) : Takes (readValue depth) "null".toList .null :=
  takes_readValue ⟨'n', _, rfl, rfl, by decide⟩ fun rest _ => by
    rw [readValue]
    rfl

theorem takes_bool (b : Bool) (depth : Nat) :
    Takes (readValue depth) (if b then "true" else "false").toList (.bool b) := by
  cases b with
  | true =>
    refine takes_readValue ⟨'t', _, rfl, rfl, by decide⟩ fun rest _ => ?_
    rw [readValue]
    rfl
  | false =>
    refine takes_readValue ⟨'f', _, rfl, rfl, by decide⟩ fun rest _ => ?_
    rw [readValue]
    rfl

/-! ## Lines in brackets -/

/-- The start of a line, as white space in front of what stands there. -/
def gap (depth : Nat) : List Char := '\n' :: List.replicate (2 * depth) ' '

/-- Lines after the first one, each after a comma. -/
def further (gap : List Char) (lines : List (List Char)) : List Char :=
  lines.flatMap fun line => ',' :: (gap ++ line)

/-- What stands between brackets. -/
def between (depth : Nat) : List (List Char) → List Char
  | [] => []
  | line :: lines => gap (depth + 1) ++ (line ++ (further (gap (depth + 1)) lines ++ gap depth))

theorem blank_gap (depth : Nat) : Blank (gap depth) := by
  unfold Blank gap
  show skipSpace (List.replicate (2 * depth) ' ') = []
  induction 2 * depth with
  | zero => rfl
  | succ n ih => exact ih

theorem toList_newline (depth : Nat) : (Report.newline depth).toList = gap depth := by
  rw [Report.newline, String.toList_append]
  exact congrArg ('\n' :: ·) String.toList_ofList

theorem toList_bracketed (opening closing : String) (depth : Nat) (lines : List String) :
    (Report.bracketed opening closing depth lines).toList
      = opening.toList ++ (between depth (lines.map String.toList) ++ closing.toList) := by
  have hlines : ∀ line (lines : List String),
      (("," ++ Report.newline (depth + 1)).intercalate (line :: lines)).toList
        = line.toList ++ further (gap (depth + 1)) (lines.map String.toList) := by
    intro line lines
    induction lines generalizing line with
    | nil =>
      rw [String.intercalate_singleton, List.map_nil, further, List.flatMap_nil, List.append_nil]
    | cons next lines ih =>
      rw [String.intercalate_cons_cons, String.toList_append, String.toList_append, ih next,
        String.toList_append, toList_newline]
      simp only [further, List.map_cons, List.flatMap_cons, List.append_assoc, List.cons_append]
      rfl
  cases lines with
  | nil => exact String.toList_append
  | cons line lines =>
    rw [Report.bracketed]
    simp only [List.isEmpty_cons, Bool.false_eq_true, if_false, String.toList_append,
      toList_newline, hlines, List.map_cons, between, List.append_assoc]

/-! ## Lists -/

section Lists

variable {item : List Char → Reading α} {depth : Nat} {lines : List (List Char)} {xs : List α}

theorem nextElement_first {line before : List Char} (hbefore : Blank before) (hline : Opens line)
    (more : List Char) :
    nextElement true (before ++ (line ++ more)) = .ok (some (line ++ more)) := by
  rw [nextElement, skipSpace_blank hbefore, hline.skipSpace_eq]
  obtain ⟨c, cs, rfl, -, hc⟩ := hline
  rw [List.cons_append]
  split
  · next h => cases h
  · next h => exact absurd (List.cons.inj h).1 hc
  · next h =>
    cases h
    rfl

theorem nextElement_next {line before : List Char} (hbefore : Blank before) (hline : Opens line)
    (more : List Char) :
    nextElement false (',' :: (before ++ (line ++ more))) = .ok (some (line ++ more)) := by
  rw [nextElement, skipSpace_cons (c := ',') rfl]
  split
  · next h => cases h
  · next h => exact absurd (List.cons.inj h).1 (by decide)
  · next h =>
    cases h
    rw [if_neg Bool.false_ne_true, if_pos rfl, skipSpace_blank hbefore, hline.skipSpace_eq]
    obtain ⟨c, cs, rfl, -, hc⟩ := hline
    rw [List.cons_append]
    split
    · next h => cases h
    · next h => exact absurd (List.cons.inj h).1 hc
    · rfl

theorem nextElement_end {before : List Char} (hbefore : Blank before) (first : Bool)
    (rest : List Char) : nextElement first (before ++ ']' :: rest) = .ok none := by
  rw [nextElement, skipSpace_blank hbefore]
  rfl

theorem ends_further {after : List Char} (h : Ends after) (before : List Char)
    (lines : List (List Char)) :
    Ends (further before lines ++ after) := by
  cases lines with
  | nil => exact h
  | cons line lines => exact ends_comma _

theorem length_le_further (before : List Char) (lines : List (List Char)) :
    lines.length ≤ (further before lines).length :=
  length_le_flatMap (f := fun line => ',' :: (before ++ line)) (fun _ => nofun) lines

/-- The lines after the first one are read one after the other, up to the closing bracket. -/
theorem readElements_further {before after bound : List Char} (hbefore : Blank before)
    (hafter : Blank after) (hends : Ends (after ++ ']' :: rest))
    (h : List.Forall₂ (fun line x => Opens line ∧ Takes item line x) lines xs)
    (hbound : lines.length < bound.length) :
    readElements item bound false (further before lines ++ (after ++ ']' :: rest))
      = .ok (xs, after ++ ']' :: rest) := by
  -- The reader counts elements down along the text; it has one character at least for each line.
  induction h generalizing bound with
  | nil =>
    cases bound with
    | nil => exact absurd hbound (Nat.not_lt_zero _)
    | cons b bound =>
      rw [further, List.flatMap_nil, List.nil_append, readElements, nextElement_end hafter]
  | @cons line x lines xs hline _ ih =>
    cases bound with
    | nil => exact absurd hbound (Nat.not_lt_zero _)
    | cons b bound =>
      have hnext : further before (line :: lines) ++ (after ++ ']' :: rest)
          = ',' :: (before ++ (line ++ (further before lines ++ (after ++ ']' :: rest)))) := by
        simp only [further, List.flatMap_cons, List.cons_append, List.append_assoc]
      have hitem := hline.2 [] _ rfl (ends_further hends before lines)
      rw [List.nil_append] at hitem
      rw [hnext, readElements, nextElement_next hbefore hline.1]
      simp only [hitem, ih (Nat.lt_of_succ_lt_succ hbound)]

/-- **A list is read as it was written, if its elements are.** -/
theorem readList_between
    (h : List.Forall₂ (fun line x => Opens line ∧ Takes item line x) lines xs) (rest : List Char) :
    readList item (between depth lines ++ ']' :: rest) = .ok (xs, rest) := by
  have hclose : ∀ before : List Char, Blank before →
      closeList (before ++ ']' :: rest) = .ok rest := by
    intro before hbefore
    rw [closeList, skipSpace_blank hbefore]
    rfl
  cases h with
  | nil => rfl
  | @cons line x lines xs hline hlines =>
    have hends : Ends (gap depth ++ ']' :: rest) := ends_line _
    have hitem := hline.2 [] _ rfl (ends_further hends (gap (depth + 1)) lines)
    rw [List.nil_append] at hitem
    have hlength := length_le_further (gap (depth + 1)) lines
    rw [readList, between]
    simp only [List.append_assoc]
    rw [readElements, nextElement_first (blank_gap _) hline.1]
    simp only [hitem]
    rw [readElements_further (blank_gap _) (blank_gap _) hends hlines]
    · simp only [hclose _ (blank_gap depth)]
    · simp only [List.length_append, List.length_cons]
      omega

end Lists

/-! ## Members -/

section Members

variable {member : σ → String → List Char → Reading σ} {s mid s' : σ} {depth : Nat}
  {name : String} {text : List Char} {members : List (String × List Char)}

/-- A member on its line. -/
def memberLine (m : String × List Char) : List Char :=
  '"' :: (m.1.toList.flatMap writtenChar ++ '"' :: ':' :: ' ' :: m.2)

/-- A member is read into what has been gathered, wherever its line ends. -/
def TakesMember (member : σ → String → List Char → Reading σ) (s : σ) (m : String × List Char)
    (s' : σ) : Prop :=
  ∀ rest, Ends rest → member s m.1 (':' :: ' ' :: (m.2 ++ rest)) = .ok (s', rest)

/-- Members are read one after the other into what has been gathered. -/
inductive Gathers (member : σ → String → List Char → Reading σ) :
    σ → List (String × List Char) → σ → Prop
  | nil (s : σ) : Gathers member s [] s
  | cons {s mid s' : σ} {m : String × List Char} {members : List (String × List Char)}
      (first : TakesMember member s m mid) (others : Gathers member mid members s') :
      Gathers member s (m :: members) s'

theorem Gathers.append {others : List (String × List Char)} (h : Gathers member s members mid)
    (hothers : Gathers member mid others s') : Gathers member s (members ++ others) s' := by
  induction h with
  | nil s => exact hothers
  | cons first _ ih => exact .cons first (ih hothers)

theorem nextMember_first {before : List Char} (hbefore : Blank before) (m : String × List Char)
    (more : List Char) :
    nextMember true (before ++ (memberLine m ++ more))
      = .ok (some (m.1.toList.flatMap writtenChar ++ '"' :: (':' :: ' ' :: (m.2 ++ more)))) := by
  rw [nextMember, skipSpace_blank hbefore, memberLine]
  simp only [List.cons_append, List.append_assoc]
  rfl

theorem nextMember_next {before : List Char} (hbefore : Blank before) (m : String × List Char)
    (more : List Char) :
    nextMember false (',' :: (before ++ (memberLine m ++ more)))
      = .ok (some (m.1.toList.flatMap writtenChar ++ '"' :: (':' :: ' ' :: (m.2 ++ more)))) := by
  rw [nextMember, skipSpace_cons (c := ',') rfl]
  split
  · next h => cases h
  · next h => exact absurd (List.cons.inj h).1 (by decide)
  · next h =>
    cases h
    rw [if_neg Bool.false_ne_true, if_pos rfl, skipSpace_blank hbefore, memberLine]
    simp only [List.cons_append, List.append_assoc]
    rfl

theorem nextMember_end {before : List Char} (hbefore : Blank before) (first : Bool)
    (rest : List Char) : nextMember first (before ++ '\x7d' :: rest) = .ok none := by
  rw [nextMember, skipSpace_blank hbefore]
  rfl

/-- The members on further lines are read, and what follows them is left. -/
theorem readMembers_further {before bound : List Char} (hbefore : Blank before)
    (h : Gathers member s members s') (hrest : Ends rest)
    (hbound : members.length ≤ bound.length) :
    readMembers member bound false s (further before (members.map memberLine) ++ rest)
      = readMembers member (bound.drop members.length) false s' rest := by
  -- What is left of the bound is kept, so that members that follow can still be read.
  induction h generalizing bound with
  | nil s => rfl
  | @cons s mid s' m members hfirst _ ih =>
    cases bound with
    | nil => exact absurd hbound (Nat.not_succ_le_zero _)
    | cons b bound =>
      have hnext : further before ((m :: members).map memberLine) ++ rest
          = ',' :: (before
            ++ (memberLine m ++ (further before (members.map memberLine) ++ rest))) := by
        simp only [further, List.map_cons, List.flatMap_cons, List.cons_append, List.append_assoc]
      have hmember := hfirst _ (ends_further hrest before (members.map memberLine))
      rw [hnext, readMembers, nextMember_next hbefore]
      simp only [readText_written, hmember, ih (Nat.le_of_succ_le_succ hbound), List.length_cons,
        List.drop_succ_cons]

/-- The first members are read from the opening bracket on, and what follows them is left. -/
theorem readMembers_between {m : String × List Char} {bound : List Char}
    (h : Gathers member s (m :: members) s') (hrest : Ends rest)
    (hbound : members.length < bound.length) :
    readMembers member bound true s
        (gap (depth + 1)
          ++ (memberLine m ++ (further (gap (depth + 1)) (members.map memberLine) ++ rest)))
      = readMembers member (bound.drop (members.length + 1)) false s' rest := by
  cases h with
  | cons hfirst hothers =>
    cases bound with
    | nil => exact absurd hbound (Nat.not_lt_zero _)
    | cons b bound =>
      have hmember := hfirst _
        (ends_further hrest (gap (depth + 1)) (members.map memberLine))
      rw [readMembers, nextMember_first (blank_gap _)]
      simp only [readText_written, hmember,
        readMembers_further (blank_gap _) hothers hrest (Nat.le_of_lt_succ hbound),
        List.drop_succ_cons]

theorem closeObject_end {before : List Char} (hbefore : Blank before) (rest : List Char) :
    closeObject (before ++ '\x7d' :: rest) = .ok rest := by
  rw [closeObject, skipSpace_blank hbefore]
  rfl

theorem length_lt_further {after : List Char} (h : after ≠ []) (before : List Char)
    (members : List (String × List Char)) :
    members.length < (further before (members.map memberLine) ++ after).length := by
  have hfurther := length_le_further before (members.map memberLine)
  have hafter := List.length_pos_iff.2 h
  rw [List.length_map] at hfurther
  rw [List.length_append]
  omega

theorem readMembers_end {before bound : List Char} (hbefore : Blank before) (hbound : bound ≠ [])
    (first : Bool) (s : σ) (rest : List Char) :
    readMembers member bound first s (before ++ '\x7d' :: rest)
      = .ok (s, before ++ '\x7d' :: rest) := by
  cases bound with
  | nil => exact absurd rfl hbound
  | cons b bound => rw [readMembers, nextMember_end hbefore]

/-- **Members are read as they were written, if each of them is.** -/
theorem readMembers_written (h : Gathers member s members s') (depth : Nat) (rest : List Char) :
    ∃ after, readMembers member
        ('\x7b' :: (between depth (members.map memberLine) ++ '\x7d' :: rest)) true s
        (between depth (members.map memberLine) ++ '\x7d' :: rest) = .ok (s', after)
      ∧ closeObject after = .ok rest := by
  cases members with
  | nil =>
    cases h
    have hblank : Blank [] := rfl
    exact ⟨_, readMembers_end hblank (List.cons_ne_nil _ _) true s rest,
      closeObject_end hblank rest⟩
  | cons m members =>
    refine ⟨_, ?_, closeObject_end (blank_gap depth) rest⟩
    have hends : Ends (gap depth ++ '\x7d' :: rest) := ends_line _
    have hne : gap depth ++ '\x7d' :: rest ≠ [] := List.cons_ne_nil '\n' _
    have hlength := length_lt_further hne (gap (depth + 1)) members
    simp only [List.map_cons, between, List.append_assoc]
    rw [readMembers_between h hends]
    · refine readMembers_end (blank_gap depth) ?_ false s' rest
      rw [← List.length_pos_iff, List.length_drop]
      simp only [List.length_cons, List.length_append] at hlength ⊢
      omega
    · simp only [List.length_cons, List.length_append] at hlength ⊢
      omega

/-- Where a member is refused, so are the members together. -/
theorem exists_error_of_member {m : String × List Char} (h : Gathers member s members mid)
    (hfails : ∀ rest, Ends rest →
      ∃ fault, member mid m.1 (':' :: ' ' :: (m.2 ++ rest)) = .error fault)
    (others : List (String × List Char)) (depth : Nat) (rest : List Char) :
    ∃ fault, readMembers member
        ('\x7b' :: (between depth ((members ++ m :: others).map memberLine) ++ '\x7d' :: rest))
        true s (between depth ((members ++ m :: others).map memberLine) ++ '\x7d' :: rest)
      = .error fault := by
  have hends : Ends (further (gap (depth + 1)) (others.map memberLine)
      ++ (gap depth ++ '\x7d' :: rest)) := ends_further (ends_line _) _ _
  obtain ⟨fault, hfault⟩ := hfails _ hends
  refine ⟨fault, ?_⟩
  cases members with
  | nil =>
    cases h
    simp only [List.nil_append, List.map_cons, between, List.append_assoc]
    rw [readMembers, nextMember_first (blank_gap _)]
    simp only [readText_written, hfault]
  | cons first members =>
    have hnext : further (gap (depth + 1)) ((members ++ m :: others).map memberLine)
          ++ (gap depth ++ '\x7d' :: rest)
        = further (gap (depth + 1)) (members.map memberLine)
          ++ ',' :: (gap (depth + 1) ++ (memberLine m
            ++ (further (gap (depth + 1)) (others.map memberLine)
              ++ (gap depth ++ '\x7d' :: rest)))) := by
      simp only [further, List.map_append, List.map_cons, List.flatMap_append, List.flatMap_cons,
        List.cons_append, List.append_assoc]
    have hlength := length_lt_further (List.cons_ne_nil ',' (gap (depth + 1) ++ (memberLine m
      ++ (further (gap (depth + 1)) (others.map memberLine) ++ (gap depth ++ '\x7d' :: rest)))))
      (gap (depth + 1)) members
    simp only [List.cons_append, List.map_cons, between, List.append_assoc]
    rw [hnext, readMembers_between h (ends_comma _)]
    · cases hbound : List.drop (members.length + 1) _ with
      | nil =>
        rw [List.drop_eq_nil_iff] at hbound
        simp only [List.length_cons, List.length_append] at hbound hlength
        omega
      | cons b bound =>
        rw [readMembers, nextMember_next (blank_gap _)]
        simp only [readText_written, hfault]
    · simp only [List.length_cons, List.length_append] at hlength ⊢
      omega

end Members

/-! ## Reports -/

section Reports

theorem jsonItems_eq (depth : Nat) (items : List Report) :
    Report.jsonItems depth items = items.map (Report.jsonAt depth) := by
  induction items with
  | nil => rfl
  | cons r items ih => rw [Report.jsonItems, ih, List.map_cons]

/-- The fields of a record as members. -/
def fieldMembers (depth : Nat) (fields : List (String × Report)) : List (String × List Char) :=
  fields.map fun f => (f.1, (Report.jsonAt depth f.2).toList)

theorem jsonFields_eq (depth : Nat) (fields : List (String × Report)) :
    (Report.jsonFields depth fields).map String.toList
      = (fieldMembers depth fields).map memberLine := by
  induction fields with
  | nil => rfl
  | cons f fields ih =>
    obtain ⟨name, r⟩ := f
    have hline : (writtenText name ++ ": " ++ Report.jsonAt depth r).toList
        = memberLine (name, (Report.jsonAt depth r).toList) := by
      rw [String.toList_append, String.toList_append, writtenText, String.toList_ofList, memberLine,
        List.append_assoc, List.cons_append, List.cons_append, List.append_assoc]
      rfl
    rw [Report.jsonFields, List.map_cons, ih, hline]
    rfl

theorem toList_list (depth : Nat) (items : List Report) :
    (Report.jsonAt depth (.list items)).toList
      = '[' :: (between depth (items.map fun r => (Report.jsonAt (depth + 1) r).toList)
        ++ [']']) := by
  rw [Report.jsonAt, toList_bracketed, jsonItems_eq, List.map_map]
  rfl

theorem toList_record (depth : Nat) (fields : List (String × Report)) :
    (Report.jsonAt depth (.record fields)).toList
      = '\x7b' :: (between depth ((fieldMembers (depth + 1) fields).map memberLine)
        ++ ['\x7d']) := by
  rw [Report.jsonAt, toList_bracketed, jsonFields_eq]
  rfl

end Reports

end BranchingDialogue.Json
