import BranchingDialogue.Markup.Tag
import BranchingDialogue.Proofs.Text.Bytes
import Mathlib.Data.List.TakeWhile

/-!
# The grammar of tags

`IsBody` is the grammar of what stands between a tag's name and its `>`: quoted runs, and characters
other than quotes and angle brackets. A scan reads as much of a body as there is, and how it ends is
decided by what comes after it: a `>` closes the tag, a `<` or the end of the text breaks it off, and
the only other thing that can come is a quote that is never closed.

Main results: `Scan.bodyEnd_eq_closed_iff`, `Scan.bodyEnd_eq_openQuote_iff`.
-/

namespace BranchingDialogue

/-! ## Runs of characters -/

section Runs

variable {p : Char → Bool} {run rest : List Char}

theorem takeWhile_run (inside : ∀ c ∈ run, p c) (ends : ∀ c ∈ rest.head?, ¬p c) :
    (run ++ rest).takeWhile p = run := by
  rw [List.takeWhile_append_of_pos inside]
  cases rest with
  | nil => rw [List.takeWhile_nil, List.append_nil]
  | cons c rest => rw [List.takeWhile_cons_of_neg (ends c rfl), List.append_nil]

theorem dropWhile_run (inside : ∀ c ∈ run, p c) (ends : ∀ c ∈ rest.head?, ¬p c) :
    (run ++ rest).dropWhile p = rest := by
  rw [List.dropWhile_append_of_pos inside]
  cases rest with
  | nil => rfl
  | cons c rest => exact List.dropWhile_cons_of_neg (ends c rfl)

/-- Characters begin with as many of a class as there are. -/
theorem exists_run (p : Char → Bool) (cs : List Char) :
    ∃ run rest, cs = run ++ rest ∧ (∀ c ∈ run, p c) ∧ ∀ c ∈ rest.head?, ¬p c := by
  refine ⟨cs.takeWhile p, cs.dropWhile p, List.takeWhile_append_dropWhile.symm,
    fun c hc => List.mem_takeWhile_imp hc, fun c hc => ?_⟩
  have hhead := List.head?_dropWhile_not p cs
  rw [hc] at hhead
  simpa using hhead

end Runs

/-! ## The grammar -/

/-- The body of a tag: quoted runs, each from a quote up to the next quote of its kind, and
characters that are no quotes and no angle brackets. -/
inductive IsBody : List Char → Prop
  | nil : IsBody []
  | quoted {q : Char} {run rest : List Char} (quote : isQuote q) (inside : q ∉ run)
      (after : IsBody rest) : IsBody (q :: run ++ q :: rest)
  | plain {c : Char} {rest : List Char} (noQuote : ¬isQuote c) (noOpening : c ≠ '<')
      (noClosing : c ≠ '>') (after : IsBody rest) : IsBody (c :: rest)

/-- A name: letters and hyphens, at least one. -/
structure IsTagName (name : List Char) : Prop where
  nonempty : name ≠ []
  letters : ∀ c ∈ name, c.isAlpha ∨ c = '-'

theorem isTagName_iff {name : List Char} :
    IsTagName name ↔ name ≠ [] ∧ ∀ c ∈ name, isNameChar c := by
  simp only [isNameChar, Bool.or_eq_true, beq_iff_eq]
  exact ⟨fun h => ⟨h.nonempty, h.letters⟩, fun h => ⟨h.1, h.2⟩⟩

instance (name : List Char) : Decidable (IsTagName name) :=
  decidable_of_iff (name ≠ [] ∧ name.all isNameChar) (by rw [isTagName_iff, List.all_eq_true])

namespace IsBody

theorem append {body body' : List Char} (h : IsBody body) (h' : IsBody body') :
    IsBody (body ++ body') := by
  induction h with
  | nil => exact h'
  | quoted quote inside _ ih =>
    rw [List.append_assoc, List.cons_append, List.cons_append]
    exact .quoted quote inside ih
  | plain noQuote noOpening noClosing _ ih => exact .plain noQuote noOpening noClosing ih

/-- After as much of a body as there is comes the end, an angle bracket or a quote that is never
closed. -/
theorem exists_longest (cs : List Char) :
    ∃ body tail, IsBody body ∧ cs = body ++ tail
      ∧ (tail = [] ∨ (∃ rest, tail = '<' :: rest) ∨ (∃ rest, tail = '>' :: rest)
        ∨ ∃ q rest, isQuote q ∧ q ∉ rest ∧ tail = q :: rest) := by
  -- A quoted run takes many characters at once, so the induction is on how many are left.
  induction hlen : cs.length using Nat.strongRecOn generalizing cs with
  | ind n ih =>
    cases cs with
    | nil => exact ⟨[], [], .nil, rfl, .inl rfl⟩
    | cons c cs =>
      rw [List.length_cons] at hlen
      by_cases hquote : isQuote c
      · by_cases hclosed : c ∈ cs
        · obtain ⟨run, rest, rfl, hinside⟩ := List.eq_append_cons_of_mem hclosed
          have hshort : rest.length < n := by
            rw [List.length_append, List.length_cons] at hlen
            omega
          obtain ⟨body, tail, hbody, rfl, htail⟩ := ih rest.length hshort rest rfl
          exact ⟨_, tail, .quoted hquote hinside hbody, by simp, htail⟩
        · exact ⟨[], _, .nil, rfl, .inr (.inr (.inr ⟨c, cs, hquote, hclosed, rfl⟩))⟩
      · by_cases hopening : c = '<'
        · exact ⟨[], _, .nil, rfl, .inr (.inl ⟨cs, by rw [hopening]⟩)⟩
        · by_cases hclosing : c = '>'
          · exact ⟨[], _, .nil, rfl, .inr (.inr (.inl ⟨cs, by rw [hclosing]⟩))⟩
          · obtain ⟨body, tail, hbody, rfl, htail⟩ := ih cs.length (by omega) cs rfl
            exact ⟨_, tail, .plain hquote hopening hclosing hbody, rfl, htail⟩

end IsBody

namespace Scan

/-! ## The end of a body -/

/-- A quoted run is read up to its closing quote. -/
theorem bodyEnd_append_quote {q : Char} {offset : Nat} {run : List Char} (inside : q ∉ run)
    (position : Nat) (read rest : List Char) :
    bodyEnd (some (q, offset)) position read (run ++ q :: rest)
      = bodyEnd none (position + utf8Length run + q.utf8Size) (q :: (run.reverse ++ read)) rest := by
  induction run generalizing position read with
  | nil => rw [List.nil_append, bodyEnd, if_pos rfl]; rfl
  | cons c run ih =>
    rw [List.mem_cons, not_or] at inside
    rw [List.cons_append, bodyEnd, if_neg (Ne.symm inside.1), ih inside.2, utf8Length_cons,
      List.reverse_cons, List.append_assoc, List.singleton_append]
    congr 1
    omega

/-- Without a closing quote a quoted run reaches to the end. -/
theorem bodyEnd_of_not_mem {q : Char} {offset : Nat} {rest : List Char} (unclosed : q ∉ rest)
    (position : Nat) (read : List Char) :
    bodyEnd (some (q, offset)) position read rest = .openQuote offset := by
  induction rest generalizing position read with
  | nil => rfl
  | cons c rest ih =>
    rw [List.mem_cons, not_or] at unclosed
    rw [bodyEnd, if_neg (Ne.symm unclosed.1), ih unclosed.2]

/-- A body is read and the scan goes on after it. -/
theorem bodyEnd_append {body : List Char} (h : IsBody body) (position : Nat)
    (read tail : List Char) :
    bodyEnd none position read (body ++ tail)
      = bodyEnd none (position + utf8Length body) (body.reverse ++ read) tail := by
  induction h generalizing position read with
  | nil => rfl
  | @quoted q run rest quote inside _ ih =>
    have hsplit : q :: run ++ q :: rest ++ tail = q :: (run ++ q :: (rest ++ tail)) := by simp
    rw [hsplit, bodyEnd, if_pos quote, bodyEnd_append_quote inside, ih]
    congr 1
    · simp only [utf8Length_cons, utf8Length_append]
      omega
    · simp
  | @plain c rest noQuote noOpening noClosing _ ih =>
    rw [List.cons_append, bodyEnd, if_neg noQuote, if_neg noOpening, if_neg noClosing, ih,
      utf8Length_cons, List.reverse_cons, List.append_assoc, List.singleton_append, Nat.add_assoc]

theorem bodyEnd_closing {body : List Char} (h : IsBody body) (position : Nat) (rest : List Char) :
    bodyEnd none position [] (body ++ '>' :: rest) = .closed body := by
  rw [bodyEnd_append h, bodyEnd]
  simp [isQuote]

theorem bodyEnd_openQuote {body rest : List Char} {q : Char} (h : IsBody body) (quote : isQuote q)
    (unclosed : q ∉ rest) (position : Nat) :
    bodyEnd none position [] (body ++ q :: rest) = .openQuote (position + utf8Length body) := by
  rw [bodyEnd_append h, bodyEnd, if_pos quote, bodyEnd_of_not_mem unclosed]

/-- How the body that some characters begin with ends. -/
theorem bodyEnd_cases (position : Nat) (cs : List Char) :
    (∃ body rest, IsBody body ∧ cs = body ++ '>' :: rest
        ∧ bodyEnd none position [] cs = .closed body)
      ∨ bodyEnd none position [] cs = .broken
      ∨ ∃ body q rest, IsBody body ∧ isQuote q ∧ q ∉ rest ∧ cs = body ++ q :: rest
        ∧ bodyEnd none position [] cs = .openQuote (position + utf8Length body) := by
  obtain ⟨body, tail, hbody, rfl, htail⟩ := IsBody.exists_longest cs
  rcases htail with rfl | ⟨rest, rfl⟩ | ⟨rest, rfl⟩ | ⟨q, rest, hquote, hopen, rfl⟩
  · refine .inr (.inl ?_)
    rw [bodyEnd_append hbody]
    rfl
  · refine .inr (.inl ?_)
    rw [bodyEnd_append hbody, bodyEnd]
    simp [isQuote]
  · exact .inl ⟨body, rest, hbody, rfl, bodyEnd_closing hbody position rest⟩
  · exact .inr (.inr ⟨body, q, rest, hbody, hquote, hopen, rfl,
      bodyEnd_openQuote hbody hquote hopen position⟩)

theorem bodyEnd_eq_closed_iff {position : Nat} {cs body : List Char} :
    bodyEnd none position [] cs = .closed body ↔ IsBody body ∧ ∃ rest, cs = body ++ '>' :: rest := by
  constructor
  · intro h
    rcases bodyEnd_cases position cs with
      ⟨body', rest, hbody, hcs, hend⟩ | hend | ⟨_, _, _, _, _, _, _, hend⟩
    · rw [hend] at h
      cases h
      exact ⟨hbody, rest, hcs⟩
    · rw [hend] at h
      cases h
    · rw [hend] at h
      cases h
  · rintro ⟨hbody, rest, rfl⟩
    exact bodyEnd_closing hbody position rest

theorem bodyEnd_eq_openQuote_iff {position offset : Nat} {cs : List Char} :
    bodyEnd none position [] cs = .openQuote offset
      ↔ ∃ body q rest, IsBody body ∧ isQuote q ∧ q ∉ rest ∧ cs = body ++ q :: rest
        ∧ offset = position + utf8Length body := by
  constructor
  · intro h
    rcases bodyEnd_cases position cs with
      ⟨_, _, _, _, hend⟩ | hend | ⟨body, q, rest, hbody, hquote, hopen, hcs, hend⟩
    · rw [hend] at h
      cases h
    · rw [hend] at h
      cases h
    · rw [hend] at h
      cases h
      exact ⟨body, q, rest, hbody, hquote, hopen, hcs, rfl⟩
  · rintro ⟨body, q, rest, hbody, hquote, hopen, rfl, rfl⟩
    exact bodyEnd_openQuote hbody hquote hopen position

end Scan

end BranchingDialogue
