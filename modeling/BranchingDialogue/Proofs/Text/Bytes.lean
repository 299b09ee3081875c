import BranchingDialogue.Text.Utf8

/-!
# Bytes and characters of a text

Every character has at least one byte, so a byte position that falls between two characters belongs
to one split of the text only. `Spans` says that some characters stand between two such positions;
they are then the only ones that do: `Spans.eq`.
-/

namespace BranchingDialogue

/-! ## Lengths -/

@[simp] theorem utf8Length_nil : utf8Length [] = 0 := rfl

@[simp] theorem utf8Length_cons (c : Char) (cs : List Char) :
    utf8Length (c :: cs) = c.utf8Size + utf8Length cs := rfl

@[simp] theorem utf8Length_append (cs ds : List Char) :
    utf8Length (cs ++ ds) = utf8Length cs + utf8Length ds := by
  induction cs with
  | nil => simp
  | cons c cs ih => simp [ih, Nat.add_assoc]

theorem utf8Length_le_of_sublist {cs ds : List Char} (h : cs.Sublist ds) :
    utf8Length cs ≤ utf8Length ds := by
  induction h with
  | slnil => exact Nat.le_refl _
  | cons c _ ih =>
    rw [utf8Length_cons]
    omega
  | cons_cons c _ ih =>
    rw [utf8Length_cons, utf8Length_cons]
    omega

theorem length_le_utf8Length (cs : List Char) : cs.length ≤ utf8Length cs := by
  induction cs with
  | nil => exact Nat.le_refl 0
  | cons c cs ih =>
    have hpos := c.utf8Size_pos
    rw [List.length_cons, utf8Length_cons]
    omega

/-- Characters have as few bytes as there are characters if each is one byte. -/
theorem utf8Length_le_length_iff {cs : List Char} :
    utf8Length cs ≤ cs.length ↔ ∀ c ∈ cs, c.utf8Size = 1 := by
  induction cs with
  | nil => simp
  | cons c cs ih =>
    have hpos := c.utf8Size_pos
    have hle := length_le_utf8Length cs
    rw [utf8Length_cons, List.length_cons, List.forall_mem_cons, ← ih]
    omega

/-- The bytes of a text are those of its characters. -/
theorem utf8Length_toList (s : String) : utf8Length s.toList = s.utf8ByteSize := by
  have hofList : ∀ cs : List Char, utf8Length cs = (String.ofList cs).utf8ByteSize := by
    intro cs
    induction cs with
    | nil => simp
    | cons c cs ih =>
      have hsplit : String.ofList (c :: cs) = String.singleton c ++ String.ofList cs := by
        rw [String.singleton_eq_ofList, ← String.ofList_append]
        rfl
      rw [utf8Length_cons, ih, hsplit, String.utf8ByteSize_append, String.utf8ByteSize_singleton]
  rw [hofList, String.ofList_toList]

/-! ## Splits at a position -/

/-- Two splits of a text at the same byte are the same. -/
theorem append_inj_of_utf8Length {cs ds es fs : List Char} (h : cs ++ ds = es ++ fs)
    (hlen : utf8Length cs = utf8Length es) : cs = es ∧ ds = fs := by
  induction cs generalizing es with
  | nil =>
    cases es with
    | nil => exact ⟨rfl, h⟩
    | cons e es =>
      have hpos := e.utf8Size_pos
      rw [utf8Length_nil, utf8Length_cons] at hlen
      omega
  | cons c cs ih =>
    cases es with
    | nil =>
      have hpos := c.utf8Size_pos
      rw [utf8Length_nil, utf8Length_cons] at hlen
      omega
    | cons e es =>
      rw [List.cons_append, List.cons_append, List.cons.injEq] at h
      obtain ⟨rfl, h⟩ := h
      rw [utf8Length_cons, utf8Length_cons] at hlen
      obtain ⟨rfl, rfl⟩ := ih h (by omega)
      exact ⟨rfl, rfl⟩

theorem dropBytes?_append (before rest : List Char) :
    dropBytes? (utf8Length before) (before ++ rest) = some rest := by
  induction before with
  | nil =>
    unfold dropBytes?
    rfl
  | cons c cs ih =>
    have hpos := c.utf8Size_pos
    obtain ⟨n, hn⟩ : ∃ n, utf8Length (c :: cs) = n + 1 := by
      rw [utf8Length_cons]
      exact ⟨c.utf8Size + utf8Length cs - 1, by omega⟩
    rw [hn, List.cons_append, dropBytes?]
    rw [utf8Length_cons] at hn
    have hrest : n + 1 - c.utf8Size = utf8Length cs := by omega
    rw [if_pos (by omega), hrest, ih]

/-- What is left after a number of bytes follows some characters of that many bytes. -/
theorem exists_of_dropBytes? {n : Nat} {cs rest : List Char} (h : dropBytes? n cs = some rest) :
    ∃ before, cs = before ++ rest ∧ utf8Length before = n := by
  fun_induction dropBytes? n cs with
  | case1 cs =>
    cases h
    exact ⟨[], rfl, rfl⟩
  | case2 n => cases h
  | case3 n c cs hle ih =>
    obtain ⟨before, rfl, hlen⟩ := ih h
    exact ⟨c :: before, rfl, by rw [utf8Length_cons]; omega⟩
  | case4 n c cs hgt => cases h

/-! ## Parts of a text -/

/-- The characters stand in the text between two byte positions. -/
def Spans (text : String) (start stop : Nat) (cs : List Char) : Prop :=
  ∃ before after, text.toList = before ++ cs ++ after
    ∧ utf8Length before = start ∧ start + utf8Length cs = stop

namespace Spans

variable {text : String} {start middle stop : Nat} {cs ds : List Char}

theorem eq (h : Spans text start stop cs) (h' : Spans text start stop ds) : cs = ds := by
  obtain ⟨before, after, htext, hbefore, hstop⟩ := h
  obtain ⟨before', after', htext', hbefore', hstop'⟩ := h'
  rw [htext, List.append_assoc, List.append_assoc] at htext'
  have hrest := (append_inj_of_utf8Length htext' (hbefore.trans hbefore'.symm)).2
  exact (append_inj_of_utf8Length hrest (by omega)).1

/-- At one position stands one character. -/
theorem head_eq {stop' : Nat} {c d : Char} (h : Spans text start stop (c :: cs))
    (h' : Spans text start stop' (d :: ds)) : c = d := by
  obtain ⟨before, after, htext, hbefore, -⟩ := h
  obtain ⟨before', after', htext', hbefore', -⟩ := h'
  rw [htext, List.append_assoc, List.append_assoc] at htext'
  have hrest := (append_inj_of_utf8Length htext' (hbefore.trans hbefore'.symm)).2
  exact (List.cons.inj hrest).1

theorem append (h : Spans text start middle cs) (h' : Spans text middle stop ds) :
    Spans text start stop (cs ++ ds) := by
  obtain ⟨before, after, htext, hbefore, hmiddle⟩ := h
  obtain ⟨before', after', htext', hbefore', hstop⟩ := h'
  -- The middle is one position, so both splits of the text there are the same.
  have hsame : before ++ cs ++ after = before' ++ (ds ++ after') := by
    rw [← htext, htext', List.append_assoc]
  have hsplit := append_inj_of_utf8Length hsame (by rw [utf8Length_append]; omega)
  refine ⟨before, after', ?_, hbefore, by rw [utf8Length_append]; omega⟩
  rw [htext, hsplit.2]
  simp only [List.append_assoc]

/-- What stands in the text stands there in parts. -/
theorem left (h : Spans text start stop (cs ++ ds)) :
    Spans text start (start + utf8Length cs) cs := by
  obtain ⟨before, after, htext, hbefore, -⟩ := h
  exact ⟨before, ds ++ after, by rw [htext]; simp, hbefore, rfl⟩

theorem right (h : Spans text start stop (cs ++ ds)) :
    Spans text (start + utf8Length cs) stop ds := by
  obtain ⟨before, after, htext, hbefore, hstop⟩ := h
  rw [utf8Length_append] at hstop
  exact ⟨before ++ cs, after, by rw [htext]; simp, by rw [utf8Length_append, hbefore], by omega⟩

/-- Where something stands its first character does. -/
theorem first {c : Char} (h : Spans text start stop (c :: cs)) :
    Spans text start (start + c.utf8Size) [c] := by
  rw [← List.singleton_append] at h
  exact h.left

theorem le_size (h : Spans text start stop cs) : stop ≤ text.utf8ByteSize := by
  obtain ⟨before, after, htext, hbefore, hstop⟩ := h
  rw [← utf8Length_toList, htext, utf8Length_append, utf8Length_append]
  omega

/-- Nothing stands at the end of a text. -/
theorem nil_at_end (text : String) : Spans text text.utf8ByteSize text.utf8ByteSize [] :=
  ⟨text.toList, [], by simp, utf8Length_toList text, rfl⟩

/-- Between its start and its end stands the whole text. -/
theorem whole (text : String) : Spans text 0 text.utf8ByteSize text.toList :=
  ⟨[], [], by simp, rfl, by rw [Nat.zero_add, utf8Length_toList]⟩

end Spans

end BranchingDialogue
