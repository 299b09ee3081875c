import BranchingDialogue.Document.Excerpt
import BranchingDialogue.Proofs.Text.Bytes

/-!
# What is cut out of a text

An excerpt is cut out around a byte of a text, which may lie inside a character. `Marks` says what an
excerpt shows of its text: it is a part of it, cut between characters, and its mark is in one of the
characters of that part. The one it is in is the one that the byte belongs to: `around_marks`.

To tell which byte that is a text is split into lines, whose end belongs to them. They are its parts in
order, so each starts after the bytes of those before it (`exists_lines_around`).
-/

namespace BranchingDialogue

namespace Excerpt

/-! ## Counting characters by their bytes -/

theorem utf8Length_take_charsWithin (n : Nat) (cs : List Char) :
    utf8Length (cs.take (charsWithin n cs)) ≤ n := by
  fun_induction charsWithin n cs with
  | case1 n => simp
  | case2 n c cs h ih =>
    rw [List.take_succ_cons, utf8Length_cons]
    omega
  | case3 n c cs h => simp

/-- A character that reaches past a number of bytes is not within them. -/
theorem charsWithin_le_length {n : Nat} {before after : List Char} {c : Char}
    (h : n < utf8Length before + c.utf8Size) :
    charsWithin n (before ++ c :: after) ≤ before.length := by
  induction before generalizing n with
  | nil =>
    rw [utf8Length_nil, Nat.zero_add] at h
    rw [List.nil_append, charsWithin, if_neg (by omega)]
    simp
  | cons d before ih =>
    rw [utf8Length_cons] at h
    rw [List.cons_append, charsWithin]
    split
    · have hrest := ih (n := n - d.utf8Size) (by omega)
      rw [List.length_cons]
      omega
    · simp

/-- A character that starts before so many bytes are full is needed to cover them. -/
theorem length_lt_charsCovering {n : Nat} {before after : List Char} {c : Char}
    (h : utf8Length before < n) :
    before.length < charsCovering n (before ++ c :: after) := by
  induction before generalizing n with
  | nil =>
    rw [utf8Length_nil] at h
    rw [List.nil_append, charsCovering, if_neg (by omega)]
    simp
  | cons d before ih =>
    rw [utf8Length_cons] at h
    have hrest := ih (n := n - d.utf8Size) (by omega)
    rw [List.cons_append, charsCovering, if_neg (by omega), List.length_cons]
    omega

/-! ## What is cut out -/

/-- An excerpt of a text from a byte position on marks a character of it, which stands at a byte
position of its own. The mark is somewhere in that character. -/
structure Marks (e : Excerpt) (text : String) (start : Nat) (c : Char) (position : Nat) : Prop where
  excerpt : Spans text start (start + utf8Length e.text.toList) e.text.toList
  character : Spans text position (position + c.utf8Size) [c]
  inside : start ≤ position ∧ position + c.utf8Size ≤ start + utf8Length e.text.toList
  mark : position ≤ start + e.offset ∧ start + e.offset < position + c.utf8Size
  length : e.length = 1

/-- What is cut out around a character: so many characters of the text before it and after it. -/
theorem exists_around_eq {before : List Char} (after : List Char) {c : Char} {offset : Nat}
    (hlow : utf8Length before ≤ offset) (hhigh : offset < utf8Length before + c.utf8Size) :
    ∃ left front back right, before = left ++ front ∧ after = back ++ right
      ∧ utf8Length left ≤ offset
      ∧ around (before ++ c :: after) offset
        = ⟨String.ofList (front ++ c :: back), offset - utf8Length left, 1⟩ := by
  generalize hfirst : charsWithin (offset - reach) (before ++ c :: after) = first
  generalize hstop : charsCovering (offset + 1 + reach) (before ++ c :: after) = stop
  have hle : first ≤ before.length := hfirst ▸ charsWithin_le_length (by omega)
  have hlt : before.length < stop := hstop ▸ length_lt_charsCovering (by omega)
  obtain ⟨k, rfl⟩ : ∃ k, stop = before.length + (k + 1) := ⟨stop - (before.length + 1), by omega⟩
  have hleft : (before ++ c :: after).take first = before.take first :=
    List.take_append_of_le_length hle
  -- The cut is made before the character at the front and after it at the back.
  have hwindow : ((before ++ c :: after).take (before.length + (k + 1))).drop first
      = before.drop first ++ c :: after.take k := by
    rw [List.take_append, List.take_of_length_le (by omega), Nat.add_sub_cancel_left,
      List.take_succ_cons, List.drop_append_of_le_length hle]
  have hwithin : utf8Length (before.take first) ≤ offset - reach := by
    rw [← hleft, ← hfirst]
    exact utf8Length_take_charsWithin _ _
  have hbefore : utf8Length (before.take first) + utf8Length (before.drop first)
      = utf8Length before := by
    rw [← utf8Length_append, List.take_append_drop]
  refine ⟨before.take first, before.drop first, after.take k, after.drop k,
    (List.take_append_drop ..).symm, (List.take_append_drop ..).symm, by omega, ?_⟩
  simp only [around, hfirst, hstop, hwindow, hleft, utf8Length_append, utf8Length_cons]
  rw [if_pos (by omega)]

/-- **The excerpt around a byte marks the character that the byte belongs to.** -/
theorem around_marks {text : String} {before after : List Char} {c : Char} {offset : Nat}
    (htext : text.toList = before ++ c :: after) (hlow : utf8Length before ≤ offset)
    (hhigh : offset < utf8Length before + c.utf8Size) :
    ∃ start, (around text.toList offset).Marks text start c (utf8Length before)
      ∧ start + (around text.toList offset).offset = offset := by
  obtain ⟨left, front, back, right, rfl, rfl, hle, haround⟩ := exists_around_eq after hlow hhigh
  rw [htext, haround]
  rw [utf8Length_append] at hlow hhigh
  refine ⟨utf8Length left, ⟨?_, ?_, ?_, ?_, rfl⟩, ?_⟩
  · exact ⟨left, right, by simp [htext], rfl, rfl⟩
  · exact ⟨left ++ front, back ++ right, by simp [htext], rfl, by simp⟩
  · simp only [String.toList_ofList, utf8Length_append, utf8Length_cons]
    omega
  · simp only [utf8Length_append]
    omega
  · simp only
    omega

/-! ## Lines -/

theorem lines_newline (cs : List Char) : lines ('\n' :: cs) = ['\n'] :: lines cs := by
  rw [lines, if_pos rfl]

/-- A character that does not end its line stands in front of the rest of it. -/
theorem lines_cons {c : Char} (hc : c ≠ '\n') (cs : List Char) :
    lines (c :: cs) = (c :: (lines cs).headD []) :: (lines cs).tail := by
  rw [lines, if_neg hc]
  cases lines cs <;> rfl

theorem lines_eq_nil_iff {cs : List Char} : lines cs = [] ↔ cs = [] := by
  cases cs with
  | nil => exact iff_of_true rfl rfl
  | cons c cs =>
    refine iff_of_false ?_ (List.cons_ne_nil c cs)
    by_cases hc : c = '\n'
    · rw [hc, lines_newline]
      exact List.cons_ne_nil _ _
    · rw [lines_cons hc]
      exact List.cons_ne_nil _ _

/-- The lines of a text are its parts. -/
theorem flatten_lines (cs : List Char) : (lines cs).flatten = cs := by
  induction cs with
  | nil => rfl
  | cons c cs ih =>
    by_cases hc : c = '\n'
    · rw [hc, lines_newline, List.flatten_cons, ih, List.singleton_append]
    · rw [lines_cons hc, List.flatten_cons, List.cons_append]
      congr 1
      cases hlines : lines cs with
      | nil => rw [lines_eq_nil_iff.1 hlines]; rfl
      | cons line rest => rw [← ih, hlines, List.headD_cons, List.tail_cons, List.flatten_cons]

/-- The byte at which a line starts, the lines counted from zero. -/
def lineStart (cs : List Char) (l : Nat) : Nat := utf8Length ((lines cs).take l).flatten

theorem lineStart_zero (cs : List Char) : lineStart cs 0 = 0 := rfl

theorem lineStart_newline (cs : List Char) (l : Nat) :
    lineStart ('\n' :: cs) (l + 1) = 1 + lineStart cs l := by
  rw [lineStart, lines_newline, List.take_succ_cons, List.flatten_cons, utf8Length_append]
  rfl

theorem lineStart_cons {c : Char} (hc : c ≠ '\n') (cs : List Char) (l : Nat) :
    lineStart (c :: cs) (l + 1) = c.utf8Size + lineStart cs (l + 1) := by
  rw [lineStart, lineStart, lines_cons hc, List.take_succ_cons, List.flatten_cons,
    utf8Length_append, utf8Length_cons]
  cases lines cs with
  | nil => simp
  | cons line rest => simp [Nat.add_assoc]

/-- A line of a text stands between those before it and those after it. -/
theorem exists_lines_around {cs line : List Char} {l : Nat} (h : (lines cs)[l]? = some line) :
    ∃ before after, cs = before ++ line ++ after ∧ utf8Length before = lineStart cs l := by
  obtain ⟨hl, rfl⟩ := List.getElem?_eq_some_iff.1 h
  refine ⟨((lines cs).take l).flatten, ((lines cs).drop (l + 1)).flatten, ?_, rfl⟩
  rw [List.append_assoc, ← List.flatten_cons, List.getElem_cons_drop, ← List.flatten_append,
    List.take_append_drop, flatten_lines]

end Excerpt

end BranchingDialogue
