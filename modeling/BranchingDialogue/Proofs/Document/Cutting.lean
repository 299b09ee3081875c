import BranchingDialogue.Proofs.Document.Excerpts
import BranchingDialogue.Proofs.Text.Cuts

/-!
# Excerpts are cut out safely

An excerpt is so many bytes to either side of its mark, widened to the next cut. Counted in characters
this is what `around` takes; `takeOut?` does it with the bytes, where a wrong position would be a fault.
The characters that `around` counts end at the nearest cuts, so the two agree for every position
(`takeOut?_eq`), and nothing about a position needs to be known for that.

A place is marked at a byte of the text, whatever its line and column are, unless the text is empty
(`offsetOf_lt`). So the excerpt has that byte in it, and its mark is in the character that the byte
belongs to: `cutsSafely_around`.
-/

namespace BranchingDialogue.Excerpt

variable {cs : List Char} {n m offset : Nat}

/-! ## Cuts found by counting characters -/

theorem isGreatest_charsWithin (n : Nat) (cs : List Char) :
    IsGreatest {b | IsCut cs b ∧ b ≤ n} (utf8Length (cs.take (charsWithin n cs))) := by
  refine ⟨⟨⟨_, _, (List.take_append_drop _ cs).symm, rfl⟩, utf8Length_take_charsWithin n cs⟩, ?_⟩
  rintro b ⟨⟨before, after, rfl, rfl⟩, hle⟩
  induction before generalizing n with
  | nil => exact Nat.zero_le _
  | cons c before ih =>
    rw [utf8Length_cons] at hle
    have hrest := ih (n - c.utf8Size) (by omega)
    rw [List.cons_append, charsWithin, if_pos (by omega), List.take_succ_cons, utf8Length_cons,
      utf8Length_cons]
    omega

theorem le_utf8Length_take_charsCovering (n : Nat) (cs : List Char) :
    min n (utf8Length cs) ≤ utf8Length (cs.take (charsCovering n cs)) := by
  fun_induction charsCovering n cs with
  | case1 n => simp
  | case2 c cs => simp
  | case3 n c cs hn ih =>
    rw [List.take_succ_cons, utf8Length_cons, utf8Length_cons]
    omega

theorem isLeast_charsCovering (n : Nat) (cs : List Char) :
    IsLeast {b | IsCut cs b ∧ min n (utf8Length cs) ≤ b}
      (utf8Length (cs.take (charsCovering n cs))) := by
  refine ⟨⟨⟨_, _, (List.take_append_drop _ cs).symm, rfl⟩, le_utf8Length_take_charsCovering n cs⟩, ?_⟩
  rintro b ⟨⟨before, after, rfl, rfl⟩, hle⟩
  induction before generalizing n with
  | nil =>
    cases after with
    | nil => exact Nat.le_refl 0
    | cons c after =>
      -- Nothing covers nothing only if no byte is to be covered.
      have hpos := c.utf8Size_pos
      rw [List.nil_append, utf8Length_cons, utf8Length_nil] at hle
      rw [List.nil_append, charsCovering, if_pos (by omega)]
      exact Nat.le_refl 0
  | cons c before ih =>
    rw [List.cons_append, utf8Length_cons, utf8Length_cons] at hle
    rw [List.cons_append, charsCovering]
    split
    · exact Nat.zero_le _
    · have hrest := ih (n - c.utf8Size) (by omega)
      rw [List.take_succ_cons, utf8Length_cons, utf8Length_cons]
      omega

/-- What covers more bytes has all characters that are within fewer. -/
theorem charsWithin_le_charsCovering (h : n ≤ m) (cs : List Char) :
    charsWithin n cs ≤ charsCovering m cs := by
  induction cs generalizing n m with
  | nil => exact Nat.le_refl 0
  | cons c cs ih =>
    have hpos := c.utf8Size_pos
    rw [charsWithin, charsCovering]
    split
    · rw [if_neg (by omega)]
      exact Nat.succ_le_succ (ih (by omega))
    · exact Nat.zero_le _

/-! ## The excerpt by its bytes -/

/-- The byte that the excerpt around a byte position begins with. -/
def startOf (cs : List Char) (offset : Nat) : Nat := cutBelow cs (offset - reach)

/-- The byte after the excerpt around a byte position. -/
def stopOf (cs : List Char) (offset : Nat) : Nat :=
  cutAbove cs (min (offset + 1 + reach) (utf8Length cs))

/-- The excerpt around a byte position, taken out of the bytes of the text. -/
def takeOut? (text : String) (offset : Nat) : Option Excerpt :=
  let start := startOf text.toList offset
  (slice? text start (stopOf text.toList offset)).map fun part =>
    { text := String.ofList part, offset := offset - start,
      length := if offset - start < utf8Length part then 1 else 0 }

theorem startOf_eq (cs : List Char) (offset : Nat) :
    startOf cs offset = utf8Length (cs.take (charsWithin (offset - reach) cs)) :=
  (isGreatest_cutBelow cs _).unique (isGreatest_charsWithin _ cs)

theorem stopOf_eq (cs : List Char) (offset : Nat) :
    stopOf cs offset = utf8Length (cs.take (charsCovering (offset + 1 + reach) cs)) :=
  (isLeast_cutAbove (Nat.min_le_right _ _)).unique (isLeast_charsCovering _ cs)

/-- An excerpt is what stands in the text between two cuts. -/
theorem spans_around (text : String) (offset : Nat) :
    Spans text (startOf text.toList offset) (stopOf text.toList offset)
      (around text.toList offset).text.toList := by
  have hle := charsWithin_le_charsCovering (n := offset - reach) (m := offset + 1 + reach)
    (by omega) text.toList
  rw [startOf_eq, stopOf_eq]
  simp only [around, String.toList_ofList]
  generalize charsWithin (offset - reach) text.toList = first at hle
  generalize charsCovering (offset + 1 + reach) text.toList = last at hle
  have hwindow : text.toList.take first ++ (text.toList.take last).drop first
      = text.toList.take last := by
    conv_rhs => rw [← List.take_append_drop first (text.toList.take last)]
    rw [List.take_take, Nat.min_eq_left hle]
  refine ⟨text.toList.take first, text.toList.drop last, ?_, rfl, ?_⟩
  · rw [hwindow, List.take_append_drop]
  · rw [← utf8Length_append, hwindow]

/-- **Taking an excerpt out of the bytes never fails**, and it is the one that is counted out. -/
theorem takeOut?_eq (text : String) (offset : Nat) :
    takeOut? text offset = some (around text.toList offset) := by
  rw [takeOut?, slice?_eq_some_iff.2 (spans_around text offset), Option.map_some, startOf_eq]
  simp only [around, String.toList_ofList]

/-- In the text and in its excerpt the mark is at the same byte. -/
theorem startOf_add_offset (cs : List Char) (offset : Nat) :
    startOf cs offset + (around cs offset).offset = offset := by
  have hle : startOf cs offset ≤ offset - reach := (isGreatest_cutBelow cs _).1.2
  have hmark : (around cs offset).offset = offset - startOf cs offset := by
    rw [startOf_eq]
    rfl
  omega

/-! ## The byte that is marked -/

theorem ne_nil_of_mem_lines {line : List Char} (h : line ∈ lines cs) : line ≠ [] := by
  induction cs with
  | nil => cases h
  | cons c cs ih =>
    by_cases hc : c = '\n'
    · rw [hc, lines_newline, List.mem_cons] at h
      rcases h with rfl | h
      · exact List.cons_ne_nil _ _
      · exact ih h
    · rw [lines_cons hc, List.mem_cons] at h
      rcases h with rfl | h
      · exact List.cons_ne_nil _ _
      · exact ih (List.mem_of_mem_tail h)

theorem offsetOf_nil (p : Json.Place) : offsetOf p [] = 0 := by
  rw [offsetOf]
  split <;> rfl

/-- **Whatever its line and its column are, a place is marked at a byte of the text.** -/
theorem offsetOf_lt (p : Json.Place) (h : cs ≠ []) : offsetOf p cs < utf8Length cs := by
  have hpos : cs.length ≤ utf8Length cs := length_le_utf8Length cs
  have hlength := List.length_pos_iff.2 h
  rw [offsetOf]
  split
  · omega
  · split
    · omega
    · next row hrow =>
      obtain ⟨before, after, hcs, hstart⟩ := exists_lines_around hrow
      have hne := ne_nil_of_mem_lines (List.mem_of_getElem? hrow)
      have hbytes : utf8Length before + utf8Length row ≤ utf8Length cs := by
        rw [hcs, utf8Length_append, utf8Length_append]
        omega
      rw [lineStart] at hstart
      simp only [← hstart]
      split
      · next hcolumn =>
        -- The character that the column counts is in the line, after those before it.
        have hsplit := List.take_append_drop (p.column - 1) row
        rw [List.drop_eq_getElem_cons hcolumn] at hsplit
        rw [← hsplit, utf8Length_append, utf8Length_cons] at hbytes
        have hchar := row[p.column - 1].utf8Size_pos
        omega
      · have hrowBytes := length_le_utf8Length row
        have hrowPos := List.length_pos_iff.2 hne
        omega

/-! ## What an excerpt shows -/

/-- An excerpt is cut safely out of a text around a byte position. -/
structure CutsSafely (e : Excerpt) (text : String) (offset : Nat) : Prop where
  /-- It can be taken out of the bytes of the text. -/
  taken : takeOut? text offset = some e
  /-- It is a part of the text between two cuts. -/
  part : Spans text (startOf text.toList offset) (stopOf text.toList offset) e.text.toList
  /-- The mark is at the position, and the byte there is in the excerpt if the text has any. -/
  mark : startOf text.toList offset + e.offset = offset
  contains : text ≠ "" → offset < stopOf text.toList offset
  /-- The mark has one byte, or none if there is no byte, and is in the excerpt. -/
  length : e.length = if text = "" then 0 else 1
  inside : e.offset + e.length ≤ e.text.utf8ByteSize
  /-- Moved down to a cut it is at the same character in the text and in the excerpt. -/
  character : text ≠ "" → ∃ c,
    Spans text (cutBelow text.toList offset) (cutBelow text.toList offset + c.utf8Size) [c]
      ∧ Spans e.text (cutBelow e.text.toList e.offset)
          (cutBelow e.text.toList e.offset + c.utf8Size) [c]
      ∧ startOf text.toList offset + cutBelow e.text.toList e.offset = cutBelow text.toList offset

theorem cutsSafely_empty : (around [] 0).CutsSafely "" 0 where
  taken := takeOut?_eq "" 0
  part := spans_around "" 0
  mark := startOf_add_offset [] 0
  contains := fun h => absurd rfl h
  length := rfl
  inside := Nat.le_refl 0
  character := fun h => absurd rfl h

/-- Around any byte of a text an excerpt is cut safely. -/
theorem cutsSafely_of_lt {text : String} (h : offset < utf8Length text.toList) :
    (around text.toList offset).CutsSafely text offset := by
  obtain ⟨before, c, after, htext, hlow, hhigh⟩ := exists_char_of_lt h
  have hne : text ≠ "" := by
    rintro rfl
    cases h
  have hcut : cutBelow text.toList offset = utf8Length before := htext ▸ cutBelow_eq hlow hhigh
  have hmark := startOf_add_offset text.toList offset
  obtain ⟨left, front, back, right, rfl, rfl, hleft, haround⟩ := exists_around_eq after hlow hhigh
  rw [← htext] at haround
  rw [utf8Length_append] at hlow hhigh
  -- The character has as much of the excerpt before it as of the text between the cut and itself.
  have hstart : startOf text.toList offset = utf8Length left := by
    rw [haround] at hmark
    simp only at hmark
    omega
  have hfront : cutBelow (front ++ c :: back) (offset - utf8Length left) = utf8Length front :=
    cutBelow_eq (by omega) (by omega)
  have hchars : (around text.toList offset).text.toList = front ++ c :: back := by
    rw [haround, String.toList_ofList]
  have hoffset : (around text.toList offset).offset = offset - utf8Length left := by rw [haround]
  have hlength : (around text.toList offset).length = 1 := by rw [haround]
  obtain ⟨_, _, _, _, hstop⟩ := spans_around text offset
  rw [hchars, hstart, utf8Length_append, utf8Length_cons] at hstop
  have hspan : (around text.toList offset).length = if text = "" then 0 else 1 := by
    rw [hlength, if_neg hne]
  refine ⟨takeOut?_eq text offset, spans_around text offset, hmark, fun _ => by omega, hspan, ?_,
    fun _ => ⟨c, ?_, ?_, ?_⟩⟩
  · rw [← utf8Length_toList, hchars, hoffset, hlength, utf8Length_append, utf8Length_cons]
    omega
  · rw [hcut]
    exact ⟨left ++ front, back ++ right, by simp [htext], rfl, by simp⟩
  · rw [hchars, hoffset, hfront]
    exact ⟨front, back, by simp [hchars], rfl, by simp⟩
  · rw [hchars, hoffset, hfront, hcut, hstart, utf8Length_append]

/-- **An excerpt is always safe to cut out and to underline.** Whatever line and column a fault is
reported at, it is marked at a byte of the text, if that has any. The excerpt is what stands between
two cuts around that byte, so it can be taken out, the mark lies in it, and moved down to a cut the mark
is at the same character in the text and in the excerpt. -/
theorem cutsSafely_around (text : String) (p : Json.Place) :
    (if text = "" then offsetOf p text.toList = 0 else offsetOf p text.toList < text.utf8ByteSize)
      ∧ (around text.toList (offsetOf p text.toList)).CutsSafely text (offsetOf p text.toList) := by
  by_cases hempty : text = ""
  · subst hempty
    have hzero : offsetOf p "".toList = 0 := offsetOf_nil p
    rw [if_pos rfl, hzero]
    exact ⟨rfl, cutsSafely_empty⟩
  · have hlt : offsetOf p text.toList < utf8Length text.toList :=
      offsetOf_lt p (by simpa using hempty)
    rw [if_neg hempty, ← utf8Length_toList]
    exact ⟨hlt, cutsSafely_of_lt hlt⟩

/-- A column past the end of its line is marked at the last byte of a character of two bytes. -/
example :
    around "aé".toList (offsetOf ⟨1, 7⟩ "aé".toList) = ⟨"aé", 2, 1⟩
      ∧ cutBelow "aé".toList 2 = 1 := by
  decide +kernel

end BranchingDialogue.Excerpt
