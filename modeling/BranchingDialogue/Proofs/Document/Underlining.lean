import BranchingDialogue.Proofs.Document.Excerpts

/-!
# Where faults are underlined

A reader of JSON places a fault at the last byte that it has read, by a line and a column that counts
the bytes of the line (`Fault.place_inside`). The excerpt is marked as many characters into the line as
the column says. So it underlines the fault if all characters before it have one byte each, and
otherwise, but for the line's last character, something further on: `underlines_iff`.
-/

namespace BranchingDialogue

/-! ## Places -/

namespace Json

open Excerpt (lines lineStart lines_newline lines_cons lineStart_zero lineStart_newline lineStart_cons)

/-- The byte of a place: the column counts the bytes of the line, from one. -/
def Place.byte (p : Place) (text : String) : Nat :=
  lineStart text.toList (p.line - 1) + (p.column - 1)

/-- A place is at a byte of a line, which may be one of those that end it. -/
structure Place.Inside (p : Place) (text : String) (line : List Char) : Prop where
  line_pos : 1 ≤ p.line
  column_pos : 1 ≤ p.column
  line_eq : (lines text.toList)[p.line - 1]? = some line
  column_le : p.column ≤ utf8Length line

/-- Some bytes further on in a text a place is so many lines further down, and its column counts the
bytes of that line which are among them. -/
structure Reaches (cs : List Char) (n : Nat) (p q : Place) (l : Nat) : Prop where
  line : q.line = p.line + l
  column : q.column + lineStart cs l = (if l = 0 then p.column else 0) + n
  within : lineStart cs l < n →
    ∃ line, (lines cs)[l]? = some line ∧ n ≤ lineStart cs l + utf8Length line

namespace Reaches

variable {cs : List Char} {n l : Nat} {p q : Place} {c : Char}

theorem start (cs : List Char) (p : Place) : Reaches cs 0 p p 0 :=
  ⟨rfl, rfl, fun h => absurd h (Nat.not_lt_zero _)⟩

/-- Inside a character. -/
theorem part (hc : c ≠ '\n') (hn : n ≤ c.utf8Size) :
    Reaches (c :: cs) n p ⟨p.line, p.column + n⟩ 0 := by
  refine ⟨rfl, rfl, fun _ => ⟨_, by rw [lines_cons hc, List.getElem?_cons_zero], ?_⟩⟩
  rw [lineStart_zero, utf8Length_cons]
  omega

/-- Past the end of a line, where columns are counted anew. -/
theorem newline (hn : n ≠ 0) (h : Reaches cs (n - 1) ⟨p.line + 1, 0⟩ q l) :
    Reaches ('\n' :: cs) n p q (l + 1) := by
  obtain ⟨hline, hcolumn, hwithin⟩ := h
  simp only [ite_self] at hline hcolumn
  refine ⟨by omega, ?_, ?_⟩ <;> rw [lineStart_newline]
  · rw [if_neg (Nat.succ_ne_zero l)]
    omega
  · intro hlt
    obtain ⟨line, hl, hle⟩ := hwithin (by omega)
    exact ⟨line, by rwa [lines_newline, List.getElem?_cons_succ], by omega⟩

/-- Past a character inside a line. -/
theorem cons (hc : c ≠ '\n') (hn : c.utf8Size ≤ n)
    (h : Reaches cs (n - c.utf8Size) ⟨p.line, p.column + c.utf8Size⟩ q l) :
    Reaches (c :: cs) n p q l := by
  obtain ⟨hline, hcolumn, hwithin⟩ := h
  simp only at hline hcolumn
  cases l with
  | zero =>
    rw [if_pos rfl, lineStart_zero] at hcolumn
    refine ⟨hline, by rw [if_pos rfl, lineStart_zero]; omega, fun _ => ?_⟩
    refine ⟨_, by rw [lines_cons hc, List.getElem?_cons_zero], ?_⟩
    rw [lineStart_zero] at hwithin
    rw [lineStart_zero, utf8Length_cons]
    by_cases hmore : 0 < n - c.utf8Size
    · obtain ⟨line, hl, hle⟩ := hwithin hmore
      rw [List.headD_eq_head?_getD, List.head?_eq_getElem?, hl, Option.getD_some]
      omega
    · omega
  | succ l =>
    rw [if_neg (Nat.succ_ne_zero l)] at hcolumn
    refine ⟨hline, ?_, ?_⟩ <;> rw [lineStart_cons hc]
    · rw [if_neg (Nat.succ_ne_zero l)]
      omega
    · intro hlt
      obtain ⟨line, hl, hle⟩ := hwithin (by omega)
      have hsame : (lines (c :: cs))[l + 1]? = some line := by
        rwa [lines_cons hc, List.getElem?_cons_succ, List.getElem?_tail]
      exact ⟨line, hsame, by omega⟩

end Reaches

/-- Reading takes a place to where so many bytes of the text have been read. -/
theorem exists_reaches {n : Nat} {p : Place} {cs : List Char} (hn : n ≤ utf8Length cs) :
    ∃ l, Reaches cs n p (placeAfter n p cs) l := by
  fun_induction placeAfter n p cs with
  | case1 n p =>
    obtain rfl : n = 0 := Nat.le_zero.1 hn
    exact ⟨0, .start [] p⟩
  | case2 p c cs => exact ⟨0, .start _ p⟩
  | case3 n p cs hzero ih =>
    rw [utf8Length_cons, show ('\n' : Char).utf8Size = 1 from rfl] at hn
    obtain ⟨l, hreaches⟩ := ih (by omega)
    exact ⟨l + 1, hreaches.newline hzero⟩
  | case4 n p c cs hzero hc hle ih =>
    rw [utf8Length_cons] at hn
    obtain ⟨l, hreaches⟩ := ih (by omega)
    exact ⟨l, hreaches.cons hc hle⟩
  | case5 n p c cs hzero hc hgt => exact ⟨0, .part hc (Nat.le_of_not_le hgt)⟩

/-- **The place of a fault is the last byte that was read**, unless nothing of its line was read. -/
theorem Fault.place_inside {f : Fault} {text : String} (h : 1 ≤ (f.place text).column) :
    ∃ line, (f.place text).Inside text line
      ∧ (f.place text).byte text + 1 = text.utf8ByteSize - f.left := by
  have hn : text.utf8ByteSize - f.left ≤ utf8Length text.toList := by
    rw [utf8Length_toList]
    omega
  obtain ⟨l, hline, hcolumn, hwithin⟩ := exists_reaches (p := ⟨1, 0⟩) hn
  simp only [ite_self] at hline hcolumn
  rw [← Fault.place] at hline hcolumn
  obtain ⟨line, hl, hle⟩ := hwithin (by omega)
  have hindex : (f.place text).line - 1 = l := by omega
  refine ⟨line, ⟨by omega, h, by rwa [hindex], by omega⟩, ?_⟩
  rw [Place.byte, hindex]
  omega

end Json

namespace Excerpt

/-! ## What is marked -/

/-- Which character of its line a place is marked at: as many characters into the line as the column
says, or at the last one. -/
def marked (p : Json.Place) (row : List Char) : Nat := min (p.column - 1) (row.length - 1)

variable {p : Json.Place} {text : String} {row : List Char}

theorem row_ne_nil (h : p.Inside text row) : row ≠ [] := by
  rintro rfl
  have hpos := h.column_pos
  have hle := h.column_le
  rw [utf8Length_nil] at hle
  omega

theorem marked_lt_length (h : p.Inside text row) : marked p row < row.length := by
  have hlength := List.length_pos_iff.2 (row_ne_nil h)
  rw [marked]
  omega

/-- Where the column counts past all characters of the line its last one is marked. -/
theorem take_marked_of_length_lt (h : p.Inside text row) (hlength : row.length < p.column) {c : Char}
    (hc : row[marked p row]? = some c) :
    row.take (marked p row) = row.dropLast
      ∧ utf8Length row = utf8Length row.dropLast + c.utf8Size := by
  have hpos := List.length_pos_iff.2 (row_ne_nil h)
  have hlast : marked p row = row.length - 1 := Nat.min_eq_right (by omega)
  rw [hlast, ← List.getLast?_eq_getElem?] at hc
  refine ⟨by rw [hlast, List.dropLast_eq_take], ?_⟩
  obtain ⟨front, rfl⟩ := List.getLast?_eq_some_iff.1 hc
  rw [List.dropLast_concat, utf8Length_append, utf8Length_cons, utf8Length_nil, Nat.add_zero]

/-- The mark is put on the first byte of the marked character, or where the column counts past all
characters on its last byte. -/
theorem offsetOf_eq (h : p.Inside text row) {c : Char} (hc : row[marked p row]? = some c) :
    offsetOf p text.toList = lineStart text.toList (p.line - 1)
      + utf8Length (row.take (marked p row))
      + if p.column ≤ row.length then 0 else c.utf8Size - 1 := by
  have hline := h.line_pos
  have hcolumn := h.column_pos
  have hpos := c.utf8Size_pos
  rw [offsetOf, if_neg (by omega), h.line_eq]
  simp only [lineStart]
  by_cases hlength : p.column ≤ row.length
  · have hsame : marked p row = p.column - 1 := Nat.min_eq_left (by omega)
    rw [if_pos (by omega), if_pos hlength, hsame, Nat.add_zero]
  · obtain ⟨hbefore, hbytes⟩ := take_marked_of_length_lt h (by omega) hc
    rw [if_neg (by omega), if_neg hlength, hbefore, hbytes]
    omega

/-- **A place inside a line is marked at one of its characters.** -/
theorem marks_of_inside (h : p.Inside text row) :
    ∃ start c position, row[marked p row]? = some c
      ∧ position = lineStart text.toList (p.line - 1) + utf8Length (row.take (marked p row))
      ∧ (around text.toList (offsetOf p text.toList)).Marks text start c position
      ∧ start + (around text.toList (offsetOf p text.toList)).offset
        = position + if p.column ≤ row.length then 0 else c.utf8Size - 1 := by
  obtain ⟨c, hc⟩ : ∃ c, row[marked p row]? = some c :=
    ⟨_, List.getElem?_eq_getElem (marked_lt_length h)⟩
  have hpos := c.utf8Size_pos
  obtain ⟨before, after, htext, hstart⟩ := exists_lines_around h.line_eq
  have hsplit : text.toList = (before ++ row.take (marked p row))
      ++ c :: (row.drop (marked p row + 1) ++ after) := by
    obtain ⟨hmarked, rfl⟩ := List.getElem?_eq_some_iff.1 hc
    rw [List.append_assoc, ← List.cons_append, List.getElem_cons_drop, ← List.append_assoc _ _ after,
      List.take_append_drop, ← List.append_assoc, htext]
  have hposition : utf8Length (before ++ row.take (marked p row))
      = lineStart text.toList (p.line - 1) + utf8Length (row.take (marked p row)) := by
    rw [utf8Length_append, hstart]
  have hoffset := offsetOf_eq h hc
  rw [← hposition] at hoffset
  have hlow : utf8Length (before ++ row.take (marked p row)) ≤ offsetOf p text.toList := by
    omega
  have hhigh : offsetOf p text.toList
      < utf8Length (before ++ row.take (marked p row)) + c.utf8Size := by
    rw [hoffset]
    split <;> omega
  obtain ⟨start, hmarks, hmark⟩ := around_marks hsplit hlow hhigh
  exact ⟨start, c, _, hc, hposition, hmarks, hmark.trans hoffset⟩

/-- **When the mark is where it should be.** The byte of a place belongs to the marked character if
only characters of one byte are counted by the column, or if the byte belongs to the line's last
character, and in no other case. -/
theorem byte_in_marked_iff (h : p.Inside text row) {c : Char} (hc : row[marked p row]? = some c) :
    (utf8Length (row.take (marked p row)) ≤ p.column - 1
        ∧ p.column - 1 < utf8Length (row.take (marked p row)) + c.utf8Size)
      ↔ (∀ d ∈ row.take (p.column - 1), d.utf8Size = 1) ∨ utf8Length row.dropLast < p.column := by
  have hcolumn := h.column_pos
  have hpos := c.utf8Size_pos
  have hdropLast := length_le_utf8Length row.dropLast
  rw [List.length_dropLast] at hdropLast
  by_cases hlt : p.column - 1 < row.length
  · have hsame : marked p row = p.column - 1 := Nat.min_eq_left (by omega)
    have hlength : (row.take (p.column - 1)).length = p.column - 1 :=
      List.length_take_of_le (Nat.le_of_lt hlt)
    have hall : utf8Length (row.take (p.column - 1)) ≤ (row.take (p.column - 1)).length ↔ _ :=
      utf8Length_le_length_iff
    have hle := length_le_utf8Length (row.take (p.column - 1))
    rw [hlength] at hall hle
    rw [hsame, ← hall]
    constructor
    · exact fun hbyte => .inl hbyte.1
    · rintro (hbyte | hlast)
      · exact ⟨hbyte, by omega⟩
      · -- The line's last character is the one that the column counts, and those before it are one byte.
        have hend : p.column - 1 = row.length - 1 := by omega
        rw [List.dropLast_eq_take, ← hend] at hlast
        omega
  · obtain ⟨hbefore, hbytes⟩ := take_marked_of_length_lt h (by omega) hc
    have hin := h.column_le
    rw [hbefore]
    constructor
    · exact fun hbyte => .inr (by omega)
    · rintro (hbyte | hbyte)
      · rw [List.take_of_length_le (by omega), ← utf8Length_le_length_iff] at hbyte
        omega
      · omega

/-- **What is underlined, and when it is the fault.** For every place inside a line the excerpt is a
part of the text, and its mark is in the character of the line that the column would be at if it
counted characters, or else in the last one. The byte of the place belongs to that character exactly
if only characters of one byte stand before it, or if it belongs to the line's last character. Such a
place is what a fault reports, unless nothing of its line was read, and its byte is the last one read. -/
theorem underlines_iff (text : String) :
    (∀ (p : Json.Place) (row : List Char), p.Inside text row →
        ∃ start c position, row[marked p row]? = some c
          ∧ position = lineStart text.toList (p.line - 1) + utf8Length (row.take (marked p row))
          ∧ (around text.toList (offsetOf p text.toList)).Marks text start c position
          ∧ start + (around text.toList (offsetOf p text.toList)).offset
            = position + (if p.column ≤ row.length then 0 else c.utf8Size - 1)
          ∧ ((position ≤ p.byte text ∧ p.byte text < position + c.utf8Size)
            ↔ (∀ d ∈ row.take (p.column - 1), d.utf8Size = 1)
              ∨ utf8Length row.dropLast < p.column))
      ∧ ∀ f : Json.Fault, 1 ≤ (f.place text).column →
          ∃ row, (f.place text).Inside text row
            ∧ (f.place text).byte text + 1 = text.utf8ByteSize - f.left := by
  refine ⟨fun p row h => ?_, fun f => Json.Fault.place_inside⟩
  obtain ⟨start, c, position, hc, hposition, hmarks, hmark⟩ := marks_of_inside h
  refine ⟨start, c, position, hc, hposition, hmarks, hmark, ?_⟩
  rw [← byte_in_marked_iff h hc, Json.Place.byte]
  omega

/-- A document with a stray comma after a title of six bytes in two characters. -/
def wide : String := "\x7b\"ObjectID\": \"会話\", \"Nodes\": [,], \"Version\": 1\x7d"

/-- The comma is at byte 33, counted from zero, and the mark is four bytes further on. -/
theorem underlines_iff_wide :
    ∃ f : Json.Fault, f.place wide = ⟨1, 34⟩ ∧ (f.place wide).byte wide = 33
      ∧ Spans wide 33 34 [','] ∧ ∃ start, (ofFault f wide).Marks wide start '"' 37 := by
  have hplace : (⟨.expectedValue, 16⟩ : Json.Fault).place wide = ⟨1, 34⟩ := by decide +kernel
  have hinside : Json.Place.Inside ⟨1, 34⟩ wide wide.toList :=
    ⟨by decide, by decide, by decide +kernel, by decide +kernel⟩
  obtain ⟨start, c, position, hc, hposition, hmarks, -⟩ := (underlines_iff wide).1 _ _ hinside
  have hquote : some c = some '"' := hc.symm.trans (by decide +kernel)
  have hfar : position = 37 := hposition.trans (by decide +kernel)
  rw [Option.some.injEq] at hquote
  rw [hquote, hfar] at hmarks
  refine ⟨⟨.expectedValue, 16⟩, hplace, ?_, ?_, start, ?_⟩
  · rw [hplace]
    decide +kernel
  · exact ⟨wide.toList.take 29, wide.toList.drop 30, by decide +kernel, by decide +kernel, rfl⟩
  · rw [ofFault, hplace]
    exact hmarks

end Excerpt

end BranchingDialogue
