import BranchingDialogue.Proofs.Text.Bytes
import Mathlib.Order.Bounds.Basic

/-!
# Where a text may be cut

The bytes of a text may be cut apart between two characters and nowhere else. `IsCut` says that a
position is such a place. From a position that is none, `cutBelow` goes back and `cutAbove` goes on byte
by byte until it comes to one, which is the nearest: `isGreatest_cutBelow`, `isLeast_cutAbove`.

`slice?` takes a part out of a text. It fails where one of the two positions is no cut, and where they
are the wrong way round; otherwise it is what stands between them: `slice?_eq_some_iff`.
-/

namespace BranchingDialogue

variable {cs : List Char} {n b : Nat}

/-- A byte position is between two characters, or at an end of the text. -/
def IsCut (cs : List Char) (n : Nat) : Prop :=
  ∃ before after, cs = before ++ after ∧ utf8Length before = n

theorem isSome_dropBytes?_iff : (dropBytes? n cs).isSome ↔ IsCut cs n := by
  constructor
  · intro h
    obtain ⟨rest, hrest⟩ := Option.isSome_iff_exists.1 h
    obtain ⟨before, hcs, hlen⟩ := exists_of_dropBytes? hrest
    exact ⟨before, rest, hcs, hlen⟩
  · rintro ⟨before, after, rfl, rfl⟩
    rw [dropBytes?_append]
    rfl

instance : Decidable (IsCut cs n) := decidable_of_iff _ isSome_dropBytes?_iff

theorem isCut_zero (cs : List Char) : IsCut cs 0 := ⟨[], cs, rfl, rfl⟩

theorem isCut_utf8Length (cs : List Char) : IsCut cs (utf8Length cs) :=
  ⟨cs, [], (List.append_nil cs).symm, rfl⟩

theorem IsCut.le (h : IsCut cs n) : n ≤ utf8Length cs := by
  obtain ⟨before, after, rfl, rfl⟩ := h
  rw [utf8Length_append]
  omega

/-- Of two splits of a text the one at the later byte has more before it and less after it. -/
theorem exists_between {before rest front after : List Char} (h : before ++ rest = front ++ after)
    (hle : utf8Length before ≤ utf8Length front) :
    ∃ between, front = before ++ between ∧ rest = between ++ after := by
  rcases List.append_eq_append_iff.1 h with ⟨between, hfront, hrest⟩ | ⟨more, hbefore, hafter⟩
  · exact ⟨between, hfront, hrest⟩
  · cases more with
    | nil => exact ⟨[], by simpa using hbefore.symm, by simpa using hafter.symm⟩
    | cons c more =>
      have hpos := c.utf8Size_pos
      rw [hbefore, utf8Length_append, utf8Length_cons] at hle
      omega

/-- No cut is inside a character. -/
theorem IsCut.le_or_le {before after : List Char} {c : Char} (h : IsCut (before ++ c :: after) b) :
    b ≤ utf8Length before ∨ utf8Length before + c.utf8Size ≤ b := by
  obtain ⟨left, right, hsplit, rfl⟩ := h
  rcases Nat.le_total (utf8Length left) (utf8Length before) with hle | hle
  · exact .inl hle
  · obtain ⟨between, rfl, hrest⟩ := exists_between hsplit hle
    cases between with
    | nil => exact .inl (by rw [List.append_nil])
    | cons d between =>
      obtain ⟨rfl, -⟩ := List.cons.inj hrest
      rw [utf8Length_append, utf8Length_cons]
      omega

/-- Each byte of a text belongs to one of its characters. -/
theorem exists_char_of_lt (h : n < utf8Length cs) :
    ∃ before c after, cs = before ++ c :: after ∧ utf8Length before ≤ n
      ∧ n < utf8Length before + c.utf8Size := by
  induction cs generalizing n with
  | nil => exact absurd h (Nat.not_lt_zero n)
  | cons c cs ih =>
    by_cases hc : n < c.utf8Size
    · exact ⟨[], c, cs, rfl, Nat.zero_le n, by rwa [utf8Length_nil, Nat.zero_add]⟩
    · rw [utf8Length_cons] at h
      obtain ⟨before, d, after, rfl, hlow, hhigh⟩ := ih (n := n - c.utf8Size) (by omega)
      refine ⟨c :: before, d, after, rfl, ?_, ?_⟩ <;> rw [utf8Length_cons] <;> omega

/-! ## The nearest cut -/

/-- The last cut up to a byte position, looked for byte by byte. -/
def cutBelow (cs : List Char) : Nat → Nat
  | 0 => 0
  | n + 1 => if IsCut cs (n + 1) then n + 1 else cutBelow cs n

/-- The first cut from a byte position on, looked for byte by byte. -/
def cutAbove (cs : List Char) (n : Nat) : Nat :=
  if n < utf8Length cs ∧ ¬IsCut cs n then cutAbove cs (n + 1) else n
  termination_by utf8Length cs - n

theorem isGreatest_cutBelow (cs : List Char) (n : Nat) :
    IsGreatest {b | IsCut cs b ∧ b ≤ n} (cutBelow cs n) := by
  induction n with
  | zero => exact ⟨⟨isCut_zero cs, Nat.le_refl 0⟩, fun b hb => hb.2⟩
  | succ n ih =>
    rw [cutBelow]
    split
    · next hcut => exact ⟨⟨hcut, Nat.le_refl _⟩, fun b hb => hb.2⟩
    · next hcut =>
      refine ⟨⟨ih.1.1, Nat.le_succ_of_le ih.1.2⟩, fun b hb => ih.2 ⟨hb.1, ?_⟩⟩
      have hne : b ≠ n + 1 := by
        rintro rfl
        exact hcut hb.1
      have hle := hb.2
      omega

theorem isLeast_cutAbove (h : n ≤ utf8Length cs) :
    IsLeast {b | IsCut cs b ∧ n ≤ b} (cutAbove cs n) := by
  fun_induction cutAbove cs n with
  | case1 n hgo ih =>
    obtain ⟨⟨hcut, hle⟩, hleast⟩ := ih hgo.1
    refine ⟨⟨hcut, by omega⟩, fun b hb => hleast ⟨hb.1, ?_⟩⟩
    have hne : b ≠ n := by
      rintro rfl
      exact hgo.2 hb.1
    have hle := hb.2
    omega
  | case2 n hstop =>
    refine ⟨⟨?_, Nat.le_refl n⟩, fun b hb => hb.2⟩
    by_cases hend : n < utf8Length cs
    · exact Classical.not_not.1 fun hcut => hstop ⟨hend, hcut⟩
    · rw [Nat.le_antisymm h (Nat.le_of_not_lt hend)]
      exact isCut_utf8Length cs

/-- From inside a character `cutBelow` goes back to where it begins. -/
theorem cutBelow_eq {before after : List Char} {c : Char} (hlow : utf8Length before ≤ n)
    (hhigh : n < utf8Length before + c.utf8Size) :
    cutBelow (before ++ c :: after) n = utf8Length before := by
  refine (isGreatest_cutBelow _ n).unique ⟨⟨⟨before, c :: after, rfl, rfl⟩, hlow⟩, fun b hb => ?_⟩
  obtain ⟨hcut, hle⟩ := hb
  rcases hcut.le_or_le with h | h
  · exact h
  · omega

/-! ## Taking a part out -/

/-- The characters that a number of bytes at the beginning make up; none if the last one of these
is not the last byte of a character. -/
def takeBytes? : Nat → List Char → Option (List Char)
  | 0, _ => some []
  | _ + 1, [] => none
  | n + 1, c :: cs =>
    if c.utf8Size ≤ n + 1 then (takeBytes? (n + 1 - c.utf8Size) cs).map (c :: ·) else none
  termination_by _ cs => cs.length

/-- The part of a text between two byte positions. -/
def slice? (text : String) (start stop : Nat) : Option (List Char) :=
  if start ≤ stop then (dropBytes? start text.toList).bind (takeBytes? (stop - start)) else none

theorem takeBytes?_append (cs rest : List Char) :
    takeBytes? (utf8Length cs) (cs ++ rest) = some cs := by
  induction cs with
  | nil =>
    unfold takeBytes?
    rfl
  | cons c cs ih =>
    have hpos := c.utf8Size_pos
    obtain ⟨n, hn⟩ : ∃ n, utf8Length (c :: cs) = n + 1 := by
      rw [utf8Length_cons]
      exact ⟨c.utf8Size + utf8Length cs - 1, by omega⟩
    rw [hn, List.cons_append, takeBytes?]
    rw [utf8Length_cons] at hn
    have hrest : n + 1 - c.utf8Size = utf8Length cs := by omega
    rw [if_pos (by omega), hrest, ih]
    rfl

/-- Between two positions stands what is between them. -/
theorem slice?_eq {text : String} {before cs after : List Char} {start stop : Nat}
    (h : text.toList = before ++ cs ++ after) (hstart : start = utf8Length before)
    (hstop : stop = start + utf8Length cs) : slice? text start stop = some cs := by
  rw [slice?, if_pos (by omega), h, List.append_assoc, hstart, dropBytes?_append, hstop,
    Option.bind_some, hstart, Nat.add_sub_cancel_left, takeBytes?_append]

/-- What a number of bytes make up has so many bytes, and more may come after it. -/
theorem exists_of_takeBytes? {part : List Char} (h : takeBytes? n cs = some part) :
    ∃ rest, cs = part ++ rest ∧ utf8Length part = n := by
  fun_induction takeBytes? n cs generalizing part with
  | case1 cs =>
    cases h
    exact ⟨cs, rfl, rfl⟩
  | case2 n => cases h
  | case3 n c cs hle ih =>
    obtain ⟨part, hpart, rfl⟩ := Option.map_eq_some_iff.1 h
    obtain ⟨rest, rfl, hlen⟩ := ih hpart
    exact ⟨rest, rfl, by rw [utf8Length_cons]; omega⟩
  | case4 n c cs hgt => cases h

/-- **A part is taken out exactly if it stands in the text between the two positions.** -/
theorem slice?_eq_some_iff {text : String} {start stop : Nat} {part : List Char} :
    slice? text start stop = some part ↔ Spans text start stop part := by
  constructor
  · intro h
    unfold slice? at h
    split at h
    · next hle =>
      obtain ⟨rest, hrest, htake⟩ := Option.bind_eq_some_iff.1 h
      obtain ⟨before, htext, hbefore⟩ := exists_of_dropBytes? hrest
      obtain ⟨after, rfl, hpart⟩ := exists_of_takeBytes? htake
      exact ⟨before, after, by rw [htext, List.append_assoc], hbefore, by omega⟩
    · cases h
  · rintro ⟨before, after, htext, hbefore, hstop⟩
    exact slice?_eq htext hbefore.symm hstop.symm

end BranchingDialogue
