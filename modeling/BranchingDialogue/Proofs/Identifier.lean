import BranchingDialogue.Uuid
import Mathlib.Algebra.Group.Nat.Defs
import Mathlib.Data.List.Induction

/-!
# Identifiers as 32 digits

What a node is called in a document are 32 hexadecimal digits, and every such text names one of the
2¹²⁸ identifiers (`NodeId.exists_parse?_iff`). Written out, an identifier reads back as itself
(`parse?_simple`); read and written out, a text comes back in lower case (`simple_of_parse?`), so
two texts name one identifier exactly when they differ at most in the case of their letters.
-/

namespace BranchingDialogue

/-- A decimal digit or one of the letters from A to F, in either case. -/
def IsHexDigit (c : Char) : Prop :=
  ('0' ≤ c ∧ c ≤ '9') ∨ ('a' ≤ c ∧ c ≤ 'f') ∨ ('A' ≤ c ∧ c ≤ 'F')

/-- 32 hexadecimal digits. -/
def NodeId.IsDigits (s : String) : Prop := s.length = 32 ∧ ∀ c ∈ s.toList, IsHexDigit c

/-- A text with its ASCII letters in lower case. -/
def lowered (s : String) : String := String.ofList (s.toList.map Char.toLower)

namespace Uuid

open Json (hexValue?)

/-! ## One digit -/

theorem exists_hexValue?_iff {c : Char} : (∃ d, hexValue? c = some d) ↔ IsHexDigit c := by
  have hdigit : c.isDigit = true ↔ '0' ≤ c ∧ c ≤ '9' := by
    simp only [Char.isDigit, Bool.and_eq_true, decide_eq_true_eq]
    exact Iff.rfl
  unfold hexValue? IsHexDigit
  rw [← hdigit]
  by_cases h₁ : c.isDigit = true
  · simp [h₁]
  · by_cases h₂ : 'a' ≤ c ∧ c ≤ 'f'
    · simp [h₁, h₂]
    · by_cases h₃ : 'A' ≤ c ∧ c ≤ 'F'
      · simp [h₁, h₂, h₃]
      · simp [h₁, h₂, h₃]

theorem toNat_lt_of_isHexDigit {c : Char} (h : IsHexDigit c) : c.toNat < 128 := by
  have hbound : ∀ d : Char, d.toNat < 128 → c ≤ d → c.toNat < 128 := fun d hd hc =>
    Nat.lt_of_le_of_lt (show c.toNat ≤ d.toNat from hc) hd
  rcases h with ⟨-, h⟩ | ⟨-, h⟩ | ⟨-, h⟩
  · exact hbound _ (by decide) h
  · exact hbound _ (by decide) h
  · exact hbound _ (by decide) h

/-- A digit has a value below 16 and is written back in lower case. -/
theorem digitChar_of_hexValue? {c : Char} {d : Nat} (h : hexValue? c = some d) :
    d < 16 ∧ Nat.digitChar d = c.toLower := by
  -- All digits are among the first 128 characters.
  have htable : ∀ n < 128, (hexValue? (Char.ofNat n)).all
      (fun d => d < 16 && Nat.digitChar d == (Char.ofNat n).toLower) = true := by decide
  have hlt := toNat_lt_of_isHexDigit (exists_hexValue?_iff.1 ⟨d, h⟩)
  have hrow := htable c.toNat hlt
  rw [Char.ofNat_toNat, h] at hrow
  simpa using hrow

theorem hexValue?_digitChar {d : Nat} (h : d < 16) : hexValue? (Nat.digitChar d) = some d := by
  have htable : ∀ d < 16, hexValue? (Nat.digitChar d) = some d := by decide
  exact htable d h

/-! ## Many digits -/

theorem hexNat?_concat (n : Nat) (cs : List Char) (c : Char) :
    hexNat? n (cs ++ [c])
      = (hexNat? n cs).bind fun m => (hexValue? c).map fun d => 16 * m + d := by
  induction cs generalizing n with
  | nil =>
    simp only [List.nil_append, hexNat?, Option.bind_some]
    cases hexValue? c <;> rfl
  | cons b bs ih =>
    rw [List.cons_append, hexNat?, hexNat?]
    cases hexValue? b with
    | none => rfl
    | some d => exact ih _

theorem length_hexFixed (count n : Nat) : (hexFixed count n).length = count := by
  induction count generalizing n with
  | zero => rfl
  | succ count ih => rw [hexFixed, List.length_append, ih, List.length_singleton]

/-- Reading the last digits of a number gives the number they stand for. -/
theorem hexNat?_hexFixed (count n : Nat) :
    hexNat? 0 (hexFixed count n) = some (n % 16 ^ count) := by
  induction count generalizing n with
  | zero => rw [hexFixed, hexNat?, Nat.pow_zero, Nat.mod_one]
  | succ count ih =>
    rw [hexFixed, hexNat?_concat, ih, Option.bind_some,
      hexValue?_digitChar (Nat.mod_lt n (by omega)), Option.map_some, Nat.pow_succ']
    congr 1
    rw [Nat.mod_mul]
    omega

/-- Digits that have been read are written back in lower case, and nothing else was read. -/
theorem hexFixed_of_hexNat? {cs : List Char} {m : Nat} (h : hexNat? 0 cs = some m) :
    hexFixed cs.length m = cs.map Char.toLower ∧ m < 16 ^ cs.length := by
  induction cs using List.reverseRecOn generalizing m with
  | nil =>
    cases h
    exact ⟨rfl, by decide⟩
  | append_singleton cs c ih =>
    rw [hexNat?_concat, Option.bind_eq_some_iff] at h
    obtain ⟨k, hk, h⟩ := h
    obtain ⟨d, hd, rfl⟩ := Option.map_eq_some_iff.1 h
    obtain ⟨hfixed, hlt⟩ := ih hk
    obtain ⟨hd16, hchar⟩ := digitChar_of_hexValue? hd
    rw [List.length_append, List.length_singleton, hexFixed, List.map_append, Nat.pow_succ]
    have hdiv : (16 * k + d) / 16 = k := by omega
    have hmod : (16 * k + d) % 16 = d := by omega
    refine ⟨?_, by omega⟩
    rw [hdiv, hmod, hfixed, hchar]
    rfl

theorem exists_hexNat?_iff {n : Nat} {cs : List Char} :
    (∃ m, hexNat? n cs = some m) ↔ ∀ c ∈ cs, IsHexDigit c := by
  induction cs generalizing n with
  | nil => simp [hexNat?]
  | cons c cs ih =>
    rw [List.forall_mem_cons, ← exists_hexValue?_iff, hexNat?]
    cases hexValue? c with
    | none => simp
    | some d => simp [ih]

/-! ## Identifiers -/

theorem ofDigits?_hexFixed (u : Uuid) : ofDigits? (hexFixed 32 u.bits.toNat) = some u := by
  rw [ofDigits?, if_pos (length_hexFixed 32 _), hexNat?_hexFixed,
    Nat.mod_eq_of_lt (show u.bits.toNat < 16 ^ 32 from u.bits.isLt), Option.map_some]
  congr 2
  exact BitVec.ofNat_toNat 128 u.bits

/-- What is written as 32 digits reads back, as a property's identifier too. -/
theorem parse?_simple (u : Uuid) : parse? u.simple = some u := by
  rw [parse?, simple, String.toList_ofList, if_pos (length_hexFixed 32 _), ofDigits?_hexFixed]

end Uuid

namespace NodeId

@[simp] theorem parse?_simple (id : NodeId) : parse? id.simple = some id := by
  rw [parse?, Uuid.simple, String.toList_ofList, Uuid.ofDigits?_hexFixed]

theorem exists_parse?_iff {s : String} : (∃ id, parse? s = some id) ↔ IsDigits s := by
  rw [parse?, Uuid.ofDigits?, IsDigits, String.length_toList]
  by_cases h : s.length = 32
  · rw [if_pos h, ← Uuid.exists_hexNat?_iff (n := 0)]
    simp [h]
  · simp [h]

/-- A text that was read as an identifier is written back in lower case. -/
theorem simple_of_parse? {s : String} {id : NodeId} (h : parse? s = some id) :
    id.simple = lowered s := by
  rw [parse?, Uuid.ofDigits?] at h
  split at h
  · next hlen =>
    obtain ⟨m, hm, rfl⟩ := Option.map_eq_some_iff.1 h
    obtain ⟨hfixed, hlt⟩ := Uuid.hexFixed_of_hexNat? hm
    rw [hlen] at hfixed hlt
    rw [Uuid.simple, lowered, BitVec.toNat_ofNat,
      Nat.mod_eq_of_lt (show m < 2 ^ 128 from hlt), hfixed]
  · cases h

/-- Two texts name one node exactly when they are the same up to the case of letters. -/
theorem parse?_eq_parse?_iff {s t : String} (hs : IsDigits s) (ht : IsDigits t) :
    parse? s = parse? t ↔ lowered s = lowered t := by
  obtain ⟨a, ha⟩ := exists_parse?_iff.2 hs
  obtain ⟨b, hb⟩ := exists_parse?_iff.2 ht
  rw [← simple_of_parse? ha, ← simple_of_parse? hb, ha, hb]
  constructor
  · intro h
    rw [Option.some.inj h]
  · intro h
    rw [← parse?_simple a, ← parse?_simple b, h]

end NodeId

end BranchingDialogue
