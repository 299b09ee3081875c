import BranchingDialogue.Proofs.Json.Numbers
import Mathlib

/-!
# Written digits as they are read

How the reader of numbers takes written digits apart: the digits in front of the point and those
after it make one significand, which counts units of the last of them, and an exponent moves the
point. So what is written for digits and an exponent is read with these digits and this exponent
(`readNumber_marked`), except that a whole number that is written out has a zero after its point,
which the reader takes for one digit more.
-/

namespace BranchingDialogue

/-- The digits and the exponent that are found where digits have been written: a whole number that
is written out ends in a zero after its point. -/
def Digits.scanned (d : Digits) : Digits :=
  if 0 ≤ d.exponent ∧ ((Nat.toDigits 10 d.digits).length : Int) + d.exponent ≤ 16 then
    ⟨d.digits * 10 ^ (d.exponent.toNat + 1), -1⟩
  else d

namespace Json

variable {negative : Bool} {s : Nat} {start : Int} {whole fraction rest : List Char}

/-! ## Digits -/

/-- What follows digits and is none. -/
def AfterDigits (rest : List Char) : Prop := ∀ c ∈ rest.head?, c.isDigit = false

theorem afterDigits_nil : AfterDigits [] := fun _ h => nomatch h

theorem isDigit_of_mem_zero : ∀ c ∈ ['0'], c.isDigit = true := by
  intro c hc
  rw [List.mem_singleton.1 hc]
  rfl

theorem spanDigits_append_after (h : ∀ c ∈ whole, c.isDigit = true) (hrest : AfterDigits rest) :
    Numeral.spanDigits (whole ++ rest) = (whole, rest) := by
  have hend : rest.takeWhile Char.isDigit = [] ∧ rest.dropWhile Char.isDigit = rest := by
    cases rest with
    | nil => exact ⟨rfl, rfl⟩
    | cons c cs =>
      have hc := hrest c rfl
      rw [List.takeWhile_cons, List.dropWhile_cons, hc]
      exact ⟨rfl, rfl⟩
  rw [spanDigits_eq, List.takeWhile_append_of_pos h, List.dropWhile_append_of_pos h, hend.1, hend.2,
    List.append_nil]

theorem ofDigitChars_append (ds : List Char) (m : Nat) :
    Nat.ofDigitChars 10 (whole ++ ds) m = Nat.ofDigitChars 10 ds (Nat.ofDigitChars 10 whole m) := by
  induction whole generalizing m with
  | nil => rfl
  | cons c cs ih => rw [List.cons_append, Nat.ofDigitChars_cons, Nat.ofDigitChars_cons, ih]

theorem ofDigitChars_zeros (n m : Nat) :
    Nat.ofDigitChars 10 (List.replicate n '0') m = m * 10 ^ n := by
  induction n generalizing m with
  | zero => exact (Nat.mul_one m).symm
  | succ n ih =>
    have hzero : 10 * m + ('0'.toNat - '0'.toNat) = m * 10 := by omega
    rw [List.replicate_succ, Nat.ofDigitChars_cons, ih, hzero, Nat.pow_succ, Nat.mul_comm (10 ^ n),
      Nat.mul_assoc]

/-- Digits that start a number: they are not a zero that others follow. -/
structure Leading (ds : List Char) : Prop where
  digits : ∀ c ∈ ds, c.isDigit = true
  ne_nil : ds ≠ []
  zero : ds.head? = some '0' → ds = ['0']

theorem leading_toDigits {n : Nat} (hn : n ≠ 0) (k : Nat) :
    Leading (Nat.toDigits 10 n ++ List.replicate k '0') := by
  refine ⟨fun c hc => ?_, ?_, fun h => ?_⟩
  · rcases List.mem_append.1 hc with hc | hc
    · exact isDigit_of_mem hc
    · rw [List.eq_of_mem_replicate hc]
      rfl
  · exact fun h => absurd (List.append_eq_nil_iff.1 h).1 Nat.toDigits_ne_nil
  · rw [List.head?_append_of_ne_nil _ Nat.toDigits_ne_nil] at h
    exact absurd h (head_toDigits_ne hn)

theorem leading_take {n : Nat} (hn : n ≠ 0) {k : Nat} (hk : k ≠ 0) :
    Leading ((Nat.toDigits 10 n).take k) := by
  refine ⟨fun c hc => isDigit_of_mem (List.mem_of_mem_take hc), fun h => ?_, fun h => ?_⟩
  · rcases List.take_eq_nil_iff.1 h with h | h
    · exact hk h
    · exact absurd h Nat.toDigits_ne_nil
  · rw [List.head?_take, if_neg hk] at h
    exact absurd h (head_toDigits_ne hn)

/-! ## Numbers -/

theorem readNumber_leading (h : Leading whole)
    (hlimit : Nat.ofDigitChars 10 whole 0 ≤ significandLimit) (hrest : AfterDigits rest) :
    readNumber negative (whole ++ rest)
      = afterDigits negative (Nat.ofDigitChars 10 whole 0) [] rest := by
  have hspan := spanDigits_append_after h.digits hrest
  cases whole with
  | nil => exact absurd rfl h.ne_nil
  | cons c cs =>
    have hleading : (c == '0' && (cs ++ rest).head?.any Char.isDigit) = false := by
      by_cases hc : c = '0'
      · have hcs : cs = [] := (List.cons.inj (h.zero (congrArg some hc))).2
        subst hcs
        rw [List.nil_append, Bool.and_eq_false_iff]
        right
        cases rest with
        | nil => rfl
        | cons d ds => exact hrest d rfl
      · rw [beq_eq_false_iff_ne.2 hc, Bool.false_and]
    rw [List.cons_append] at hspan ⊢
    rw [readNumber_cons, h.digits c List.mem_cons_self, hleading, hspan]
    simp only [Bool.not_true, Bool.false_eq_true, if_false, absorb_eq hlimit]

/-- Digits with a point are read as one significand. -/
theorem readNumber_point (h : Leading whole) (hfraction : ∀ c ∈ fraction, c.isDigit = true)
    (hne : fraction ≠ [])
    (hlimit : Nat.ofDigitChars 10 (whole ++ fraction) 0 ≤ significandLimit)
    (hrest : AfterDigits rest) :
    readNumber negative (whole ++ '.' :: (fraction ++ rest))
      = exponentPart negative (Nat.ofDigitChars 10 (whole ++ fraction) 0) (-fraction.length)
        rest := by
  rw [ofDigitChars_append] at hlimit ⊢
  have hwhole := Nat.le_trans (le_ofDigitChars fraction _) hlimit
  have hpoint : AfterDigits ('.' :: (fraction ++ rest)) := by
    rintro c ⟨⟩
    rfl
  rw [readNumber_leading h hwhole hpoint]
  show fractionPart negative _ 0 (fraction ++ rest) = _
  rw [fractionPart, spanDigits_append_after hfraction hrest]
  cases fraction with
  | nil => exact absurd rfl hne
  | cons c cs =>
    simp only [absorb_eq hlimit, List.length_nil, Nat.sub_zero, Int.zero_sub]

theorem exponentDigits_toDigits {n : Nat} (hn : n ≤ exponentLimit) (negativeExponent : Bool) :
    exponentDigits negative s start negativeExponent (Nat.toDigits 10 n)
      = floatNumber negative s (if negativeExponent then start - n else start + n) [] := by
  have hdigits : ∀ c ∈ Nat.toDigits 10 n, c.isDigit = true := fun c hc => isDigit_of_mem hc
  have hvalue : Nat.ofDigitChars 10 (Nat.toDigits 10 n) 0 = n := Nat.ofDigitChars_ten_toDigits
  have hspan := spanDigits_append_after hdigits afterDigits_nil
  rw [List.append_nil] at hspan
  have hlimit : Nat.ofDigitChars 10 (Nat.toDigits 10 n) 0 ≤ exponentLimit := hvalue.symm ▸ hn
  have habsorb := absorb_eq hlimit
  rw [hvalue] at habsorb
  cases hds : Nat.toDigits 10 n with
  | nil => exact absurd hds Nat.toDigits_ne_nil
  | cons c cs =>
    rw [hds] at hdigits hspan habsorb
    rw [exponentDigits, hdigits c List.mem_cons_self, hspan]
    simp only [Bool.not_true, Bool.false_eq_true, if_false, habsorb]

theorem exponentPart_digits {n : Nat} (hn : n ≤ exponentLimit) :
    exponentPart negative s start ('e' :: Nat.toDigits 10 n)
      = floatNumber negative s (start + n) [] := by
  have hread : exponentDigits negative s start false (Nat.toDigits 10 n)
      = floatNumber negative s (start + n) [] := exponentDigits_toDigits hn false
  cases hds : Nat.toDigits 10 n with
  | nil => exact absurd hds Nat.toDigits_ne_nil
  | cons c cs =>
    have hc : c.isDigit = true := isDigit_of_mem (hds ▸ List.mem_cons_self)
    rw [hds] at hread
    unfold exponentPart
    simp only [beq_self_eq_true, Bool.true_or, if_true]
    split
    · next heq => exact absurd (List.cons.inj heq).1 (ne_of_isDigit hc rfl)
    · next heq => exact absurd (List.cons.inj heq).1 (ne_of_isDigit hc rfl)
    · exact hread

theorem toList_exponent (e : Int) : (ExponentStyle.signed.text e).toList
    = if 0 < e then 'e' :: '+' :: Nat.toDigits 10 e.toNat
      else if 0 ≤ e then 'e' :: Nat.toDigits 10 e.toNat
      else 'e' :: '-' :: Nat.toDigits 10 (-e).toNat := by
  show (if 0 < e then "e+" ++ e.repr else "e" ++ e.repr).toList = _
  rw [Int.repr_eq_if]
  by_cases hpos : 0 < e
  · have hnonneg : 0 ≤ e := by omega
    rw [if_pos hpos, if_pos hpos, if_pos hnonneg, String.toList_append, Nat.toList_repr]
    rfl
  · rw [if_neg hpos, if_neg hpos]
    split
    · rw [String.toList_append, Nat.toList_repr]
      rfl
    · rw [String.toList_append, String.toList_append, Nat.toList_repr]
      rfl

theorem exists_toList_exponent (e : Int) :
    ∃ cs, (ExponentStyle.signed.text e).toList = 'e' :: cs := by
  rw [toList_exponent]
  split
  · exact ⟨_, rfl⟩
  · split <;> exact ⟨_, rfl⟩

theorem afterDigits_exponent (e : Int) : AfterDigits (ExponentStyle.signed.text e).toList := by
  obtain ⟨cs, hcs⟩ := exists_toList_exponent e
  rw [hcs]
  rintro c ⟨⟩
  rfl

/-- An exponent is read as it is written. -/
theorem exponentPart_text {e : Int} (he : e.natAbs ≤ exponentLimit) :
    exponentPart negative s start (ExponentStyle.signed.text e).toList
      = floatNumber negative s (start + e) [] := by
  rw [toList_exponent]
  split
  · show exponentDigits negative s start false (Nat.toDigits 10 e.toNat) = _
    have hsum : start + (e.toNat : Int) = start + e := by omega
    rw [exponentDigits_toDigits (by omega), if_neg Bool.false_ne_true, hsum]
  · split
    · have hsum : start + (e.toNat : Int) = start + e := by omega
      rw [exponentPart_digits (by omega), hsum]
    · show exponentDigits negative s start true (Nat.toDigits 10 (-e).toNat) = _
      have hsum : start - ((-e).toNat : Int) = start + e := by omega
      rw [exponentDigits_toDigits (by omega), if_pos rfl, hsum]

/-- Digits with an exponent are read as one significand. -/
theorem readNumber_exponent {e : Int} (h : Leading whole)
    (hlimit : Nat.ofDigitChars 10 whole 0 ≤ significandLimit) (he : e.natAbs ≤ exponentLimit) :
    readNumber negative (whole ++ (ExponentStyle.signed.text e).toList)
      = floatNumber negative (Nat.ofDigitChars 10 whole 0) e [] := by
  have hread : exponentPart negative (Nat.ofDigitChars 10 whole 0) 0
        (ExponentStyle.signed.text e).toList
      = floatNumber negative (Nat.ofDigitChars 10 whole 0) (0 + e) [] := exponentPart_text he
  rw [Int.zero_add] at hread
  obtain ⟨cs, hcs⟩ := exists_toList_exponent e
  rw [readNumber_leading h hlimit (afterDigits_exponent e), ← hread, hcs]
  rfl

/-! ## Written digits -/

theorem toDigits_take_append_drop (n k : Nat) :
    Nat.ofDigitChars 10 ((Nat.toDigits 10 n).take k ++ (Nat.toDigits 10 n).drop k) 0 = n := by
  rw [List.take_append_drop, Nat.ofDigitChars_ten_toDigits]

/-- Digits that are split at a point are read as one significand. -/
theorem readNumber_split {n k : Nat} (hn : n ≠ 0) (hlimit : n ≤ significandLimit) (hk : k ≠ 0)
    (hlt : k < (Nat.toDigits 10 n).length) (hrest : AfterDigits rest) :
    readNumber negative ((Digits.split (Nat.toDigits 10 n) k).toList ++ rest)
      = exponentPart negative n (k - (Nat.toDigits 10 n).length) rest := by
  have hsplit : (Digits.split (Nat.toDigits 10 n) k).toList ++ rest
      = (Nat.toDigits 10 n).take k ++ '.' :: ((Nat.toDigits 10 n).drop k ++ rest) := by
    simp only [Digits.split, String.toList_append, String.toList_ofList, List.append_assoc]
    rfl
  have hvalue := toDigits_take_append_drop n k
  have hne : (Nat.toDigits 10 n).drop k ≠ [] := by
    rw [ne_eq, List.drop_eq_nil_iff]
    omega
  rw [hsplit, readNumber_point (leading_take hn hk)
    (fun c hc => isDigit_of_mem (List.mem_of_mem_drop hc)) hne (hvalue.symm ▸ hlimit) hrest, hvalue,
    List.length_drop]
  congr 1
  omega

theorem length_toDigits_le {n : Nat} (h : n ≤ significandLimit) :
    (Nat.toDigits 10 n).length ≤ 20 := by
  have hlimit : significandLimit < 10 ^ 20 := by decide
  exact (Nat.length_toDigits_le_iff (by decide) (by decide)).2 (h.trans_lt hlimit)

/-- A whole number that is written out, with a zero after its point, has that zero for a digit. -/
theorem readNumber_whole {n k : Nat} (hn : n ≠ 0) (hlength : (Nat.toDigits 10 n).length + k ≤ 16) :
    readNumber negative ((Nat.toDigits 10 n ++ List.replicate k '0') ++ '.' :: (['0'] ++ []))
      = floatNumber negative (n * 10 ^ (k + 1)) (-1) [] := by
  have hpos := List.length_pos_iff.2 (Nat.toDigits_ne_nil (n := n) (b := 10))
  have hnumber : Nat.ofDigitChars 10 ((Nat.toDigits 10 n ++ List.replicate k '0') ++ ['0']) 0
      = n * 10 ^ (k + 1) := by
    have hzeros : ['0'] = List.replicate 1 '0' := rfl
    rw [List.append_assoc, ofDigitChars_append, Nat.ofDigitChars_ten_toDigits, hzeros,
      List.replicate_append_replicate, ofDigitChars_zeros]
  have hsize : n * 10 ^ (k + 1) ≤ significandLimit := by
    have hdigits : n < 10 ^ (Nat.toDigits 10 n).length :=
      (Nat.length_toDigits_le_iff (by decide) hpos).1 (Nat.le_refl _)
    calc n * 10 ^ (k + 1)
        ≤ 10 ^ (Nat.toDigits 10 n).length * 10 ^ (k + 1) := Nat.mul_le_mul_right _ hdigits.le
      _ = 10 ^ ((Nat.toDigits 10 n).length + (k + 1)) := (Nat.pow_add _ _ _).symm
      _ ≤ 10 ^ 17 := Nat.pow_le_pow_right (by decide) (by omega)
      _ ≤ significandLimit := by decide
  rw [readNumber_point (leading_toDigits hn k) isDigit_of_mem_zero (List.cons_ne_nil _ _)
    (hnumber.symm ▸ hsize) afterDigits_nil, hnumber]
  rfl

/-- Zeros between the point and the digits only move the point. -/
theorem readNumber_front {n k : Nat} (hlimit : n ≤ significandLimit) :
    readNumber negative (['0'] ++ '.' :: (List.replicate k '0' ++ Nat.toDigits 10 n ++ []))
      = floatNumber negative n (-((k + (Nat.toDigits 10 n).length : Nat) : Int)) [] := by
  have hnumber : Nat.ofDigitChars 10 (['0'] ++ (List.replicate k '0' ++ Nat.toDigits 10 n)) 0
      = n := by
    have hzero : Nat.ofDigitChars 10 ['0'] 0 = 0 := rfl
    rw [ofDigitChars_append, ofDigitChars_append, ofDigitChars_zeros, hzero, Nat.zero_mul,
      Nat.ofDigitChars_ten_toDigits]
  have hzeroLead : Leading ['0'] := ⟨isDigit_of_mem_zero, nofun, fun _ => rfl⟩
  have hfraction : ∀ c ∈ List.replicate k '0' ++ Nat.toDigits 10 n, c.isDigit = true := by
    intro c hc
    rcases List.mem_append.1 hc with hc | hc
    · rw [List.eq_of_mem_replicate hc]
      rfl
    · exact isDigit_of_mem hc
  have hne : List.replicate k '0' ++ Nat.toDigits 10 n ≠ [] := fun h =>
    absurd (List.append_eq_nil_iff.1 h).2 Nat.toDigits_ne_nil
  rw [readNumber_point hzeroLead hfraction hne (hnumber.symm ▸ hlimit) afterDigits_nil, hnumber,
    List.length_append, List.length_replicate]
  rfl

/-- **Written digits are read with their exponent.** -/
theorem readNumber_marked {d : Digits} (hd : d.digits ≠ 0) (hlimit : d.digits ≤ significandLimit)
    (hexponent : d.exponent.natAbs ≤ 0x10000000) :
    readNumber negative (d.marked (.double .signed)).toList
      = floatNumber negative d.scanned.digits d.scanned.exponent [] := by
  obtain ⟨n, k⟩ := d
  simp only at hd hlimit hexponent
  have hds : (toString n).toList = Nat.toDigits 10 n := Nat.toList_repr
  have hlength := length_toDigits_le hlimit
  have hpos := List.length_pos_iff.2 (Nat.toDigits_ne_nil (n := n) (b := 10))
  have hvalue : Nat.ofDigitChars 10 (Nat.toDigits 10 n) 0 = n := Nat.ofDigitChars_ten_toDigits
  simp only [Digits.marked, Digits.scanned, hds, MarkedLayout.double]
  split
  · -- A whole number is written out, with a zero after its point.
    next hwhole =>
    have htext : (String.ofList (Nat.toDigits 10 n) ++ Digits.zeros k.toNat ++ ".0").toList
        = (Nat.toDigits 10 n ++ List.replicate k.toNat '0') ++ '.' :: (['0'] ++ []) := by
      simp only [Digits.zeros, String.toList_append, String.toList_ofList]
      rfl
    rw [htext, readNumber_whole hd (by omega)]
  next hwhole =>
  split
  · -- The point stands between the digits.
    next hsplit =>
    generalize hj : ((Nat.toDigits 10 n).length + k).toNat = j
    have hread : readNumber negative ((Digits.split (Nat.toDigits 10 n) j).toList ++ [])
        = exponentPart negative n (j - (Nat.toDigits 10 n).length) [] :=
      readNumber_split hd hlimit (by omega) (by omega) afterDigits_nil
    rw [List.append_nil] at hread
    rw [hread]
    show floatNumber negative n _ [] = floatNumber negative n k []
    congr 1
    omega
  split
  · -- The point stands in front of the digits, with zeros between them.
    next hfront =>
    generalize hj : (-((Nat.toDigits 10 n).length + k)).toNat = j
    have htext : ("0." ++ Digits.zeros j ++ String.ofList (Nat.toDigits 10 n)).toList
        = ['0'] ++ '.' :: (List.replicate j '0' ++ Nat.toDigits 10 n ++ []) := by
      simp only [Digits.zeros, String.toList_append, String.toList_ofList, List.append_nil]
      rfl
    rw [htext, readNumber_front hlimit]
    show floatNumber negative n _ [] = floatNumber negative n k []
    congr 1
    omega
  split
  · -- One digit and an exponent.
    next hone =>
    have hlead := leading_toDigits hd 0
    rw [List.replicate_zero, List.append_nil] at hlead
    rw [String.toList_append, String.toList_ofList,
      readNumber_exponent hlead (hvalue.symm ▸ hlimit) (by unfold exponentLimit; omega), hvalue]
    show floatNumber negative n _ [] = floatNumber negative n k []
    congr 1
    omega
  · -- One digit, a point, the other digits and an exponent.
    next hone =>
    rw [String.toList_append, readNumber_split hd hlimit one_ne_zero (by omega)
      (afterDigits_exponent _), exponentPart_text (by unfold exponentLimit; omega)]
    show floatNumber negative n _ [] = floatNumber negative n k []
    congr 1
    omega

end Json

end BranchingDialogue
