import BranchingDialogue.Proofs.Json.Reading
import BranchingDialogue.Report.Json
import Mathlib.Data.List.DropRight
import Mathlib.Data.List.TakeDrop

/-!
# Numbers are read as they were written

What is written stands on a line of its own, so a comma or a line break ends it, or the text does
(`Ends`). The readers of numbers stop there: what they make of a number by itself they make of it
wherever it is written (`takes_of_number`). A whole number is read as it was written
(`takes_integer`). Of a float that has to be said one by one, since the reader of floats rounds more
than once and need not find the nearest double.
-/

namespace BranchingDialogue.Json

variable {α : Type}

/-- What follows a value that was written: nothing, or the end of its line. -/
def Ends (rest : List Char) : Prop := ∀ c ∈ rest.head?, c = ',' ∨ c = '\n'

/-- White space and nothing else. -/
def Blank (cs : List Char) : Prop := skipSpace cs = []

/-- A text starts with what is neither white space nor the end of an array. -/
def Opens (text : List Char) : Prop := ∃ c cs, text = c :: cs ∧ skipSpace [c] = [c] ∧ c ≠ ']'

/-- A reader takes a text for a value, wherever it stands after white space and before what ends
it. -/
def Takes (reader : List Char → Reading α) (text : List Char) (x : α) : Prop :=
  ∀ before rest, Blank before → Ends rest → reader (before ++ (text ++ rest)) = .ok (x, rest)

/-- What a reader makes of a text does not change when something follows that ends it. -/
def Local (reader : List Char → Reading α) : Prop :=
  ∀ ⦃cs x after rest⦄, Ends rest → reader cs = .ok (x, after) →
    reader (cs ++ rest) = .ok (x, after ++ rest)

theorem ends_nil : Ends [] := fun _ h => nomatch h

theorem ends_comma (rest : List Char) : Ends (',' :: rest) :=
  fun _ h => .inl (Option.some.inj h).symm

theorem ends_line (rest : List Char) : Ends ('\n' :: rest) :=
  fun _ h => .inr (Option.some.inj h).symm

/-! ## White space -/

section Space

variable {cs before text rest : List Char} {c : Char}

theorem skipSpace_blank (h : Blank before) (cs : List Char) :
    skipSpace (before ++ cs) = skipSpace cs := by
  unfold Blank at h
  unfold skipSpace at h ⊢
  rw [List.dropWhile_append, h]
  rfl

theorem skipSpace_append (h : skipSpace cs = c :: rest) (more : List Char) :
    skipSpace (cs ++ more) = c :: (rest ++ more) := by
  unfold skipSpace at h ⊢
  rw [List.dropWhile_append, h]
  rfl

theorem skipSpace_cons (h : skipSpace [c] = [c]) (cs : List Char) : skipSpace (c :: cs) = c :: cs :=
  skipSpace_append h cs

theorem Opens.skipSpace_eq (h : Opens text) (more : List Char) :
    skipSpace (text ++ more) = text ++ more := by
  obtain ⟨c, cs, rfl, hc, -⟩ := h
  exact skipSpace_cons hc _

theorem readValue_skipSpace (depth : Nat) (cs : List Char) :
    readValue depth (skipSpace cs) = readValue depth cs := by
  have htwice : skipSpace (skipSpace cs) = skipSpace cs := List.dropWhile_idempotent _ cs
  rw [readValue, readValue, htwice]

/-- White space in front of a value is skipped. -/
theorem takes_readValue {depth : Nat} {j : Json} (hopens : Opens text)
    (h : ∀ rest, Ends rest → readValue depth (text ++ rest) = .ok (j, rest)) :
    Takes (readValue depth) text j := by
  intro before rest hbefore hrest
  rw [← readValue_skipSpace, skipSpace_blank hbefore, hopens.skipSpace_eq, h rest hrest]

end Space

/-! ## Numbers -/

section Numbers

variable {rest : List Char}

theorem spanDigits_eq (cs : List Char) :
    Numeral.spanDigits cs = (cs.takeWhile Char.isDigit, cs.dropWhile Char.isDigit) := by
  rw [Numeral.spanDigits, List.span_eq_takeWhile_dropWhile]

theorem spanDigits_of_ends (h : Ends rest) : Numeral.spanDigits rest = ([], rest) := by
  rw [spanDigits_eq]
  cases rest with
  | nil => rfl
  | cons c cs =>
    rcases h c rfl with rfl | rfl <;> rfl

/-- What ends a number does not go on with its digits. -/
theorem spanDigits_append (h : Ends rest) (cs : List Char) :
    Numeral.spanDigits (cs ++ rest)
      = ((Numeral.spanDigits cs).1, (Numeral.spanDigits cs).2 ++ rest) := by
  induction cs with
  | nil => exact spanDigits_of_ends h
  | cons c cs ih =>
    rw [spanDigits_eq, spanDigits_eq, Prod.mk.injEq] at ih
    rw [List.cons_append, spanDigits_eq, spanDigits_eq, List.takeWhile_cons, List.takeWhile_cons,
      List.dropWhile_cons, List.dropWhile_cons]
    by_cases hc : c.isDigit
    · rw [if_pos hc, if_pos hc, if_pos hc, if_pos hc, ih.1, ih.2]
    · rw [if_neg hc, if_neg hc, if_neg hc, if_neg hc, List.cons_append]

theorem floatNumber_of_ok {negative : Bool} {s : Nat} {e : Int} {cs after : List Char} {n : Number}
    (h : floatNumber negative s e cs = .ok (n, after)) (rest : List Char) :
    after = cs ∧ floatNumber negative s e rest = .ok (n, rest) := by
  rw [floatNumber] at h ⊢
  cases hscale : scale 4 s.toUInt64.toFloat e with
  | none =>
    rw [hscale] at h
    cases h
  | some x =>
    rw [hscale] at h
    simp only at h ⊢
    by_cases hfinite : (if negative then -x else x).isFinite = true
    · rw [dif_pos hfinite] at h ⊢
      cases h
      exact ⟨rfl, rfl⟩
    · rw [dif_neg hfinite] at h
      cases h

theorem local_floatNumber (negative : Bool) (s : Nat) (e : Int) :
    Local (floatNumber negative s e) := by
  intro cs n after rest _ h
  obtain ⟨rfl, -⟩ := floatNumber_of_ok h []
  exact (floatNumber_of_ok h _).2

theorem local_exponentDigits (negative : Bool) (s : Nat) (start : Int) (negativeExponent : Bool) :
    Local (exponentDigits negative s start negativeExponent) := by
  intro cs n after rest hrest h
  cases cs with
  | nil => cases h
  | cons c cs =>
    rw [List.cons_append]
    rw [exponentDigits] at h ⊢
    by_cases hc : c.isDigit = true
    · rw [if_neg (by rw [hc]; decide)] at h ⊢
      rw [← List.cons_append, spanDigits_append hrest]
      generalize Numeral.spanDigits (c :: cs) = parts at h ⊢
      obtain ⟨digits, follow⟩ := parts
      simp only at h ⊢
      generalize absorb exponentLimit 0 digits = absorbed at h ⊢
      obtain ⟨e, _ | ⟨d, excess⟩⟩ := absorbed
      · exact local_floatNumber _ _ _ hrest h
      · simp only at h ⊢
        split at h
        · cases h
        · next hsmall =>
          rw [if_neg hsmall]
          exact local_floatNumber _ _ _ hrest h
    · rw [if_pos (by rw [Bool.not_eq_true] at hc; rw [hc]; rfl)] at h
      cases h

theorem exponentPart_of_ends (negative : Bool) (s : Nat) (start : Int) (h : Ends rest) :
    exponentPart negative s start rest = floatNumber negative s start rest := by
  cases rest with
  | nil => rfl
  | cons c cs =>
    rcases h c rfl with rfl | rfl <;> rfl

theorem local_exponentPart (negative : Bool) (s : Nat) (start : Int) :
    Local (exponentPart negative s start) := by
  intro cs n after rest hrest h
  cases cs with
  | nil =>
    rw [List.nil_append, exponentPart_of_ends _ _ _ hrest]
    exact local_floatNumber _ _ _ hrest h
  | cons c cs =>
    rw [List.cons_append]
    unfold exponentPart at h ⊢
    simp only at h ⊢
    split at h
    · next hletter =>
      rw [if_pos hletter]
      -- The sign of the exponent, or none.
      split at h
      · exact local_exponentDigits _ _ _ _ hrest h
      · exact local_exponentDigits _ _ _ _ hrest h
      · next hplus hminus =>
        have hdigits := local_exponentDigits _ _ _ _ hrest h
        cases cs with
        | nil => cases h
        | cons d ds =>
          split
          · next heq =>
            cases heq
            exact absurd rfl (hplus ds)
          · next heq =>
            cases heq
            exact absurd rfl (hminus ds)
          · exact hdigits
    · next hletter =>
      rw [if_neg hletter]
      exact local_floatNumber _ _ _ hrest h

theorem local_fractionPart (negative : Bool) (s : Nat) (start : Int) :
    Local (fractionPart negative s start) := by
  intro cs n after rest hrest h
  unfold fractionPart at h ⊢
  rw [spanDigits_append hrest]
  generalize Numeral.spanDigits cs = parts at h ⊢
  obtain ⟨_ | ⟨d, digits⟩, follow⟩ := parts
  · cases h
  · simp only at h ⊢
    exact local_exponentPart _ _ _ hrest h

theorem local_wholeNumber (negative : Bool) (s : Nat) : Local (wholeNumber negative s) := by
  intro cs n after rest hrest h
  unfold wholeNumber at h ⊢
  cases negative
  all_goals
    simp only [Bool.false_eq_true, if_false, if_true] at h ⊢
    split at h
    · next hwhole =>
      rw [dif_pos hwhole]
      cases h
      rfl
    · next hwhole =>
      rw [dif_neg hwhole]
      exact local_floatNumber _ _ _ hrest h

/-- What a number is, given its leading digits and what follows them. -/
def afterDigits (negative : Bool) (s : Nat) (excess after : List Char) : Reading Number :=
  match after with
  | '.' :: after => fractionPart negative s excess.length after
  | d :: rest =>
    if d == 'e' || d == 'E' || !excess.isEmpty then
      exponentPart negative s excess.length (d :: rest)
    else wholeNumber negative s (d :: rest)
  | [] =>
    if excess.isEmpty then wholeNumber negative s []
    else floatNumber negative s excess.length []

theorem afterDigits_cons {d : Char} (hd : d ≠ '.') (negative : Bool) (s : Nat)
    (excess rest : List Char) :
    afterDigits negative s excess (d :: rest)
      = if d == 'e' || d == 'E' || !excess.isEmpty then
          exponentPart negative s excess.length (d :: rest)
        else wholeNumber negative s (d :: rest) := by
  rw [afterDigits]
  exact hd

theorem readNumber_cons (negative : Bool) (c : Char) (cs : List Char) :
    readNumber negative (c :: cs)
      = if !c.isDigit then .error (.next .invalidNumber (c :: cs))
        else if c == '0' && cs.head?.any Char.isDigit then .error (.next .invalidNumber cs)
        else
          let parts := Numeral.spanDigits (c :: cs)
          let absorbed := absorb significandLimit 0 parts.1
          afterDigits negative absorbed.1 absorbed.2 parts.2 := by
  cases cs <;> rfl

theorem local_afterDigits (negative : Bool) (s : Nat) (excess : List Char) :
    Local (afterDigits negative s excess) := by
  intro cs n after rest hrest h
  cases cs with
  | nil =>
    rw [List.nil_append]
    cases rest with
    | nil => rwa [List.append_nil]
    | cons d ds =>
      have hd := hrest d rfl
      rw [afterDigits_cons (by rcases hd with rfl | rfl <;> decide)]
      rw [afterDigits] at h
      have hletter : (d == 'e' || d == 'E' || !excess.isEmpty) = !excess.isEmpty := by
        rcases hd with rfl | rfl <;> rfl
      rw [hletter]
      by_cases hexcess : excess.isEmpty = true
      · rw [if_pos hexcess] at h
        rw [hexcess]
        exact local_wholeNumber _ _ hrest h
      · rw [if_neg hexcess] at h
        rw [Bool.not_eq_true] at hexcess
        rw [hexcess, exponentPart_of_ends _ _ _ hrest]
        exact local_floatNumber _ _ _ hrest h
  | cons d ds =>
    rw [List.cons_append]
    by_cases hpoint : d = '.'
    · subst hpoint
      exact local_fractionPart _ _ _ hrest h
    · rw [afterDigits_cons hpoint] at h ⊢
      split at h
      · next hletter =>
        rw [if_pos hletter]
        exact local_exponentPart _ _ _ hrest h
      · next hletter =>
        rw [if_neg hletter]
        exact local_wholeNumber _ _ hrest h

/-- A number is read as it is, whatever follows that ends it. -/
theorem local_readNumber (negative : Bool) : Local (readNumber negative) := by
  intro cs n after rest hrest h
  cases cs with
  | nil => cases h
  | cons c cs =>
    rw [List.cons_append]
    rw [readNumber_cons] at h ⊢
    have hhead : (cs ++ rest).head?.any Char.isDigit = cs.head?.any Char.isDigit := by
      cases cs with
      | cons d ds => rfl
      | nil =>
        cases rest with
        | nil => rfl
        | cons d ds => rcases hrest d rfl with rfl | rfl <;> rfl
    rw [hhead, ← List.cons_append, spanDigits_append hrest]
    split at h
    · cases h
    · next hdigit =>
      rw [if_neg hdigit]
      split at h
      · cases h
      · next hleading =>
        rw [if_neg hleading]
        exact local_afterDigits _ _ _ hrest h

end Numbers

/-! ## Numbers as values -/

section Values

variable {depth : Nat} {cs rest : List Char} {c : Char}

/-- A number as it is read after its sign. -/
def numberValue (negative : Bool) (cs : List Char) : Reading Json :=
  (readNumber negative cs).map fun (n, rest) => (n.toJson, rest)

theorem local_numberValue (negative : Bool) : Local (numberValue negative) := by
  intro cs j after rest hrest h
  rw [numberValue] at h ⊢
  cases hread : readNumber negative cs with
  | error fault =>
    rw [hread] at h
    cases h
  | ok found =>
    obtain ⟨n, after⟩ := found
    rw [hread] at h
    rw [local_readNumber negative hrest hread]
    cases h
    rfl

theorem readValue_minus (h : skipSpace cs = '-' :: rest) :
    readValue depth cs = numberValue true rest := by
  rw [readValue, h]
  rfl

theorem ne_of_isDigit (hc : c.isDigit = true) {d : Char} (hd : d.isDigit = false) : c ≠ d := by
  rintro rfl
  rw [hd] at hc
  cases hc

theorem skipSpace_of_digit (hc : c.isDigit = true) : skipSpace [c] = [c] := by
  rw [skipSpace, List.dropWhile_cons_of_neg]
  simp only [Bool.or_eq_true, beq_iff_eq, ne_of_isDigit hc (d := ' ') rfl,
    ne_of_isDigit hc (d := '\n') rfl, ne_of_isDigit hc (d := '\t') rfl,
    ne_of_isDigit hc (d := '\r') rfl, or_self, not_false_eq_true]

/-- A text starts as numbers do. -/
def OpensNumber (text : List Char) : Prop := ∃ c cs, text = c :: cs ∧ (c = '-' ∨ c.isDigit = true)

theorem OpensNumber.opens {text : List Char} (h : OpensNumber text) : Opens text := by
  obtain ⟨c, cs, rfl, rfl | hc⟩ := h
  · exact ⟨'-', cs, rfl, rfl, by decide⟩
  · exact ⟨c, cs, rfl, skipSpace_of_digit hc, ne_of_isDigit hc rfl⟩

theorem readValue_digit (h : skipSpace cs = c :: rest) (hc : c.isDigit = true) :
    readValue depth cs = numberValue false (c :: rest) := by
  have hne : ∀ d : Char, d.isDigit = false → c ≠ d := fun _ => ne_of_isDigit hc
  rw [readValue, h]
  simp only [hne 'n' rfl, hne 't' rfl, hne 'f' rfl, hne '-' rfl, if_false, hc, if_true]
  rfl

/-- Where a text starts as numbers do, a number is read. -/
theorem numberValue_of_readValue {text : List Char} {n : Number} {after : List Char}
    (hopens : OpensNumber text) (h : readValue depth text = .ok (n.toJson, after)) :
    (∃ rest, skipSpace text = '-' :: rest ∧ numberValue true rest = .ok (n.toJson, after))
      ∨ ∃ c rest, skipSpace text = c :: rest ∧ c.isDigit = true
        ∧ numberValue false (c :: rest) = .ok (n.toJson, after) := by
  obtain ⟨c, cs, rfl, rfl | hc⟩ := hopens
  · have hspace := skipSpace_cons (c := '-') rfl cs
    rw [readValue_minus hspace] at h
    exact .inl ⟨cs, hspace, h⟩
  · have hspace := skipSpace_cons (skipSpace_of_digit hc) cs
    rw [readValue_digit hspace hc] at h
    exact .inr ⟨c, cs, hspace, hc, h⟩

/-- What is read as a number up to its end is read so wherever it stands. -/
theorem takes_of_number {text : List Char} {n : Number} (hopens : OpensNumber text)
    (h : readValue 0 text = .ok (n.toJson, [])) (depth : Nat) :
    Takes (readValue depth) text n.toJson := by
  refine takes_readValue hopens.opens fun rest hrest => ?_
  rcases numberValue_of_readValue hopens h with
    ⟨after, hspace, hread⟩ | ⟨c, after, hspace, hc, hread⟩
  · rw [readValue_minus (skipSpace_append hspace rest)]
    exact local_numberValue true hrest hread
  · rw [readValue_digit (skipSpace_append hspace rest) hc]
    exact local_numberValue false hrest hread

/-! ## Whole numbers -/

theorem isDigit_of_mem {m : Nat} (h : c ∈ Nat.toDigits 10 m) : c.isDigit = true :=
  Nat.isDigit_of_mem_toDigits (by decide) (by decide) h

theorem le_ofDigitChars (ds : List Char) (m : Nat) : m ≤ Nat.ofDigitChars 10 ds m := by
  induction ds generalizing m with
  | nil => exact Nat.le_refl m
  | cons d ds ih =>
    rw [Nat.ofDigitChars_cons]
    have hle := ih (10 * m + (d.toNat - '0'.toNat))
    omega

/-- Digits of a number that stays within the limit are all taken. -/
theorem absorb_eq {limit m : Nat} {ds : List Char} (h : Nat.ofDigitChars 10 ds m ≤ limit) :
    absorb limit m ds = (Nat.ofDigitChars 10 ds m, []) := by
  induction ds generalizing m with
  | nil => rfl
  | cons d ds ih =>
    rw [Nat.ofDigitChars_cons] at h ⊢
    rw [absorb, Numeral.digitValue]
    have hle := Nat.le_trans (le_ofDigitChars ds _) h
    rw [if_pos hle]
    exact ih h

/-- Only zero is written with a zero in front. -/
theorem head_toDigits_ne {m : Nat} (hm : m ≠ 0) : (Nat.toDigits 10 m).head? ≠ some '0' := by
  induction m using Nat.strongRecOn with
  | ind m ih =>
    rw [Nat.toDigits_eq_if (by decide)]
    split
    · next hlt =>
      intro h
      have hdigit : ∀ d < 10, d ≠ 0 → Nat.digitChar d ≠ '0' := by decide
      exact hdigit m hlt hm (Option.some.inj h)
    · next hge =>
      have hrest := ih (m / 10) (by omega) (by omega)
      cases hds : Nat.toDigits 10 (m / 10) with
      | nil => exact absurd hds Nat.toDigits_ne_nil
      | cons c cs => rwa [hds] at hrest

/-- The digits of a number are read as this number. -/
theorem readNumber_toDigits {m : Nat} (h : m ≤ significandLimit) (negative : Bool) :
    readNumber negative (Nat.toDigits 10 m) = wholeNumber negative m [] := by
  cases hds : Nat.toDigits 10 m with
  | nil => exact absurd hds Nat.toDigits_ne_nil
  | cons c cs =>
    have hdigits : ∀ d ∈ c :: cs, d.isDigit = true := fun d hd => isDigit_of_mem (hds ▸ hd)
    have hspan : Numeral.spanDigits (c :: cs) = (c :: cs, []) := by
      rw [spanDigits_eq, List.takeWhile_eq_self_iff.2 hdigits, List.dropWhile_eq_nil_iff.2 hdigits]
    have hvalue : Nat.ofDigitChars 10 (c :: cs) 0 = m := by
      rw [← hds, Nat.ofDigitChars_ten_toDigits]
    rw [readNumber_cons, hdigits c List.mem_cons_self, hspan]
    have hleading : (c == '0' && cs.head?.any Char.isDigit) = false := by
      cases cs with
      | nil => rw [List.head?_nil, Option.any_none, Bool.and_false]
      | cons d ds =>
        have hm : m ≠ 0 := by
          rintro rfl
          cases hds
        have hne := head_toDigits_ne hm
        rw [hds, List.head?_cons] at hne
        rw [beq_eq_false_iff_ne.2 fun he => hne (congrArg some he), Bool.false_and]
    rw [hleading]
    simp only [Bool.not_true, Bool.false_eq_true, if_false]
    rw [absorb_eq (hvalue ▸ h), hvalue]
    rfl

theorem wholeNumber_eq {negative : Bool} {m : Nat} {n : WideInteger}
    (h : n.1 = if negative then -(m : Int) else m) (hzero : ¬(negative = true ∧ n.1 = 0)) :
    wholeNumber negative m rest = .ok (.integer n, rest) := by
  obtain ⟨n, hn⟩ := n
  subst h
  rw [wholeNumber]
  exact dif_pos ⟨hn, hzero⟩

theorem opensNumber_integer (n : Int) : OpensNumber (toString n).toList := by
  show OpensNumber n.repr.toList
  rw [Int.repr_eq_if]
  split
  · rw [Nat.toList_repr]
    cases hds : Nat.toDigits 10 n.toNat with
    | nil => exact absurd hds Nat.toDigits_ne_nil
    | cons c cs => exact ⟨c, cs, rfl, .inr (isDigit_of_mem (hds ▸ List.mem_cons_self))⟩
  · rw [String.toList_append]
    exact ⟨'-', _, rfl, .inl rfl⟩

theorem readValue_integer (n : WideInteger) :
    readValue 0 (toString n.1).toList = .ok ((Number.integer n).toJson, []) := by
  show readValue 0 n.1.repr.toList = _
  have hbounds := n.2
  rw [Int.repr_eq_if]
  split
  · next hpos =>
    have hread : readNumber false (Nat.toDigits 10 n.1.toNat) = .ok (.integer n, []) := by
      rw [readNumber_toDigits (by unfold significandLimit; omega)]
      exact wholeNumber_eq (Int.toNat_of_nonneg hpos).symm nofun
    rw [Nat.toList_repr]
    cases hds : Nat.toDigits 10 n.1.toNat with
    | nil => exact absurd hds Nat.toDigits_ne_nil
    | cons c cs =>
      have hc : c.isDigit = true := isDigit_of_mem (hds ▸ List.mem_cons_self)
      rw [hds] at hread
      rw [readValue_digit (skipSpace_cons (skipSpace_of_digit hc) cs) hc, numberValue, hread]
      rfl
  · next hneg =>
    have hread : readNumber true (Nat.toDigits 10 (-n.1).toNat) = .ok (.integer n, []) := by
      rw [readNumber_toDigits (by unfold significandLimit; omega)]
      refine wholeNumber_eq ?_ ?_
      · rw [if_pos rfl]
        omega
      · rintro ⟨-, hzero⟩
        omega
    rw [String.toList_append, Nat.toList_repr]
    show readValue 0 ('-' :: Nat.toDigits 10 (-n.1).toNat) = _
    rw [readValue_minus rfl, numberValue, hread]
    rfl

/-- **A whole number is read as it is written.** -/
theorem takes_integer (n : WideInteger) (depth : Nat) :
    Takes (readValue depth) (toString n.1).toList (.integer n) :=
  takes_of_number (n := .integer n) (opensNumber_integer n.1) (readValue_integer n) depth

/-! ## Written floats -/

/-- Written digits start with a digit. -/
theorem exists_digit_marked (layout : MarkedLayout) (d : Digits) :
    ∃ c cs, (d.marked layout).toList = c :: cs ∧ c.isDigit = true := by
  obtain ⟨c, cs, hds, hc⟩ : ∃ c cs, (toString d.digits).toList = c :: cs ∧ c.isDigit = true := by
    show ∃ c cs, d.digits.repr.toList = c :: cs ∧ c.isDigit = true
    rw [Nat.toList_repr]
    cases hds : Nat.toDigits 10 d.digits with
    | nil => exact absurd hds Nat.toDigits_ne_nil
    | cons c cs => exact ⟨c, cs, rfl, isDigit_of_mem (hds ▸ List.mem_cons_self)⟩
  have hsplit : ∀ point : Nat, 0 < point → ∀ more : String,
      ∃ ds, (Digits.split (c :: cs) point ++ more).toList = c :: ds := by
    intro point hpoint more
    obtain ⟨point, rfl⟩ := Nat.exists_eq_succ_of_ne_zero (Nat.ne_of_gt hpoint)
    rw [Digits.split, String.toList_append, String.toList_append, String.toList_append,
      String.toList_ofList, List.take_succ_cons]
    exact ⟨_, rfl⟩
  have hwhole : ∀ more : String, ∃ ds, (String.ofList (c :: cs) ++ more).toList = c :: ds := by
    intro more
    rw [String.toList_append, String.toList_ofList]
    exact ⟨_, rfl⟩
  rw [Digits.marked, hds]
  split
  · obtain ⟨ds, h⟩ := hwhole (Digits.zeros d.exponent.toNat ++ ".0")
    rw [← String.append_assoc] at h
    exact ⟨c, ds, h, hc⟩
  split
  · next hpoint =>
    obtain ⟨ds, h⟩ := hsplit _ (by omega : 0 < (((c :: cs).length : Int) + d.exponent).toNat) ""
    rw [String.append_empty] at h
    exact ⟨c, ds, h, hc⟩
  split
  · rw [String.toList_append, String.toList_append]
    exact ⟨'0', _, rfl, rfl⟩
  split
  · obtain ⟨ds, h⟩ := hwhole (layout.style.text _)
    exact ⟨c, ds, h, hc⟩
  · obtain ⟨ds, h⟩ := hsplit 1 (by decide) (layout.style.text _)
    exact ⟨c, ds, h, hc⟩

/-- A float that has a written form is written as numbers are. -/
theorem opensNumber_of_marked {layout : MarkedLayout} {x : WrittenFloat} {text : String}
    (h : x.marked layout = some text) : OpensNumber text.toList := by
  have hsigned : ∀ (negative : Bool) (digits : String),
      (∃ c cs, digits.toList = c :: cs ∧ c.isDigit = true) →
        OpensNumber (WrittenFloat.sign negative ++ digits).toList := by
    rintro negative digits ⟨c, cs, hdigits, hc⟩
    rw [String.toList_append, hdigits]
    cases negative with
    | true => exact ⟨'-', _, rfl, .inl rfl⟩
    | false => exact ⟨c, cs, rfl, .inr hc⟩
  cases x with
  | undefined => cases h
  | infinite negative => cases h
  | zero negative =>
    cases h
    exact hsigned negative "0.0" ⟨'0', ['.', '0'], rfl, rfl⟩
  | number negative r =>
    cases h
    exact hsigned negative _ (exists_digit_marked layout _)

end Values

end BranchingDialogue.Json
