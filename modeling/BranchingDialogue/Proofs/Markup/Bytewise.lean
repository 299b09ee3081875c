import BranchingDialogue.Proofs.Markup.Cut
import BranchingDialogue.Proofs.Text.Cuts
import Mathlib.Data.List.Induction

/-!
# Scanning bytes

In memory a text is a row of bytes. A scanner that works on these moves a cursor over them, compares
single bytes and cuts parts out of the text by byte positions, which fails at a position that lies
inside a character or past the end. `Bytewise.scan?` is the scan in these terms.

All that is looked for is ASCII, and no byte of another character is ASCII in UTF-8. So a class of
ASCII characters can be tested byte by byte (`Bytewise.Agrees`), and the cursor stops between
characters only.

Main result: `Bytewise.scan?_eq`, the scan of the bytes fails nowhere and finds what the scan of the
characters finds.
-/

namespace BranchingDialogue

/-- The UTF-8 form of some characters. -/
def utf8Bytes (cs : List Char) : List UInt8 := cs.flatMap String.utf8EncodeChar

namespace Bytewise

/-- Whether a byte is an ASCII character of a class. -/
def isOf (p : Char → Bool) (b : UInt8) : Bool := b.toNat < 128 && p (Char.ofNat b.toNat)

/-- How the body of a tag ends. -/
inductive BodyEnd where
  /-- At the `>` that the cursor is at. -/
  | closed (cursor : Nat)
  /-- Not at all. -/
  | broken
  /-- In the quoted run that begins at a position. -/
  | openQuote (offset : Nat)
  deriving DecidableEq, Repr

/-- Moves the cursor to the end of a tag's body; it is at the first of the bytes. -/
def bodyEnd (cursor : Nat) : List UInt8 → BodyEnd
  | [] => .broken
  | b :: bytes =>
    if isOf isQuote b then
      match bytes.findIdx? (· == b) with
      | some relative => bodyEnd (cursor + relative + 2) (bytes.drop (relative + 1))
      | none => .openQuote cursor
    else if isOf (· == '<') b then .broken
    else if isOf (· == '>') b then .closed cursor
    else bodyEnd (cursor + 1) bytes
  termination_by bytes => bytes.length

/-- Cuts the parts of a tag out of a text; the cursor is at its `>`. None if a part does not lie
between characters. -/
def assemble? (text : String) (start bodyStart close : Nat) (closing : Bool) (name : List Char) :
    Option Scan :=
  let marker := decide (bodyStart < close)
    && text.toUTF8.data.toList[close - 1]?.any (isOf (· == '/'))
  if closing && marker then some .notATag
  else
    (slice? text bodyStart (if marker then close - 1 else close)).bind fun body =>
      (slice? text start (close + 1)).map fun source =>
        .tag
          { boundary := if closing then .stop else if marker then .marker else .start
            name := String.ofList name
            body := String.ofList body
            start
            stop := close + 1
            bodyStart
            source := String.ofList source }

/-- Goes on with a scan at the place where the name begins. -/
def fromName? (text : String) (start nameStart : Nat) (closing : Bool) : Option Scan :=
  let bytes := text.toUTF8.data.toList
  let bodyStart := nameStart + ((bytes.drop nameStart).takeWhile (isOf isNameChar)).length
  if bodyStart = nameStart then some .notATag
  else
    (slice? text nameStart bodyStart).bind fun name =>
      if bytes[bodyStart]?.any (isOf opensBody) then
        match bodyEnd bodyStart (bytes.drop bodyStart) with
        | .closed close => assemble? text start bodyStart close closing name
        | .broken => some .notATag
        | .openQuote offset => some (.unterminatedQuote (String.ofList name) offset)
      else some .notATag

/-- Scans the bytes of a text at a position; none if a part that is cut out does not lie between
characters. -/
def scan? (text : String) (start : Nat) : Option Scan :=
  let bytes := text.toUTF8.data.toList
  if bytes[start]?.any (isOf (· == '<')) then
    let closing := bytes[start + 1]?.any (isOf (· == '/'))
    fromName? text start (start + 1 + (if closing then 1 else 0)) closing
  else some .notATag

end Bytewise

/-! ## Bytes of characters -/

theorem utf8Bytes_cons (c : Char) (cs : List Char) :
    utf8Bytes (c :: cs) = String.utf8EncodeChar c ++ utf8Bytes cs := rfl

theorem utf8Bytes_append (cs ds : List Char) :
    utf8Bytes (cs ++ ds) = utf8Bytes cs ++ utf8Bytes ds :=
  List.flatMap_append

theorem length_utf8Bytes (cs : List Char) : (utf8Bytes cs).length = utf8Length cs := by
  induction cs with
  | nil => rfl
  | cons c cs ih =>
    rw [utf8Bytes_cons, List.length_append, String.length_utf8EncodeChar, ih, utf8Length_cons]

theorem toUTF8_eq (text : String) : text.toUTF8.data.toList = utf8Bytes text.toList := by
  obtain ⟨cs, rfl⟩ : ∃ cs, text = String.ofList cs := ⟨text.toList, String.ofList_toList.symm⟩
  have hbytes : (String.ofList cs).toUTF8 = cs.utf8Encode := String.toByteArray_ofList
  rw [hbytes, String.toList_ofList, List.utf8Encode, List.data_toByteArray, List.toList_toArray,
    utf8Bytes]

theorem exists_utf8EncodeChar (c : Char) : ∃ b bytes, String.utf8EncodeChar c = b :: bytes := by
  apply List.exists_cons_of_length_pos
  rw [String.length_utf8EncodeChar]
  exact c.utf8Size_pos

/-- A character has an ASCII byte only if it is one. -/
theorem utf8EncodeChar_cases (c : Char) :
    (c.toNat < 128 ∧ String.utf8EncodeChar c = [UInt8.ofNat c.toNat])
      ∨ (128 ≤ c.toNat ∧ ∀ b ∈ String.utf8EncodeChar c, 128 ≤ b.toNat) := by
  have hval : c.val.toNat = c.toNat := rfl
  by_cases hascii : c.toNat ≤ 127
  · refine .inl ⟨by omega, ?_⟩
    simp only [String.utf8EncodeChar, hval, if_pos hascii]
  · refine .inr ⟨by omega, fun b hb => ?_⟩
    simp only [String.utf8EncodeChar, hval, if_neg hascii] at hb
    split at hb
    · simp only [List.mem_cons, List.not_mem_nil, or_false] at hb
      rcases hb with rfl | rfl <;> simp only [UInt8.toNat_ofNat'] <;> omega
    · split at hb
      · simp only [List.mem_cons, List.not_mem_nil, or_false] at hb
        rcases hb with rfl | rfl | rfl <;> simp only [UInt8.toNat_ofNat'] <;> omega
      · simp only [List.mem_cons, List.not_mem_nil, or_false] at hb
        rcases hb with rfl | rfl | rfl | rfl <;> simp only [UInt8.toNat_ofNat'] <;> omega

/-- An ASCII byte of a text is a character of its own, so it stands between characters. -/
theorem exists_append_of_ascii {cs : List Char} {n : Nat} {b : UInt8}
    (h : (utf8Bytes cs)[n]? = some b) (hascii : b.toNat < 128) :
    ∃ before rest, cs = before ++ rest ∧ utf8Length before = n := by
  induction cs generalizing n with
  | nil => simp [utf8Bytes] at h
  | cons c cs ih =>
    rw [utf8Bytes_cons] at h
    by_cases hn : n < c.utf8Size
    · rw [List.getElem?_append_left (by rwa [String.length_utf8EncodeChar])] at h
      rcases utf8EncodeChar_cases c with ⟨-, hone⟩ | ⟨-, hhigh⟩
      · rw [hone] at h
        obtain ⟨hlt, -⟩ := List.getElem?_eq_some_iff.1 h
        rw [List.length_singleton, Nat.lt_one_iff] at hlt
        exact ⟨[], c :: cs, rfl, hlt.symm⟩
      · have hle := hhigh b (List.mem_of_getElem? h)
        omega
    · rw [List.getElem?_append_right (by rw [String.length_utf8EncodeChar]; omega),
        String.length_utf8EncodeChar] at h
      obtain ⟨before, rest, rfl, hlen⟩ := ih h
      exact ⟨c :: before, rest, rfl, by rw [utf8Length_cons]; omega⟩

namespace Bytewise

/-! ## Classes of bytes -/

/-- Every byte of a character is in a class of bytes exactly if the character is in one of
characters. -/
def Agrees (P : UInt8 → Bool) (p : Char → Bool) : Prop :=
  ∀ c, ∀ b ∈ String.utf8EncodeChar c, P b = p c

theorem agrees_isOf {p : Char → Bool} (h : ∀ c, p c → c.toNat < 128) : Agrees (isOf p) p := by
  intro c b hb
  rcases utf8EncodeChar_cases c with ⟨hascii, hone⟩ | ⟨hother, hhigh⟩
  · rw [hone, List.mem_singleton] at hb
    have hb' : b.toNat = c.toNat := by
      rw [hb, UInt8.toNat_ofNat']
      omega
    rw [isOf, hb', Char.ofNat_toNat]
    simp [hascii]
  · have hle := hhigh b hb
    have hp : p c = false := by
      by_contra hne
      have hlt := h c (by simpa using hne)
      omega
    rw [hp, isOf, decide_eq_false (by omega), Bool.false_and]

theorem toNat_lt_of_isNameChar {c : Char} (h : isNameChar c) : c.toNat < 128 := by
  unfold isNameChar Char.isAlpha Char.isUpper Char.isLower at h
  simp only [Bool.or_eq_true, Bool.and_eq_true, decide_eq_true_eq, beq_iff_eq,
    UInt32.le_iff_toNat_le, ge_iff_le] at h
  have hval : c.val.toNat = c.toNat := rfl
  have hZ : 'Z'.val.toNat = 90 := rfl
  have hz : 'z'.val.toNat = 122 := rfl
  rcases h with (h | h) | rfl
  · omega
  · omega
  · decide

theorem agrees_name : Agrees (isOf isNameChar) isNameChar :=
  agrees_isOf fun _ h => toNat_lt_of_isNameChar h

theorem toNat_lt_of_isQuote {c : Char} (h : isQuote c) : c.toNat < 128 := by
  simp only [isQuote, Bool.or_eq_true, beq_iff_eq] at h
  rcases h with rfl | rfl <;> decide

theorem agrees_quote : Agrees (isOf isQuote) isQuote := agrees_isOf fun _ h => toNat_lt_of_isQuote h

theorem agrees_opens : Agrees (isOf opensBody) opensBody := by
  refine agrees_isOf fun c hc => ?_
  simp only [opensBody, isBlank, Bool.or_eq_true, beq_iff_eq] at hc
  rcases hc with ((rfl | rfl) | rfl) | (((rfl | rfl) | rfl) | rfl) | rfl <;> decide

theorem agrees_char (d : Char) (h : d.toNat < 128) : Agrees (isOf (· == d)) (· == d) := by
  refine agrees_isOf fun c hc => ?_
  rw [beq_iff_eq] at hc
  rwa [hc]

/-- A byte that is an ASCII character is no other byte. -/
theorem agrees_byte {q : Char} {b : UInt8} (h : String.utf8EncodeChar q = [b])
    (hascii : q.toNat < 128) : Agrees (· == b) (· == q) := by
  intro c b' hb'
  have hb : b.toNat = q.toNat := by
    rcases utf8EncodeChar_cases q with ⟨-, hone⟩ | ⟨hother, -⟩
    · rw [hone, List.cons.injEq] at h
      rw [← h.1, UInt8.toNat_ofNat']
      omega
    · omega
  rw [Bool.eq_iff_iff, beq_iff_eq, beq_iff_eq]
  constructor
  · rintro rfl
    rcases utf8EncodeChar_cases c with ⟨hc, hone⟩ | ⟨-, hhigh⟩
    · rw [hone, List.mem_singleton] at hb'
      rw [hb', UInt8.toNat_ofNat', Nat.mod_eq_of_lt (by omega)] at hb
      exact Char.toNat_inj.1 hb
    · have hle := hhigh b' hb'
      omega
  · rintro rfl
    rwa [h, List.mem_singleton] at hb'

namespace Agrees

variable {P : UInt8 → Bool} {p : Char → Bool}

theorem takeWhile (h : Agrees P p) (cs : List Char) :
    (utf8Bytes cs).takeWhile P = utf8Bytes (cs.takeWhile p) := by
  induction cs with
  | nil => rfl
  | cons c cs ih =>
    rw [utf8Bytes_cons]
    by_cases hc : p c
    · rw [List.takeWhile_append_of_pos fun b hb => by rw [h c b hb, hc], ih,
        List.takeWhile_cons_of_pos hc, utf8Bytes_cons]
    · obtain ⟨b, bytes, hbytes⟩ := exists_utf8EncodeChar c
      have hb : P b = p c := h c b (by rw [hbytes]; exact List.mem_cons_self)
      rw [hbytes, List.cons_append, List.takeWhile_cons_of_neg (by rwa [hb]),
        List.takeWhile_cons_of_neg hc]
      rfl

theorem head? (h : Agrees P p) (cs : List Char) :
    (utf8Bytes cs).head?.any P = cs.head?.any p := by
  cases cs with
  | nil => rfl
  | cons c cs =>
    obtain ⟨b, bytes, hbytes⟩ := exists_utf8EncodeChar c
    rw [utf8Bytes_cons, hbytes]
    exact h c b (by rw [hbytes]; exact List.mem_cons_self)

theorem getLast? (h : Agrees P p) (cs : List Char) :
    (utf8Bytes cs).getLast?.any P = cs.getLast?.any p := by
  cases cs using List.reverseRecOn with
  | nil => rfl
  | append_singleton cs c =>
    obtain ⟨b, bytes, hbytes⟩ := exists_utf8EncodeChar c
    have hlast : (String.utf8EncodeChar c).getLast? = some ((b :: bytes).getLast (by simp)) := by
      rw [hbytes, List.getLast?_eq_some_getLast]
    have hmem := List.mem_of_getLast? hlast
    rw [utf8Bytes_append, List.getLast?_append, utf8Bytes_cons, utf8Bytes, List.flatMap_nil,
      List.append_nil, hlast, List.getLast?_concat]
    exact h c _ hmem

theorem eq_false_of_mem (h : Agrees P p) {cs : List Char} (hcs : ∀ c ∈ cs, ¬p c) :
    ∀ b ∈ utf8Bytes cs, P b = false := by
  intro b hb
  obtain ⟨c, hc, hmem⟩ := List.mem_flatMap.1 hb
  rw [h c b hmem]
  simpa using hcs c hc

/-- At a position between characters a byte is tested like the character that begins there. -/
theorem getElem?_append (h : Agrees P p) (before cs : List Char) :
    (utf8Bytes (before ++ cs))[utf8Length before]?.any P = cs.head?.any p := by
  rw [utf8Bytes_append, ← length_utf8Bytes, List.getElem?_append_right (Nat.le_refl _),
    Nat.sub_self, ← List.head?_eq_getElem?, h.head?]

end Agrees

theorem drop_utf8Bytes (before cs : List Char) :
    (utf8Bytes (before ++ cs)).drop (utf8Length before) = utf8Bytes cs := by
  rw [utf8Bytes_append, ← length_utf8Bytes, List.drop_left]

/-! ## The end of a body -/

/-- Bytes that are neither quotes nor angle brackets are passed over. -/
theorem bodyEnd_plain {bs : List UInt8}
    (h : ∀ b ∈ bs, ¬isOf isQuote b ∧ ¬isOf (· == '<') b ∧ ¬isOf (· == '>') b) (cursor : Nat)
    (bytes : List UInt8) : bodyEnd cursor (bs ++ bytes) = bodyEnd (cursor + bs.length) bytes := by
  induction bs generalizing cursor with
  | nil => rfl
  | cons b bs ih =>
    rw [List.forall_mem_cons] at h
    obtain ⟨⟨hquote, hopening, hclosing⟩, hrest⟩ := h
    rw [List.cons_append, bodyEnd, if_neg hquote, if_neg hopening, if_neg hclosing, ih hrest,
      List.length_cons]
    congr 1
    omega

/-- The search for a closing quote ends at the first one. -/
theorem findIdx?_quote {q : Char} {b : UInt8} (h : Agrees (· == b) (· == q))
    (hone : String.utf8EncodeChar q = [b]) {run : List Char} (inside : q ∉ run)
    (rest : List Char) :
    (utf8Bytes (run ++ q :: rest)).findIdx? (· == b) = some (utf8Length run) := by
  have hnone : (utf8Bytes run).findIdx? (· == b) = none := by
    rw [List.findIdx?_eq_none_iff]
    refine h.eq_false_of_mem fun c hc hcq => inside ?_
    rw [beq_iff_eq] at hcq
    rwa [← hcq]
  rw [utf8Bytes_append, List.findIdx?_append, hnone, utf8Bytes_cons, hone, List.singleton_append,
    List.findIdx?_cons, beq_self_eq_true, if_pos rfl, Option.map_some, Option.none_or,
    length_utf8Bytes, Nat.zero_add]

theorem exists_byte_of_isQuote {q : Char} (quote : isQuote q) :
    ∃ b, String.utf8EncodeChar q = [b] ∧ isOf isQuote b ∧ Agrees (· == b) (· == q) := by
  have hascii := toNat_lt_of_isQuote quote
  rcases utf8EncodeChar_cases q with ⟨-, hone⟩ | ⟨hother, -⟩
  · refine ⟨_, hone, ?_, agrees_byte hone hascii⟩
    rw [agrees_quote q _ (by rw [hone]; exact List.mem_singleton_self _)]
    exact quote
  · omega

/-- A body is passed over. -/
theorem bodyEnd_append {body : List Char} (h : IsBody body) (cursor : Nat) (tail : List Char) :
    bodyEnd cursor (utf8Bytes (body ++ tail))
      = bodyEnd (cursor + utf8Length body) (utf8Bytes tail) := by
  induction h generalizing cursor with
  | nil => rfl
  | @quoted q run rest quote inside _ ih =>
    obtain ⟨b, hone, hquote, hb⟩ := exists_byte_of_isQuote quote
    have hsize : q.utf8Size = 1 := by
      rw [← String.length_utf8EncodeChar, hone, List.length_singleton]
    have hsplit : q :: run ++ q :: rest ++ tail = q :: (run ++ q :: (rest ++ tail)) := by simp
    have hafter : (utf8Bytes (run ++ q :: (rest ++ tail))).drop (utf8Length run + 1)
        = utf8Bytes (rest ++ tail) := by
      have hend : utf8Length run + 1 = utf8Length (run ++ [q]) := by
        rw [utf8Length_append, utf8Length_cons, hsize, utf8Length_nil]
      rw [hend, List.append_cons run q (rest ++ tail), drop_utf8Bytes]
    rw [hsplit, utf8Bytes_cons, hone, List.singleton_append, bodyEnd, if_pos hquote,
      findIdx?_quote hb hone inside]
    simp only
    rw [hafter, ih]
    congr 1
    simp only [utf8Length_cons, utf8Length_append, hsize]
    omega
  | @plain c rest noQuote noOpening noClosing _ ih =>
    have hplain : ∀ b ∈ String.utf8EncodeChar c,
        ¬isOf isQuote b ∧ ¬isOf (· == '<') b ∧ ¬isOf (· == '>') b := by
      intro b hb
      rw [agrees_quote c b hb, agrees_char '<' (by decide) c b hb,
        agrees_char '>' (by decide) c b hb]
      simp [noQuote, noOpening, noClosing]
    rw [List.cons_append, utf8Bytes_cons, bodyEnd_plain hplain, ih,
      String.length_utf8EncodeChar, utf8Length_cons, Nat.add_assoc]

/-- The end of a body that the bytes have is the one that the characters have. -/
theorem bodyEnd_utf8Bytes (cursor : Nat) (cs : List Char) :
    bodyEnd cursor (utf8Bytes cs)
      = match Scan.bodyEnd none cursor [] cs with
        | .closed body => .closed (cursor + utf8Length body)
        | .broken => .broken
        | .openQuote offset => .openQuote offset := by
  obtain ⟨body, tail, hbody, rfl, htail⟩ := IsBody.exists_longest cs
  rw [bodyEnd_append hbody]
  rcases htail with rfl | ⟨rest, rfl⟩ | ⟨rest, rfl⟩ | ⟨q, rest, hquote, hopen, rfl⟩
  · rw [Scan.bodyEnd_append hbody, utf8Bytes, List.flatMap_nil, bodyEnd]
    rfl
  · have hone : String.utf8EncodeChar '<' = [60] := by decide
    rw [Scan.bodyEnd_append hbody, utf8Bytes_cons, hone, List.singleton_append, bodyEnd]
    rfl
  · have hone : String.utf8EncodeChar '>' = [62] := by decide
    rw [Scan.bodyEnd_closing hbody, utf8Bytes_cons, hone, List.singleton_append, bodyEnd]
    rfl
  · obtain ⟨b, hone, hb, hagrees⟩ := exists_byte_of_isQuote hquote
    have hnone : (utf8Bytes rest).findIdx? (· == b) = none := by
      rw [List.findIdx?_eq_none_iff]
      refine hagrees.eq_false_of_mem fun c hc hcq => hopen ?_
      rw [beq_iff_eq] at hcq
      rwa [← hcq]
    rw [Scan.bodyEnd_openQuote hbody hquote hopen, utf8Bytes_cons, hone, List.singleton_append,
      bodyEnd, if_pos hb, hnone]

/-! ## The scan -/

/-- Between characters the byte in front of a `>` is a `/` exactly if the body in front of it ends
in one. -/
theorem marker_eq (before body rest : List Char) :
    (decide (utf8Length before < utf8Length before + utf8Length body)
        && (utf8Bytes (before ++ body ++ rest))[utf8Length before + utf8Length body - 1]?.any
          (isOf (· == '/')))
      = decide (body.getLast? = some '/') := by
  cases body using List.reverseRecOn with
  | nil => simp
  | append_singleton body c =>
    have hpos := c.utf8Size_pos
    have hlen : utf8Length before + utf8Length (body ++ [c])
        = (utf8Bytes (before ++ (body ++ [c]))).length := by
      rw [length_utf8Bytes, utf8Length_append before]
    have hsize : 0 < utf8Length (body ++ [c]) := by
      rw [utf8Length_append, utf8Length_cons]
      omega
    rw [decide_eq_true (by omega), Bool.true_and, utf8Bytes_append _ rest, hlen,
      List.getElem?_append_left (by omega), ← List.getLast?_eq_getElem?,
      (agrees_char '/' (by decide)).getLast?, ← List.append_assoc, List.getLast?_concat,
      List.getLast?_concat]
    simp [Bool.beq_eq_decide_eq]

/-- The characters in front of a tag's name. -/
theorem utf8Length_front (before : List Char) (closing : Bool) :
    utf8Length (before ++ '<' :: (if closing then ['/'] else []))
      = utf8Length before + 1 + (if closing then 1 else 0) := by
  rw [utf8Length_append, utf8Length_cons, Nat.add_assoc]
  cases closing <;> rfl

variable {text : String} {before : List Char} {closing : Bool}

/-- What is cut out is the tag that the characters make up. -/
theorem assemble?_eq {name body rest : List Char} {bodyStart : Nat}
    (h : text.toList
      = before ++ '<' :: (if closing then ['/'] else []) ++ name ++ body ++ '>' :: rest)
    (hbodyStart : bodyStart
      = utf8Length before + 1 + (if closing then 1 else 0) + utf8Length name) :
    assemble? text (utf8Length before) bodyStart (bodyStart + utf8Length body) closing name
      = some (Scan.assemble (utf8Length before) closing name body) := by
  have hfront : bodyStart
      = utf8Length (before ++ '<' :: (if closing then ['/'] else []) ++ name) := by
    rw [utf8Length_append, utf8Length_front, hbodyStart]
  have hmarker : (decide (bodyStart < bodyStart + utf8Length body)
      && text.toUTF8.data.toList[bodyStart + utf8Length body - 1]?.any (isOf (· == '/')))
        = decide (body.getLast? = some '/') := by
    rw [toUTF8_eq, h, hfront]
    exact marker_eq _ body _
  have hsource : slice? text (utf8Length before) (bodyStart + utf8Length body + 1)
      = some ('<' :: (if closing then ['/'] else []) ++ name ++ body ++ ['>']) := by
    have htext : text.toList = before
        ++ ('<' :: (if closing then ['/'] else []) ++ name ++ body ++ ['>']) ++ rest := by
      rw [h]
      simp
    refine slice?_eq htext rfl ?_
    have hclose : utf8Length ['>'] = 1 := rfl
    rw [hfront]
    simp only [utf8Length_append]
    omega
  -- The body without the `/` of a marker.
  have hbody : slice? text bodyStart
      (if body.getLast? = some '/' then bodyStart + utf8Length body - 1
        else bodyStart + utf8Length body)
        = some (if body.getLast? = some '/' then body.dropLast else body) := by
    split
    · next hslash =>
      obtain ⟨init, rfl⟩ := List.getLast?_eq_some_iff.1 hslash
      have hone : utf8Length ['/'] = 1 := rfl
      have htext : text.toList = (before ++ '<' :: (if closing then ['/'] else []) ++ name)
          ++ init ++ '/' :: '>' :: rest := by
        rw [h]
        simp
      rw [List.dropLast_concat]
      refine slice?_eq htext hfront ?_
      rw [utf8Length_append]
      omega
    · exact slice?_eq h hfront rfl
  unfold assemble? Scan.assemble
  simp only [← hbodyStart, hmarker]
  simp only [decide_eq_true_eq, hbody, hsource, Option.bind_some, Option.map_some]
  split <;> rfl

/-- From the name on both scans go on alike. -/
theorem fromName?_eq {rest : List Char}
    (h : text.toList = before ++ '<' :: (if closing then ['/'] else []) ++ rest) :
    fromName? text (utf8Length before) (utf8Length before + 1 + (if closing then 1 else 0)) closing
      = some
        (if (rest.takeWhile isNameChar).isEmpty || !(rest.dropWhile isNameChar).head?.any opensBody
          then .notATag
        else
          match Scan.bodyEnd none
            (utf8Length before + 1 + (if closing then 1 else 0)
              + utf8Length (rest.takeWhile isNameChar)) [] (rest.dropWhile isNameChar) with
          | .closed body =>
            Scan.assemble (utf8Length before) closing (rest.takeWhile isNameChar) body
          | .broken => .notATag
          | .openQuote offset =>
            .unterminatedQuote (String.ofList (rest.takeWhile isNameChar)) offset) := by
  have hbytes := toUTF8_eq text
  have hfront := utf8Length_front before closing
  generalize hstart : utf8Length before + 1 + (if closing then 1 else 0) = nameStart at hfront ⊢
  have hname : (text.toUTF8.data.toList.drop nameStart).takeWhile (isOf isNameChar)
      = utf8Bytes (rest.takeWhile isNameChar) := by
    rw [hbytes, h, ← hfront, drop_utf8Bytes, agrees_name.takeWhile]
  rw [← List.takeWhile_append_dropWhile (p := isNameChar) (l := rest), ← List.append_assoc] at h
  generalize rest.takeWhile isNameChar = name at *
  generalize rest.dropWhile isNameChar = body at *
  have hbodyStart : nameStart + utf8Length name
      = utf8Length (before ++ '<' :: (if closing then ['/'] else []) ++ name) := by
    rw [utf8Length_append, hfront]
  have hslice : slice? text nameStart (nameStart + utf8Length name) = some name :=
    slice?_eq h hfront.symm rfl
  have hopens : text.toUTF8.data.toList[nameStart + utf8Length name]?.any (isOf opensBody)
      = body.head?.any opensBody := by
    rw [hbytes, h, hbodyStart, agrees_opens.getElem?_append]
  have hend : text.toUTF8.data.toList.drop (nameStart + utf8Length name) = utf8Bytes body := by
    rw [hbytes, h, hbodyStart, drop_utf8Bytes]
  unfold fromName?
  simp only [hname, length_utf8Bytes, hslice, hopens, hend, bodyEnd_utf8Bytes, Option.bind_some]
  cases name with
  | nil => exact if_pos rfl
  | cons first letters =>
    have hpos := first.utf8Size_pos
    rw [if_neg (by rw [utf8Length_cons]; omega), List.isEmpty_cons, Bool.false_or]
    by_cases hopen : body.head?.any opensBody
    · rw [if_pos hopen, hopen, Bool.not_true, if_neg Bool.false_ne_true]
      rcases Scan.bodyEnd_cases (nameStart + utf8Length (first :: letters)) body with
        ⟨body, rest, -, rfl, hclosed⟩ | hbroken | ⟨_, _, _, -, -, -, -, hquote⟩
      · rw [hclosed]
        have htext : text.toList = before ++ '<' :: (if closing then ['/'] else [])
            ++ (first :: letters) ++ body ++ '>' :: rest := by
          rw [h]
          simp
        exact assemble?_eq htext (by rw [hstart])
      · rw [hbroken]
      · rw [hquote]
    · rw [if_neg hopen, Bool.eq_false_iff.2 hopen, Bool.not_false, if_pos rfl]

/-- The scan at a `<`. -/
theorem scan?_opening {cs : List Char} (h : text.toList = before ++ '<' :: cs) :
    scan? text (utf8Length before) = some (Scan.afterOpening (utf8Length before) cs) := by
  have hopening : text.toUTF8.data.toList[utf8Length before]?.any (isOf (· == '<')) := by
    rw [toUTF8_eq, h, (agrees_char '<' (by decide)).getElem?_append]
    rfl
  have hclosing : text.toUTF8.data.toList[utf8Length before + 1]?.any (isOf (· == '/'))
      = decide (cs.head? = some '/') := by
    have hafter : text.toList = (before ++ ['<']) ++ cs := by rw [h, List.append_assoc]; rfl
    have hlen := utf8Length_front before false
    rw [if_neg Bool.false_ne_true, if_neg Bool.false_ne_true, Nat.add_zero] at hlen
    rw [toUTF8_eq, hafter, ← hlen, (agrees_char '/' (by decide)).getElem?_append]
    cases cs with
    | nil => rfl
    | cons c cs => simp [Bool.beq_eq_decide_eq]
  unfold scan? Scan.afterOpening
  simp only [if_pos hopening, hclosing]
  by_cases hslash : cs.head? = some '/'
  · obtain ⟨rest, rfl⟩ := List.head?_eq_some_iff.1 hslash
    have htext : text.toList = before ++ '<' :: (if true then ['/'] else []) ++ rest := by
      rw [h, List.append_assoc]
      rfl
    exact fromName?_eq htext
  · simp only [hslash, if_false, decide_false]
    have htext : text.toList = before ++ '<' :: (if false then ['/'] else []) ++ cs := by
      rw [h, List.append_assoc]
      rfl
    exact fromName?_eq htext

/-- **The scan of the bytes fails at no position and finds what the scan of the characters
finds.** -/
theorem scan?_eq (text : String) (start : Nat) : scan? text start = some (Scan.ofText text start) := by
  by_cases hbyte : text.toUTF8.data.toList[start]?.any (isOf (· == '<'))
  · obtain ⟨b, hb, hopening⟩ := (Option.any_eq_true _ _).1 hbyte
    rw [toUTF8_eq] at hb
    have hascii : b.toNat < 128 := by
      rw [isOf, Bool.and_eq_true, decide_eq_true_eq] at hopening
      exact hopening.1
    obtain ⟨before, cs, htext, rfl⟩ := exists_append_of_ascii hb hascii
    rw [Scan.ofText_eq htext]
    rw [toUTF8_eq, htext, (agrees_char '<' (by decide)).getElem?_append] at hbyte
    cases cs with
    | nil => cases hbyte
    | cons c cs =>
      obtain rfl : c = '<' := by simpa using hbyte
      exact scan?_opening htext
  · rw [scan?, if_neg hbyte, Scan.ofText]
    split
    · next cs hcs =>
      -- Between characters there is another character than a `<`, or none.
      obtain ⟨before, htext, rfl⟩ := exists_of_dropBytes? hcs
      rw [toUTF8_eq, htext, (agrees_char '<' (by decide)).getElem?_append] at hbyte
      unfold Scan.fromList
      split
      · exact absurd rfl hbyte
      · rfl
    · rfl

end Bytewise

end BranchingDialogue
