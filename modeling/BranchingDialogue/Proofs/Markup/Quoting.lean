import BranchingDialogue.Proofs.Markup.Attributes
import BranchingDialogue.Proofs.Markup.Scanning
import BranchingDialogue.Proofs.Markup.Step

/-!
# Writing tags with quoted values

`writtenTag` writes a tag with its own value and named values, each in a quote that the value does
not have. Two readers see what is written: the scan looks for the end of the tag and passes over
quoted runs, the attributes are cut out of the body afterwards. They agree on what is quoted, so every
value is read as it was written, angle brackets, slashes, blanks and line breaks included.

Main result: `strip_writtenTag`.
-/

namespace BranchingDialogue

/-! ## What is written -/

/-- A value and the quote that it is written in. -/
structure QuotedValue where
  quote : Char
  value : String
  isQuote : isQuote quote
  nonempty : value ≠ ""
  inside : quote ∉ value.toList

/-- A value with a name. -/
structure NamedValue where
  name : String
  isName : IsTagName name.toList
  quoted : QuotedValue

/-- A value in its quotes. -/
def QuotedValue.written (v : QuotedValue) : List Char := v.quote :: v.value.toList ++ [v.quote]

/-- A value with a blank and its name in front. -/
def NamedValue.written (a : NamedValue) : List Char :=
  ' ' :: a.name.toList ++ '=' :: a.quoted.written

/-- All values of a tag. -/
def writtenValues (own : Option QuotedValue) (as : List NamedValue) : List Char :=
  (match own with
    | some v => '=' :: v.written
    | none => [])
  ++ as.flatMap NamedValue.written

/-- The slash at the end of a tag of a shape. -/
def TagShape.slash : TagShape → List Char
  | .span => []
  | .single => ['/']

/-- A tag of a shape with its values. -/
def writtenTag (shape : TagShape) (name : String) (own : Option QuotedValue)
    (as : List NamedValue) : String :=
  String.ofList (tagChars false name.toList (writtenValues own as ++ shape.slash))

/-! ## The body of a written tag -/

namespace IsBody

theorem of_plain {cs : List Char} (h : ∀ c ∈ cs, ¬isQuote c ∧ c ≠ '<' ∧ c ≠ '>') : IsBody cs := by
  induction cs with
  | nil => exact .nil
  | cons c cs ih =>
    rw [List.forall_mem_cons] at h
    exact .plain h.1.1 h.1.2.1 h.1.2.2 (ih h.2)

theorem of_isTagName {name : List Char} (h : IsTagName name) : IsBody name := by
  refine of_plain fun c hc => ?_
  have hletter := (isTagName_iff.1 h).2 c hc
  refine ⟨fun hquote => ?_, ?_, ?_⟩
  · simp only [isQuote, Bool.or_eq_true, beq_iff_eq] at hquote
    rcases hquote with rfl | rfl <;> exact absurd hletter (by decide)
  · rintro rfl
    exact absurd hletter (by decide)
  · rintro rfl
    exact absurd hletter (by decide)

theorem written (v : QuotedValue) : IsBody v.written :=
  .quoted v.isQuote v.inside .nil

theorem writtenNamed (a : NamedValue) : IsBody a.written := by
  have hblank : IsBody [' '] := .plain (by decide) (by decide) (by decide) .nil
  have hequals : IsBody ['='] := .plain (by decide) (by decide) (by decide) .nil
  exact hblank.append ((of_isTagName a.isName).append (hequals.append (written a.quoted)))

theorem flatMap_written (as : List NamedValue) : IsBody (as.flatMap NamedValue.written) := by
  induction as with
  | nil => exact .nil
  | cons a as ih => exact (writtenNamed a).append ih

theorem writtenValues (own : Option QuotedValue) (as : List NamedValue) :
    IsBody (writtenValues own as) := by
  cases own with
  | none => exact flatMap_written as
  | some v =>
    have hown : IsBody ('=' :: v.written) :=
      .plain (by decide) (by decide) (by decide) (written v)
    exact hown.append (flatMap_written as)

end IsBody

theorem QuotedValue.getLast?_written (v : QuotedValue) : v.written.getLast? = some v.quote :=
  List.getLast?_concat

theorem NamedValue.getLast?_written (a : NamedValue) : a.written.getLast? = some a.quoted.quote := by
  have hsplit : a.written = (' ' :: a.name.toList ++ ['=']) ++ a.quoted.written := by
    simp [written]
  rw [hsplit, List.getLast?_append, a.quoted.getLast?_written, Option.some_or]

/-- Values end in a quote, so the slash of a marker is not part of one. -/
theorem getLast?_writtenValues (own : Option QuotedValue) (as : List NamedValue) :
    (writtenValues own as).getLast? ≠ some '/' := by
  have hquote (v : QuotedValue) : v.quote ≠ '/' := by
    intro heq
    exact absurd (heq ▸ v.isQuote) (by decide)
  unfold writtenValues
  cases as using List.reverseRecOn with
  | nil =>
    cases own with
    | none => simp
    | some v =>
      rw [List.flatMap_nil, List.append_nil, List.getLast?_cons, v.getLast?_written]
      simpa using hquote v
  | append_singleton as a =>
    rw [List.flatMap_append, List.flatMap_singleton, ← List.append_assoc, List.getLast?_append,
      a.getLast?_written]
    simpa using hquote a.quoted

theorem beginsBody_writtenValues (own : Option QuotedValue) (as : List NamedValue)
    (shape : TagShape) : ∀ c ∈ (writtenValues own as ++ shape.slash).head?, BeginsBody c := by
  have hequals : BeginsBody '=' := .inl rfl
  have hblank : BeginsBody ' ' := .inr (.inr (by decide))
  have hslash : BeginsBody '/' := .inr (.inl rfl)
  cases own with
  | some v => simpa [writtenValues] using hequals
  | none =>
    cases as with
    | cons a as => simpa [writtenValues, NamedValue.written] using hblank
    | nil => cases shape <;> simp [writtenValues, TagShape.slash, hslash]

theorem isTag_written {name : List Char} (named : IsTagName name) (shape : TagShape)
    (own : Option QuotedValue) (as : List NamedValue) :
    IsTag false name (writtenValues own as ++ shape.slash) where
  named := named
  opens := beginsBody_writtenValues own as shape
  content := by
    refine (IsBody.writtenValues own as).append ?_
    cases shape with
    | span => exact .nil
    | single => exact .plain (by decide) (by decide) (by decide) .nil
  oneSlash := by simp

/-! ## What the scan finds -/

/-- The boundary that a tag of a shape is written with. -/
def TagShape.boundary : TagShape → Boundary
  | .span => .start
  | .single => .marker

/-- A tag that is a whole text is its only token. -/
theorem Token.cut_eq_singleton {text : String} {t : Tag} (h : Scan.fromList 0 text.toList = .tag t)
    (whole : t.source = text) : cut text = [.tag t] := by
  unfold cut
  cases hchars : text.toList with
  | nil =>
    rw [hchars] at h
    cases h
  | cons c cs =>
    rw [hchars] at h
    have hlen : t.source.length - 1 = cs.length := by
      rw [whole, ← String.length_toList, hchars]
      rfl
    have hrest := cutFrom_append (0 + c.utf8Size) cs []
    rw [List.append_nil, cutFrom] at hrest
    rw [cutFrom, h]
    simp only
    rw [hlen, hrest]

/-- A written tag is the only token of its text. -/
theorem Token.cut_writtenTag {name : String} (named : IsTagName name.toList) (shape : TagShape)
    (own : Option QuotedValue) (as : List NamedValue) :
    ∃ t, cut (writtenTag shape name own as) = [.tag t] ∧ t.boundary = shape.boundary
      ∧ t.name = name ∧ t.body.toList = writtenValues own as := by
  have htag := isTag_written named shape own as
  have hlast := getLast?_writtenValues own as
  obtain ⟨t, hassemble⟩ : ∃ t, Scan.assemble 0 false name.toList
      (writtenValues own as ++ shape.slash) = .tag t :=
    ⟨_, Scan.assemble_eq_tag_iff.2 ⟨htag.oneSlash, rfl⟩⟩
  have hfound : Scan.fromList 0 (writtenTag shape name own as).toList = .tag t := by
    rw [writtenTag, String.toList_ofList]
    exact Scan.afterOpening_eq_tag_iff.2 ⟨false, name.toList, _, [], htag.named, htag.opens,
      htag.content, by rw [List.append_nil]; rfl, hassemble⟩
  obtain ⟨-, rfl⟩ := Scan.assemble_eq_tag_iff.1 hassemble
  refine ⟨_, cut_eq_singleton hfound rfl, ?_, ?_, ?_⟩
  · cases shape <;> simp [TagShape.slash, TagShape.boundary, hlast]
  · exact String.ofList_toList
  · cases shape <;> simp [TagShape.slash, hlast]

/-! ## What the attributes are -/

theorem QuotedValue.valueFirst (v : QuotedValue) (rest : List Char) :
    Attribute.ValueFirst (v.written ++ rest) v.value.toList rest := by
  have hsplit : v.written ++ rest = v.quote :: v.value.toList ++ v.quote :: rest := by
    simp [written]
  rw [hsplit]
  exact .quoted v.isQuote v.inside (by simpa using v.nonempty)

namespace Attribute

theorem namedReadAs_written (as : List NamedValue) :
    NamedReadAs (as.flatMap NamedValue.written)
      (as.map fun a => ⟨some a.name, a.quoted.value⟩) := by
  induction as with
  | nil => exact .done (by simp)
  | cons a as ih =>
    have hsplit : (a :: as).flatMap NamedValue.written
        = [' '] ++ (a.name.toList
          ++ '=' :: (a.quoted.written ++ as.flatMap NamedValue.written)) := by
      simp [NamedValue.written]
    have hblank : ∀ c ∈ [' '], isBlank c := by
      rw [List.forall_mem_singleton]
      decide
    have hread := NamedReadAs.named hblank a.isName (a.quoted.valueFirst _) ih
    rw [String.ofList_toList, String.ofList_toList] at hread
    rw [hsplit]
    exact hread

/-- The attributes of a written tag are the values that were written. -/
theorem readsAs_written (own : Option QuotedValue) (as : List NamedValue) :
    ReadsAs (writtenValues own as)
      ((own.toList.map fun v => ⟨none, v.value⟩)
        ++ as.map fun a => ⟨some a.name, a.quoted.value⟩) := by
  have hnamed := namedReadAs_written as
  cases own with
  | some v =>
    have hread := ReadsAs.own (v.valueFirst _) hnamed
    rwa [String.ofList_toList] at hread
  | none =>
    refine .named ?_ hnamed
    -- The first attribute begins with a blank.
    cases as with
    | nil => simp [writtenValues]
    | cons a as => simp [writtenValues, NamedValue.written]

end Attribute

/-! ## What is taken out of the text -/

/-- **What is quoted survives.** A tag that is written with quoted values is taken out of its text
whole, and the values are those that were written, character by character and in their order. -/
theorem strip_writtenTag (r : TagRegistry) {name : String} {d : TagDefinition}
    (known : r.custom? name = some d) (named : IsTagName name.toList) (own : Option QuotedValue)
    (as : List NamedValue) :
    r.strip (writtenTag d.shape name own as)
      = .ok
        { text := ""
          tags :=
            [{ name := d.name, shape := d.shape, behavior := d.behavior, start := 0, length := 0
               parameter := own.map (·.value)
               attributes := as.map fun a => (a.name, a.quoted.value) }] } := by
  obtain ⟨t, hcut, hboundary, rfl, hbody⟩ := Token.cut_writtenTag named d.shape own as
  have hattributes := Tag.attributes_eq_ok_iff.2 (hbody ▸ Attribute.readsAs_written own as)
  have hown : Stripping.ownValue ((own.toList.map fun v => ⟨none, v.value⟩)
      ++ as.map fun a => ⟨some a.name, a.quoted.value⟩) = own.map (·.value) := by
    cases own <;> simp [Stripping.ownValue, List.filter_map, Function.comp_def]
  have hnamed : Stripping.named ((own.toList.map fun v => ⟨none, v.value⟩)
      ++ as.map fun a => ⟨some a.name, a.quoted.value⟩)
        = as.map fun a => (a.name, a.quoted.value) := by
    cases own <;> simp [Stripping.named, List.filterMap_map]
  have htag : (Stripping.start.placed d _) = _ := congrArg₂
    (PlacedTag.mk d.name d.shape d.behavior 0 0) hown hnamed
  rw [TagRegistry.strip, hcut]
  cases hshape : d.shape with
  | span =>
    rw [hshape] at hboundary
    have hstep := Stripping.Strips.opens (s := .start) known hboundary hshape hattributes
    rw [Stripping.tokens_cons_eq_ok_iff.2 ⟨_, hstep, rfl⟩, htag, hshape]
    rfl
  | single =>
    rw [hshape] at hboundary
    have hstep := Stripping.Strips.marks (s := .start) known hboundary hshape hattributes
    rw [Stripping.tokens_cons_eq_ok_iff.2 ⟨_, hstep, rfl⟩, htag, hshape]
    rfl

/-- Values with all that could end a tag, an attribute or a quoted run. -/
def awkwardValues : List NamedValue :=
  [{ name := "to", isName := by decide
     quoted := ⟨'"', "</GRADIENT> it's=\n/>", by decide, by decide, by decide⟩ },
    { name := "to", isName := by decide
      quoted := ⟨'\'', "\"é\"/", by decide, by decide, by decide⟩ }]

theorem strip_writtenTag_awkward :
    TagRegistry.builtin.custom? "GRADIENT" = some ⟨"gradient", .span, .gradient⟩
      ∧ IsTagName "GRADIENT".toList
      ∧ TagRegistry.builtin.strip "<GRADIENT=' =' to=\"</GRADIENT> it's=\n/>\" to='\"é\"/'>"
        = .ok
          { text := ""
            tags :=
              [⟨"gradient", .span, .gradient, 0, 0, some " =",
                [("to", "</GRADIENT> it's=\n/>"), ("to", "\"é\"/")]⟩] } := by
  have hknown : TagRegistry.builtin.custom? "GRADIENT" = some ⟨"gradient", .span, .gradient⟩ := by
    decide
  have hname : IsTagName "GRADIENT".toList := by decide
  have hstrip := strip_writtenTag .builtin hknown hname
    (some ⟨'\'', " =", by decide, by decide, by decide⟩) awkwardValues
  exact ⟨hknown, hname, hstrip⟩

end BranchingDialogue
