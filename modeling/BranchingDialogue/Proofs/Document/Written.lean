import BranchingDialogue.Document.Read
import BranchingDialogue.Document.Save
import BranchingDialogue.Proofs.Json.RoundTrip

/-!
# Documents are read as they were written

The text of a document can be read if its whole numbers have 32 bits and its values are no deeper
nested than a document may be (`Document.Sized`), and if the reader finds a float for each that was
written. It is read as that document with its floats replaced by those that were found
(`Document.read_text_mapFloats`), so as that document itself if the reader finds its floats again
(`Document.read_text`).
-/

namespace BranchingDialogue

namespace Json

/-! ## Readers of one kind of value -/

section Readers

variable {β γ : Type} {cs rest : List Char}

theorem takes_textValue (s : String) : Takes textValue (writtenText s).toList s := by
  intro before rest hbefore _
  rw [textValue, skipSpace_blank hbefore, (opens_text s).skipSpace_eq, writtenText,
    String.toList_ofList]
  show readText ((s.toList.flatMap writtenChar ++ ['"']) ++ rest) = _
  rw [List.append_assoc, List.singleton_append, readText_written]

theorem readNumber_of_numberValue {negative : Bool} {n : Number}
    (h : numberValue negative cs = .ok (n.toJson, rest)) :
    readNumber negative cs = .ok (n, rest) := by
  obtain ⟨⟨m, after⟩, hread, heq⟩ := exists_of_map h
  obtain ⟨hjson, rfl⟩ := Prod.mk.inj heq
  have hm : m = n := by
    cases m <;> cases n <;> cases hjson <;> rfl
  rw [hread, hm]

/-- A whole number of 32 bits. -/
def IsInt32 (n : Int) : Prop := -0x80000000 ≤ n ∧ n < 0x80000000

instance (n : Int) : Decidable (IsInt32 n) := inferInstanceAs (Decidable (_ ∧ _))

theorem takes_int32Value {n : Int} (hn : IsInt32 n) : Takes int32Value (toString n).toList n := by
  intro before rest hbefore hrest
  have hbounds := hn
  unfold IsInt32 at hbounds
  have hvalue := readValue_integer ⟨n, by omega⟩
  rcases numberValue_of_readValue (opensNumber_integer n) hvalue with
    ⟨after, hspace, hread⟩ | ⟨c, after, hspace, hc, hread⟩
  · have hnumber := readNumber_of_numberValue (local_numberValue true hrest hread)
    rw [int32Value, skipSpace_blank hbefore, skipSpace_append hspace rest]
    simp only [if_true, hnumber]
    exact if_pos hn
  · have hnumber := readNumber_of_numberValue (local_numberValue false hrest hread)
    rw [List.cons_append] at hnumber
    rw [int32Value, skipSpace_blank hbefore, skipSpace_append hspace rest]
    simp only [ne_of_isDigit hc (d := '-') rfl, if_false, hc, if_true, hnumber]
    exact if_pos hn

/-- A reader takes reports as written, wherever they stand. -/
def TakesReport (item : List Char → Reading β) (r : Report) (x : β) : Prop :=
  ∀ place, Opens (Report.jsonAt place r).toList ∧ Takes item (Report.jsonAt place r).toList x

theorem takes_listValue {item : List Char → Reading γ} {report : β → Report} {value : β → γ}
    {xs : List β} (h : ∀ x ∈ xs, TakesReport item (report x) (value x)) (place : Nat) :
    Takes (listValue item) (Report.jsonAt place (.list (xs.map report))).toList
      (xs.map value) := by
  intro before rest hbefore _
  have hread : List.Forall₂ (fun line y => Opens line ∧ Takes item line y)
      (xs.map ((fun r => (Report.jsonAt (place + 1) r).toList) ∘ report)) (xs.map value) := by
    rw [List.forall₂_map_left_iff, List.forall₂_map_right_iff]
    exact List.forall₂_same.2 fun x hx => h x hx (place + 1)
  rw [toList_list, listValue, skipSpace_blank hbefore, List.cons_append,
    skipSpace_cons (c := '[') rfl, List.append_assoc, List.singleton_append, List.map_map]
  exact readList_between hread rest

theorem takesReport_record {δ : Type} {k : RecordKind δ β} {d : δ} {x : β}
    {fields : List (String × Report)}
    (h : ∀ place, Gathers k.readMember k.start (fieldMembers place fields) d)
    (hcomplete : k.complete d = .ok x) : TakesReport k.read (.record fields) x := by
  intro place
  rw [toList_record]
  exact ⟨⟨'\x7b', _, rfl, rfl, by decide⟩,
    RecordKind.takes_record (h (place + 1)) hcomplete place⟩

end Readers

end Json

open Json

/-! ## Parts of documents -/

/-- A property's record with its floats replaced. -/
def PropertyRecord.mapFloats (f : FiniteFloat → FiniteFloat) (p : PropertyRecord) :
    PropertyRecord :=
  { p with value := p.value.mapFloats f }

theorem takesReport_property {f : FiniteFloat → FiniteFloat} {p : PropertyRecord}
    (hformed : p.value.Formed (depthLimit - 3)) (hread : ∀ x ∈ p.value.floats, ReadsAs x (f x)) :
    TakesReport Document.propertyKind.read p.report (p.mapFloats f) :=
  takesReport_record (d := ⟨some p.id, some p.type, some p.name, some (p.value.mapFloats f)⟩)
    (fun place => .cons (RecordKind.takesMember_field rfl rfl (takes_textValue p.id)
        fun _ _ h => RecordKind.required_eq_ok h) <|
      .cons (RecordKind.takesMember_field rfl rfl (takes_textValue p.type)
        fun _ _ h => RecordKind.defaulted_eq_ok h) <|
      .cons (RecordKind.takesMember_field rfl rfl (takes_textValue p.name)
        fun _ _ h => RecordKind.required_eq_ok h) <|
      .cons (RecordKind.takesMember_field rfl rfl (takes_mapFloats hformed hread place).2
        fun _ _ h => RecordKind.required_eq_ok h) (.nil _))
    rfl

theorem takesReport_node (n : NodeRecord) : TakesReport Document.nodeKind.read n.report n :=
  takesReport_record (d := ⟨some n.id, some n.viewType, some n.binder⟩)
    (fun _ => .cons (RecordKind.takesMember_field rfl rfl (takes_textValue n.id)
        fun _ _ h => RecordKind.required_eq_ok h) <|
      .cons (RecordKind.takesMember_field rfl rfl (takes_textValue n.viewType)
        fun _ _ h => RecordKind.defaulted_eq_ok h) <|
      .cons (RecordKind.takesMember_field rfl rfl (takes_textValue n.binder)
        fun _ _ h => RecordKind.required_eq_ok h) (.nil _))
    rfl

theorem takesReport_port {p : PortRecord} (h : IsInt32 p.number) :
    TakesReport Document.portKind.read p.report p :=
  takesReport_record (d := ⟨some p.node, some p.number⟩)
    (fun _ => .cons (RecordKind.takesMember_field rfl rfl (takes_textValue p.node)
        fun _ _ h => RecordKind.required_eq_ok h) <|
      .cons (RecordKind.takesMember_field rfl rfl (takes_int32Value h)
        fun _ _ h => RecordKind.required_eq_ok h) (.nil _))
    rfl

theorem takesReport_edge {e : EdgeRecord} (houtput : IsInt32 e.output.number)
    (hinput : IsInt32 e.input.number) : TakesReport Document.edgeKind.read e.report e :=
  takesReport_record (d := ⟨some e.output, some e.input⟩)
    (fun place => .cons (RecordKind.takesMember_field rfl rfl (takesReport_port houtput place).2
        fun _ _ h => RecordKind.required_eq_ok h) <|
      .cons (RecordKind.takesMember_field rfl rfl (takesReport_port hinput place).2
        fun _ _ h => RecordKind.required_eq_ok h) (.nil _))
    rfl

theorem takesReport_position {p : Position} (hx : IsInt32 p.x) (hy : IsInt32 p.y) :
    TakesReport Document.positionKind.read p.report p :=
  takesReport_record (d := ⟨some p.x, some p.y⟩)
    (fun _ => .cons (RecordKind.takesMember_field rfl rfl (takes_int32Value hx)
        fun _ _ h => RecordKind.required_eq_ok h) <|
      .cons (RecordKind.takesMember_field rfl rfl (takes_int32Value hy)
        fun _ _ h => RecordKind.required_eq_ok h) (.nil _))
    rfl

/-! ## Documents -/

namespace Document

/-- A document of which nothing is too large to be read: its whole numbers have 32 bits, and its
values are no deeper nested than a reader goes. -/
structure Sized (d : Document) : Prop where
  version : IsInt32 d.version
  properties : ∀ p ∈ d.properties, p.value.Formed (depthLimit - 3)
  edges : ∀ e ∈ d.edges, IsInt32 e.output.number ∧ IsInt32 e.input.number
  positions : ∀ p ∈ d.positions, IsInt32 p.x ∧ IsInt32 p.y
  data : ∀ j ∈ d.data, j.Formed (depthLimit - 2)

/-- The floats in a document. -/
def floats (d : Document) : List FiniteFloat :=
  (d.properties.flatMap fun p => p.value.floats) ++ d.data.flatMap Json.floats

/-- A document with its floats replaced. -/
def mapFloats (f : FiniteFloat → FiniteFloat) (d : Document) : Document :=
  { d with
    properties := d.properties.map (PropertyRecord.mapFloats f)
    data := d.data.map (Json.mapFloats f) }

variable {d : Document} {f : FiniteFloat → FiniteFloat} {x : FiniteFloat}

theorem mem_floats_of_property {p : PropertyRecord} (hp : p ∈ d.properties)
    (hx : x ∈ p.value.floats) : x ∈ d.floats :=
  List.mem_append_left _ (List.mem_flatMap.2 ⟨p, hp, hx⟩)

theorem mem_floats_of_data {j : Json} (hj : j ∈ d.data) (hx : x ∈ j.floats) : x ∈ d.floats :=
  List.mem_append_right _ (List.mem_flatMap.2 ⟨j, hj, hx⟩)

theorem Sized.takesReport (h : d.Sized) (hread : ∀ x ∈ d.floats, ReadsAs x (f x)) :
    TakesReport Document.kind.read d.report (d.mapFloats f) := by
  have hproperties : ∀ p ∈ d.properties,
      TakesReport Document.propertyKind.read p.report (p.mapFloats f) := fun p hp =>
    takesReport_property (h.properties p hp) fun x hx => hread x (mem_floats_of_property hp hx)
  have hedges : ∀ e ∈ d.edges, TakesReport Document.edgeKind.read e.report (id e) := fun e he =>
    takesReport_edge (h.edges e he).1 (h.edges e he).2
  have hpositions : ∀ p ∈ d.positions,
      TakesReport Document.positionKind.read p.report (id p) := fun p hp =>
    takesReport_position (h.positions p hp).1 (h.positions p hp).2
  have hdata : ∀ j ∈ d.data, TakesReport (readValue (depthLimit - 2)) (.ofJson j)
      (j.mapFloats f) := fun j hj =>
    takes_mapFloats (h.data j hj) fun x hx => hread x (mem_floats_of_data hj hx)
  have hnodes : ∀ n ∈ d.nodes, TakesReport Document.nodeKind.read n.report (id n) := fun n _ =>
    takesReport_node n
  refine takesReport_record
    (d := ⟨some d.version, some d.objectId, some (d.properties.map (PropertyRecord.mapFloats f)),
      some (d.nodes.map id), some (d.edges.map id), some (d.positions.map id),
      some (d.data.map (Json.mapFloats f))⟩)
    (fun place => .cons (RecordKind.takesMember_field rfl rfl (takes_int32Value h.version)
        fun _ _ h => RecordKind.required_eq_ok h) <|
      .cons (RecordKind.takesMember_field rfl rfl (takes_textValue d.objectId)
        fun _ _ h => RecordKind.defaulted_eq_ok h) <|
      .cons (RecordKind.takesMember_field rfl rfl (takes_listValue hproperties place)
        fun _ _ h => RecordKind.defaulted_eq_ok h) <|
      .cons (RecordKind.takesMember_field rfl rfl (takes_listValue hnodes place)
        fun _ _ h => RecordKind.required_eq_ok h) <|
      .cons (RecordKind.takesMember_field rfl rfl (takes_listValue hedges place)
        fun _ _ h => RecordKind.defaulted_eq_ok h) <|
      .cons (RecordKind.takesMember_field rfl rfl (takes_listValue hpositions place)
        fun _ _ h => RecordKind.defaulted_eq_ok h) <|
      .cons (RecordKind.takesMember_field rfl rfl (takes_listValue hdata place)
        fun _ _ h => RecordKind.defaulted_eq_ok h) (.nil _))
    ?_
  rw [List.map_id, List.map_id, List.map_id]
  rfl

/-- **The text of a document is read as that document but for its floats**: each of them is read as
what the reader finds for it. -/
theorem read_text_mapFloats (h : d.Sized) (hread : ∀ x ∈ d.floats, ReadsAs x (f x)) {limit : Nat}
    (hsize : d.text.utf8ByteSize ≤ limit) : read d.text limit = .ok (d.mapFloats f) := by
  have hwhole : whole kind.read d.text = .ok (d.mapFloats f) :=
    whole_of_takes (h.takesReport hread 0).2
  rw [read, if_neg (Nat.not_lt.2 hsize), hwhole]

/-- A document stays the same if its floats do. -/
theorem Sized.mapFloats_eq_self (h : d.Sized) (hf : ∀ x ∈ d.floats, f x = x) :
    d.mapFloats f = d := by
  have hproperties : d.properties.map (PropertyRecord.mapFloats f) = d.properties.map id :=
    List.map_congr_left fun p hp => by
      rw [PropertyRecord.mapFloats, Json.mapFloats_eq_self (h.properties p hp) fun x hx =>
        hf x (mem_floats_of_property hp hx)]
      rfl
  have hdata : d.data.map (Json.mapFloats f) = d.data.map id := List.map_congr_left fun j hj =>
    Json.mapFloats_eq_self (h.data j hj) fun x hx => hf x (mem_floats_of_data hj hx)
  rw [mapFloats, hproperties, hdata, List.map_id, List.map_id]

/-- A document that can be stored: its whole numbers have 32 bits, its values are no deeper nested
than a reader goes, and their floats are read as themselves. -/
structure Storable (d : Document) : Prop where
  version : IsInt32 d.version
  properties : ∀ p ∈ d.properties,
    p.value.Formed (depthLimit - 3) ∧ ∀ x ∈ p.value.floats, Json.Exact x
  edges : ∀ e ∈ d.edges, IsInt32 e.output.number ∧ IsInt32 e.input.number
  positions : ∀ p ∈ d.positions, IsInt32 p.x ∧ IsInt32 p.y
  data : ∀ j ∈ d.data, j.Formed (depthLimit - 2) ∧ ∀ x ∈ j.floats, Json.Exact x

theorem Storable.sized (h : d.Storable) : d.Sized where
  version := h.version
  properties p hp := (h.properties p hp).1
  edges := h.edges
  positions := h.positions
  data j hj := (h.data j hj).1

theorem Storable.exact (h : d.Storable) (hx : x ∈ d.floats) : Json.Exact x := by
  rw [floats, List.mem_append, List.mem_flatMap, List.mem_flatMap] at hx
  rcases hx with ⟨p, hp, hx⟩ | ⟨j, hj, hx⟩
  · exact (h.properties p hp).2 x hx
  · exact (h.data j hj).2 x hx

/-- **The text of a document is read as that document.** -/
theorem read_text {d : Document} (h : d.Storable) {limit : Nat}
    (hsize : d.text.utf8ByteSize ≤ limit) : read d.text limit = .ok d := by
  have hread := read_text_mapFloats (f := id) h.sized (fun _ hx => h.exact hx) hsize
  rwa [h.sized.mapFloats_eq_self (f := id) fun _ _ => rfl] at hread

end Document

end BranchingDialogue
