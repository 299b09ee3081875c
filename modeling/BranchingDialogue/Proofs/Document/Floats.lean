import BranchingDialogue.Proofs.Document.Sized

/-!
# Documents with other floats

What is checked of a document when it is loaded are its texts, the lengths of its lists and the kinds
of its values, never a number in them. So a document stays well formed when its floats are replaced
by others (`Document.WellFormed.mapFloats`), and has a graph if it had one. What is written for that
graph is the document with its floats replaced (`Graph.toDocument_of_mapFloats`), so it is the same
graph only if no float has changed.
-/

namespace BranchingDialogue

variable {f : FiniteFloat → FiniteFloat}

/-! ## Values -/

theorem Json.IsPlain.mapFloats {j : Json} (h : j.IsPlain) : (j.mapFloats f).IsPlain := by
  induction h with
  | bool b => exact .bool b
  | integer n => exact .integer n
  | float x => exact .float (f x)
  | text s => exact .text s
  | array _ ih =>
    rw [Json.mapFloats, Json.mapItems_eq]
    refine .array fun j hj => ?_
    obtain ⟨i, hi, rfl⟩ := List.mem_map.1 hj
    exact ih i hi

theorem Json.IsPayload.mapFloats {j : Json} (h : j.IsPayload) : (j.mapFloats f).IsPayload := by
  obtain rfl | ⟨members, rfl, hplain⟩ := h
  · exact .inl rfl
  · rw [Json.mapFloats, Json.mapMembers_eq]
    refine .inr ⟨_, rfl, fun m hm => ?_⟩
    obtain ⟨m', hm', rfl⟩ := List.mem_map.1 hm
    exact (hplain m' hm').mapFloats

/-- Two values cannot be told apart by the text that they are or by the length that they have. -/
structure Value.Resembles (v w : Value) : Prop where
  text : v.asText? = w.asText?
  length : v.asSequence?.map List.length = w.asSequence?.map List.length

theorem Value.resembles_of_mapFloats {j : Json} {v w : Value} (hv : ofJson j = .ok v)
    (hw : ofJson (j.mapFloats f) = .ok w) : v.Resembles w := by
  cases j with
  | null => cases hv
  | object members => cases hv
  | array items =>
    rw [Json.mapFloats, Json.mapItems_eq, ofJson] at hw
    rw [ofJson] at hv
    split at hv
    · cases hv
    · next vs hvs =>
      split at hw
      · cases hw
      · next ws hws =>
        cases hv
        cases hw
        have hlength := (ofItems_eq_ok_iff.1 hvs).length_eq
        have hlength' := (ofItems_eq_ok_iff.1 hws).length_eq
        rw [List.length_map] at hlength'
        exact ⟨rfl, congrArg some (hlength.symm.trans hlength')⟩
  | bool b =>
    cases hv
    cases hw
    exact ⟨rfl, rfl⟩
  | integer n =>
    replace hw : ofJson (.integer n) = .ok w := hw
    rw [hv] at hw
    cases hw
    exact ⟨rfl, rfl⟩
  | float x =>
    cases hv
    cases hw
    exact ⟨rfl, rfl⟩
  | text s =>
    cases hv
    cases hw
    exact ⟨rfl, rfl⟩

/-! ## Payloads -/

namespace Payload

theorem rel_get?_mapFloats {members : List (String × Json)} (h : ∀ m ∈ members, m.2.IsPlain)
    (name : String) :
    Option.Rel Value.Resembles ((Json.object members).payload.get? name)
      ((Json.object members).mapFloats f |>.payload.get? name) := by
  rw [Json.mapFloats]
  induction members with
  | nil => exact .none
  | cons m members ih =>
    rw [List.forall_mem_cons] at h
    obtain ⟨v, hv⟩ := Value.exists_ofJson h.1
    obtain ⟨w, hw⟩ := Value.exists_ofJson (h.1.mapFloats (f := f))
    have hothers := ih h.2
    obtain ⟨name', j⟩ := m
    rw [Json.payload, Json.payload] at hothers ⊢
    rw [Json.mapMembers, readable_cons hv, readable_cons hw, Dictionary.get?_ofList_cons,
      Dictionary.get?_ofList_cons]
    generalize (Dictionary.ofList (Json.readable members)).get? name = a at hothers ⊢
    generalize (Dictionary.ofList (Json.readable (Json.mapMembers f members))).get? name = b
      at hothers ⊢
    cases hothers with
    | some hresembles => exact .some hresembles
    | none =>
      rw [Option.none_or, Option.none_or]
      split
      · exact .some (Value.resembles_of_mapFloats hv hw)
      · exact .none

theorem rel_get?_payload_mapFloats {j : Json} (h : j.IsPayload) (name : String) :
    Option.Rel Value.Resembles (j.payload.get? name) ((j.mapFloats f).payload.get? name) := by
  obtain rfl | ⟨members, rfl, hplain⟩ := h
  · exact .none
  · exact rel_get?_mapFloats hplain name

theorem text?_mapFloats {j : Json} (h : j.IsPayload) (name : String) :
    (j.mapFloats f).payload.text? name = j.payload.text? name := by
  have hrel := rel_get?_payload_mapFloats (f := f) h name
  rw [text?, text?]
  generalize (j.mapFloats f).payload.get? name = w at hrel ⊢
  generalize j.payload.get? name = v at hrel ⊢
  cases hrel with
  | none => rfl
  | some hresembles => exact hresembles.text.symm

theorem sequenceLength_mapFloats {j : Json} (h : j.IsPayload) (name : String) :
    (j.mapFloats f).payload.sequenceLength name = j.payload.sequenceLength name := by
  have hlength : ∀ p : Payload, p.sequenceLength name
      = (((p.get? name).bind Value.asSequence?).map List.length).getD 0 := by
    intro p
    rw [sequenceLength, sequence?]
    cases (p.get? name).bind Value.asSequence? <;> rfl
  have hrel := rel_get?_payload_mapFloats (f := f) h name
  rw [hlength, hlength]
  generalize (j.mapFloats f).payload.get? name = w at hrel ⊢
  generalize j.payload.get? name = v at hrel ⊢
  cases hrel with
  | none => rfl
  | some hresembles => exact congrArg (Option.getD · 0) hresembles.length.symm

end Payload

/-! ## Documents -/

namespace Document

variable {r : NodeRegistry} {d : Document}

theorem isPayload_payloadAt (h : ∀ j ∈ d.data, j.IsPayload) (i : Nat) :
    (d.data[i]?.getD .null).IsPayload := by
  cases hj : d.data[i]? with
  | none => exact .inl rfl
  | some j => exact h j (List.mem_of_getElem? hj)

theorem payloadAt_mapFloats (i : Nat) :
    (d.mapFloats f).payloadAt i = ((d.data[i]?.getD .null).mapFloats f).payload := by
  rw [payloadAt, mapFloats]
  simp only [List.getElem?_map]
  cases d.data[i]? <;> rfl

theorem layoutAt?_mapFloats (h : ∀ j ∈ d.data, j.IsPayload) (i : Nat) :
    (d.mapFloats f).layoutAt? r i = d.layoutAt? r i := by
  have hlayout : ∀ kind : NodeKind,
      kind.layout ((d.mapFloats f).payloadAt i) = kind.layout (d.payloadAt i) := by
    intro kind
    rw [payloadAt_mapFloats]
    cases kind with
    | choice | action =>
      exact congrArg (PortLayout.flow 1)
        (Payload.sequenceLength_mapFloats (isPayload_payloadAt h i) _)
    | _ => rfl
  rw [layoutAt?, layoutAt?]
  exact Option.map_congr fun kind _ => hlayout kind

theorem entryNameAt?_mapFloats (h : ∀ j ∈ d.data, j.IsPayload) (i : Nat) :
    (d.mapFloats f).entryNameAt? r i = d.entryNameAt? r i := by
  rw [entryNameAt?, entryNameAt?, payloadAt_mapFloats,
    Payload.text?_mapFloats (isPayload_payloadAt h i)]
  rfl

theorem Leads.mapFloats (h : ∀ j ∈ d.data, j.IsPayload) {e : EdgeRecord} {i j : Nat}
    (he : d.Leads r e i j) : (d.mapFloats f).Leads r e i j where
  output := he.output
  input := he.input
  declaredOutput := by
    rw [layoutAt?_mapFloats h]
    exact he.declaredOutput
  declaredInput := by
    rw [layoutAt?_mapFloats h]
    exact he.declaredInput
  source := he.source

/-- **A document is well formed with any floats if it is with some.** -/
theorem WellFormed.mapFloats (h : d.WellFormed r) : (d.mapFloats f).WellFormed r where
  version := h.version
  data := (List.length_map _).trans h.data
  positions := h.positions
  propertyIds p hp := by
    obtain ⟨q, hq, rfl⟩ := List.mem_map.1 hp
    exact h.propertyIds q hq
  propertyValues p hp := by
    obtain ⟨q, hq, rfl⟩ := List.mem_map.1 hp
    exact (h.propertyValues q hq).mapFloats
  nodeIds := h.nodeIds
  distinctIds := h.distinctIds
  binders := h.binders
  payloads j hj := by
    obtain ⟨k, hk, rfl⟩ := List.mem_map.1 hj
    exact (h.payloads k hk).mapFloats
  entryNames i hi := by
    rw [entryNameAt?_mapFloats h.payloads]
    exact h.entryNames i hi
  distinctEntries i j name hi hj := by
    rw [entryNameAt?_mapFloats h.payloads] at hi hj
    exact h.distinctEntries i j name hi hj
  edges e he := by
    obtain ⟨i, j, hleads⟩ := h.edges e he
    exact ⟨i, j, hleads.mapFloats h.payloads⟩
  capacity := h.capacity

end Document

/-! ## Floats that are replaced -/

mutual

theorem Json.floats_mapFloats : ∀ j : Json, (j.mapFloats f).floats = j.floats.map f
  | .null | .bool _ | .integer _ | .text _ | .float _ => rfl
  | .array items => Json.itemFloats_mapItems items
  | .object members => Json.memberFloats_mapMembers members

theorem Json.itemFloats_mapItems : ∀ items : List Json,
    itemFloats (mapItems f items) = (itemFloats items).map f
  | [] => rfl
  | j :: items => by
    rw [mapItems, itemFloats, itemFloats, List.map_append, Json.floats_mapFloats j,
      Json.itemFloats_mapItems items]

theorem Json.memberFloats_mapMembers : ∀ members : List (String × Json),
    memberFloats (mapMembers f members) = (memberFloats members).map f
  | [] => rfl
  | (name, j) :: members => by
    rw [mapMembers, memberFloats, memberFloats, List.map_append, Json.floats_mapFloats j,
      Json.memberFloats_mapMembers members]

end

theorem Document.floats_mapFloats (d : Document) : (d.mapFloats f).floats = d.floats.map f := by
  have hproperties : ∀ ps : List PropertyRecord,
      ((ps.map (PropertyRecord.mapFloats f)).flatMap fun p => p.value.floats)
        = (ps.flatMap fun p => p.value.floats).map f := by
    intro ps
    rw [List.flatMap_map, List.map_flatMap]
    exact congrArg (ps.flatMap ·) (funext fun p => Json.floats_mapFloats p.value)
  have hdata : ∀ js : List Json,
      (js.map (Json.mapFloats f)).flatMap Json.floats = (js.flatMap Json.floats).map f := by
    intro js
    rw [List.flatMap_map, List.map_flatMap]
    exact congrArg (js.flatMap ·) (funext Json.floats_mapFloats)
  rw [floats, floats, List.map_append, ← hproperties, ← hdata]
  rfl

/-- A list stays the same under a map exactly if its elements do. -/
theorem map_eq_self_iff {α : Type} {g : α → α} {xs : List α} :
    xs.map g = xs ↔ ∀ x ∈ xs, g x = x := by
  have h := List.map_inj_left (l := xs) (f := g) (g := id)
  rwa [List.map_id] at h

/-- A document stays the same exactly if its floats do. -/
theorem Document.Sized.mapFloats_eq_self_iff {d : Document} (h : d.Sized) :
    d.mapFloats f = d ↔ ∀ x ∈ d.floats, f x = x := by
  refine ⟨fun heq => ?_, h.mapFloats_eq_self⟩
  rw [← map_eq_self_iff, ← Document.floats_mapFloats, heq]

/-! ## Normal form -/

mutual

theorem Json.normal_mapFloats : ∀ {j : Json}, j.normal = j → (j.mapFloats f).normal = j.mapFloats f
  | .null, _ | .bool _, _ | .float _, _ | .text _, _ | .object _, _ => rfl
  | .integer _, h => h
  | .array _, h => congrArg Json.array (Json.normalItems_mapItems (Json.array.inj h))

theorem Json.normalItems_mapItems : ∀ {items : List Json}, normalItems items = items →
    normalItems (mapItems f items) = mapItems f items
  | [], _ => rfl
  | j :: items, h => by
    obtain ⟨hj, hitems⟩ := List.cons.inj h
    rw [mapItems, normalItems, Json.normal_mapFloats hj, Json.normalItems_mapItems hitems]

end

theorem Json.normalPayload_mapFloats {j : Json} (h : j.normalPayload = j) :
    (j.mapFloats f).normalPayload = j.mapFloats f := by
  cases j with
  | null => cases h
  | object members =>
    have hmembers := map_eq_self_iff.1 (Json.object.inj h)
    rw [mapFloats, mapMembers_eq, normalPayload, List.map_map]
    refine congrArg Json.object (List.map_congr_left fun m hm => ?_)
    have hvalue : m.2.normal = m.2 := congrArg Prod.snd (hmembers m hm)
    exact congrArg (m.1, ·) (normal_mapFloats hvalue)
  | _ => rfl

/-- A document in normal form stays in it. -/
theorem Document.normal_mapFloats {d : Document} (h : d.normal = d) :
    (d.mapFloats f).normal = d.mapFloats f := by
  obtain ⟨-, -, hproperties, hnodes, hedges, -, hdata⟩ := Document.mk.inj h
  rw [map_eq_self_iff] at hproperties hdata
  have hproperties' : ∀ p ∈ d.properties, (p.mapFloats f).normal = p.mapFloats f := by
    intro p hp
    obtain ⟨hid, -, -, hvalue⟩ := PropertyRecord.mk.inj (hproperties p hp)
    rw [PropertyRecord.normal]
    exact congrArg₂ (fun id value => { p with id, value }) hid (Json.normal_mapFloats hvalue)
  have hdata' : ∀ j ∈ d.data, (j.mapFloats f).normalPayload = j.mapFloats f := fun j hj =>
    Json.normalPayload_mapFloats (hdata j hj)
  simp only [Document.normal, mapFloats, List.map_map, hnodes, hedges]
  exact congrArg₂ (fun properties data => { d with properties, data })
    (List.map_congr_left hproperties') (List.map_congr_left hdata')

theorem Json.Ordered.mapFloats {j : Json} (h : j.Ordered) : (j.mapFloats f).Ordered := by
  cases j with
  | object members =>
    rw [Json.mapFloats, Json.mapMembers_eq]
    exact List.pairwise_map.2 h
  | _ => trivial

/-! ## Graphs -/

namespace Graph

variable {r : NodeRegistry} {g g' : Graph}

/-- What is written for a graph is a document in normal form. -/
theorem normal_toDocument (h : ofDocument r g.toDocument = .ok g) (hsized : g.toDocument.Sized) :
    g.toDocument.normal = g.toDocument :=
  ((ofDocument_toDocument h).2.1 fun j hj => (hsized.data j hj).toOrdered).symm

theorem toDocument_of_mapFloats (h : ofDocument r g.toDocument = .ok g)
    (hsized : g.toDocument.Sized) (h' : ofDocument r (g.toDocument.mapFloats f) = .ok g') :
    g'.toDocument = g.toDocument.mapFloats f := by
  have hordered : ∀ j ∈ (g.toDocument.mapFloats f).data, j.Ordered := by
    intro j hj
    obtain ⟨k, hk, rfl⟩ := List.mem_map.1 hj
    exact (hsized.data k hk).toOrdered.mapFloats
  rw [(ofDocument_toDocument h').2.1 hordered, Document.normal_mapFloats (normal_toDocument h hsized)]

/-- **A graph is loaded with other floats in its document**, and it is the same one exactly if no
float has changed. -/
theorem exists_ofDocument_mapFloats (h : ofDocument r g.toDocument = .ok g)
    (hsized : g.toDocument.Sized) :
    ∃ g', ofDocument r (g.toDocument.mapFloats f) = .ok g'
      ∧ g'.toDocument = g.toDocument.mapFloats f
      ∧ (g' = g ↔ ∀ x ∈ g.toDocument.floats, f x = x) := by
  obtain ⟨g', hg'⟩ := exists_ofDocument (wellFormed_and_depicts h).1.mapFloats
  have hdocument := toDocument_of_mapFloats h hsized hg'
  refine ⟨g', hg', hdocument, ?_⟩
  rw [← hsized.mapFloats_eq_self_iff, ← hdocument]
  constructor
  · rintro rfl
    rfl
  · intro hsame
    rw [← hdocument, hsame, h] at hg'
    exact (Except.ok.inj hg').symm

end Graph

end BranchingDialogue
