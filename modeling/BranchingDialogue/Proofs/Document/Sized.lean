import BranchingDialogue.Proofs.Document.RoundTrip
import BranchingDialogue.Proofs.Document.Written
import Mathlib

/-!
# What was read can be read again

The readers of a document take whole numbers of 32 bits and values that are nested to some depth. So
nothing in a document that was read is too large for them (`Document.sized_of_read`), and neither is
anything in what is written for its graph (`Graph.sized_toDocument`): normal form leaves whole
numbers as they are, or makes floats of them, and nests nothing deeper.
-/

namespace BranchingDialogue

open Json

/-! ## Parts of documents -/

theorem Json.isInt32_of_int32Value {cs rest : List Char} {n : Int}
    (h : int32Value cs = .ok (n, rest)) : IsInt32 n := by
  rw [int32Value] at h
  split at h
  · cases h
  · split at h
    on_goal 2 => split at h
    on_goal 3 => cases h
    -- what is read behind a sign and what is read without one are accepted alike
    all_goals
      beta_reduce at h
      split at h
      · cases h
      · split at h
        · next hbounds =>
          cases h
          exact hbounds
        · cases h
      · cases h

namespace Document

/-- The value gathered for a property is not nested too deep. -/
def PropertyDraft.Sized (d : PropertyDraft) : Prop :=
  ∀ v, d.value = some v → v.Formed (depthLimit - 3)

theorem formed_of_propertyKind {cs rest : List Char} {p : PropertyRecord}
    (h : propertyKind.read cs = .ok (p, rest)) : p.value.Formed (depthLimit - 3) := by
  obtain ⟨d, hd, hfinish⟩ : ∃ d : PropertyDraft, d.Sized ∧ propertyKind.finish d = some p := by
    refine RecordKind.exists_of_read (fun f hf cs d d' rest hd hread => ?_) nofun h
    simp only [propertyKind, List.mem_cons, List.not_mem_nil, or_false] at hf
    rcases hf with rfl | rfl | rfl | rfl
    · exact RecordKind.required_keeps (P := PropertyDraft.Sized) hread fun _ _ _ _ => hd
    · exact RecordKind.defaulted_keeps (P := PropertyDraft.Sized) hread fun _ _ _ _ => hd
    · exact RecordKind.required_keeps (P := PropertyDraft.Sized) hread fun _ _ _ _ => hd
    · refine RecordKind.required_keeps (P := PropertyDraft.Sized) hread fun _ v _ hv w heq => ?_
      cases heq
      exact formed_of_readValue hv
  simp only [propertyKind, Option.bind_eq_bind, Option.bind_eq_some_iff,
    Option.some.injEq] at hfinish
  obtain ⟨-, -, -, -, value, hvalue, rfl⟩ := hfinish
  exact hd value hvalue

/-- The number gathered for a port has 32 bits. -/
def PortDraft.Sized (d : PortDraft) : Prop := ∀ n, d.number = some n → IsInt32 n

theorem isInt32_of_portKind {cs rest : List Char} {p : PortRecord}
    (h : portKind.read cs = .ok (p, rest)) : IsInt32 p.number := by
  obtain ⟨d, hd, hfinish⟩ : ∃ d : PortDraft, d.Sized ∧ portKind.finish d = some p := by
    refine RecordKind.exists_of_read (fun f hf cs d d' rest hd hread => ?_)
      (fun _ h => nomatch h) h
    simp only [portKind, List.mem_cons, List.not_mem_nil, or_false] at hf
    rcases hf with rfl | rfl
    · exact RecordKind.required_keeps (P := PortDraft.Sized) hread fun _ _ _ _ => hd
    · refine RecordKind.required_keeps (P := PortDraft.Sized) hread fun _ n _ hn m heq => ?_
      cases heq
      exact isInt32_of_int32Value hn
  simp only [portKind, Option.bind_eq_bind, Option.bind_eq_some_iff, Option.some.injEq] at hfinish
  obtain ⟨-, -, number, hnumber, rfl⟩ := hfinish
  exact hd number hnumber

/-- The numbers gathered for an edge have 32 bits. -/
structure EdgeDraft.Sized (d : EdgeDraft) : Prop where
  output : ∀ p, d.output = some p → IsInt32 p.number
  input : ∀ p, d.input = some p → IsInt32 p.number

theorem isInt32_of_edgeKind {cs rest : List Char} {e : EdgeRecord}
    (h : edgeKind.read cs = .ok (e, rest)) :
    IsInt32 e.output.number ∧ IsInt32 e.input.number := by
  obtain ⟨d, hd, hfinish⟩ : ∃ d : EdgeDraft, d.Sized ∧ edgeKind.finish d = some e := by
    refine RecordKind.exists_of_read (fun f hf cs d d' rest hd hread => ?_)
      ⟨fun _ h => (nomatch h), fun _ h => (nomatch h)⟩ h
    simp only [edgeKind, List.mem_cons, List.not_mem_nil, or_false] at hf
    rcases hf with rfl | rfl
    · refine RecordKind.required_keeps hread fun _ p _ hp => { hd with output := fun q heq => ?_ }
      cases heq
      exact isInt32_of_portKind hp
    · refine RecordKind.required_keeps hread fun _ p _ hp => { hd with input := fun q heq => ?_ }
      cases heq
      exact isInt32_of_portKind hp
  simp only [edgeKind, Option.bind_eq_bind, Option.bind_eq_some_iff, Option.some.injEq] at hfinish
  obtain ⟨output, houtput, input, hinput, rfl⟩ := hfinish
  exact ⟨hd.output output houtput, hd.input input hinput⟩

/-- The numbers gathered for a position have 32 bits. -/
structure PositionDraft.Sized (d : PositionDraft) : Prop where
  x : ∀ n, d.x = some n → IsInt32 n
  y : ∀ n, d.y = some n → IsInt32 n

theorem isInt32_of_positionKind {cs rest : List Char} {p : Position}
    (h : positionKind.read cs = .ok (p, rest)) : IsInt32 p.x ∧ IsInt32 p.y := by
  obtain ⟨d, hd, hfinish⟩ : ∃ d : PositionDraft, d.Sized ∧ positionKind.finish d = some p := by
    refine RecordKind.exists_of_read (fun f hf cs d d' rest hd hread => ?_)
      ⟨fun _ h => (nomatch h), fun _ h => (nomatch h)⟩ h
    simp only [positionKind, List.mem_cons, List.not_mem_nil, or_false] at hf
    rcases hf with rfl | rfl
    · refine RecordKind.required_keeps hread fun _ n _ hn => { hd with x := fun m heq => ?_ }
      cases heq
      exact isInt32_of_int32Value hn
    · refine RecordKind.required_keeps hread fun _ n _ hn => { hd with y := fun m heq => ?_ }
      cases heq
      exact isInt32_of_int32Value hn
  simp only [positionKind, Option.bind_eq_bind, Option.bind_eq_some_iff,
    Option.some.injEq] at hfinish
  obtain ⟨x, hx, y, hy, rfl⟩ := hfinish
  exact ⟨hd.x x hx, hd.y y hy⟩

/-! ## Documents -/

/-- Nothing that has been gathered of a document is too large. -/
structure Draft.Sized (draft : Draft) : Prop where
  version : ∀ n, draft.version = some n → IsInt32 n
  properties : ∀ ps, draft.properties = some ps → ∀ p ∈ ps, p.value.Formed (depthLimit - 3)
  edges : ∀ es, draft.edges = some es →
    ∀ e ∈ es, IsInt32 e.output.number ∧ IsInt32 e.input.number
  positions : ∀ ps, draft.positions = some ps → ∀ p ∈ ps, IsInt32 p.x ∧ IsInt32 p.y
  data : ∀ js, draft.data = some js → ∀ j ∈ js, j.Formed (depthLimit - 2)

theorem Draft.Sized.empty : Draft.Sized {} := by
  constructor <;> simp

/-- Every field of a document keeps to what its reader takes. -/
theorem Draft.Sized.field {f : Json.Field Draft} (hf : f ∈ kind.fields) {cs rest : List Char}
    {draft draft' : Draft} (h : draft.Sized) (hread : f.read cs draft = .ok (draft', rest)) :
    draft'.Sized := by
  simp only [kind, List.mem_cons, List.not_mem_nil, or_false] at hf
  rcases hf with rfl | rfl | rfl | rfl | rfl | rfl | rfl
  · refine RecordKind.required_keeps hread fun _ n _ hn => { h with version := fun m heq => ?_ }
    cases heq
    exact isInt32_of_int32Value hn
  · exact RecordKind.defaulted_keeps hread fun _ _ _ _ => { h with }
  · refine RecordKind.defaulted_keeps hread fun _ ps _ hps =>
      { h with properties := fun qs heq => ?_ }
    cases heq
    exact forall_mem_of_listValue (fun _ _ _ => formed_of_propertyKind) hps
  · exact RecordKind.required_keeps hread fun _ _ _ _ => { h with }
  · refine RecordKind.defaulted_keeps hread fun _ es _ hes => { h with edges := fun fs heq => ?_ }
    cases heq
    exact forall_mem_of_listValue (fun _ _ _ => isInt32_of_edgeKind) hes
  · refine RecordKind.defaulted_keeps hread fun _ ps _ hps =>
      { h with positions := fun qs heq => ?_ }
    cases heq
    exact forall_mem_of_listValue (fun _ _ _ => isInt32_of_positionKind) hps
  · refine RecordKind.defaulted_keeps hread fun _ js _ hjs => { h with data := fun ks heq => ?_ }
    cases heq
    exact forall_mem_of_listValue (fun _ _ _ => formed_of_readValue) hjs

/-- What a field holds that may be missing, and is an empty list then. -/
theorem forall_mem_getD {α : Type} {P : α → Prop} {found : Option (List α)}
    (h : ∀ xs, found = some xs → ∀ x ∈ xs, P x) : ∀ x ∈ found.getD [], P x := by
  cases found with
  | none => exact List.forall_mem_nil P
  | some xs => exact h xs rfl

/-- **Nothing in a document that was read is too large to be read again.** -/
theorem sized_of_read {text : String} {limit : Nat} {d : Document} (h : read text limit = .ok d) :
    d.Sized := by
  rw [read] at h
  split at h
  · cases h
  · split at h
    · next d hwhole =>
      cases h
      obtain ⟨rest, hread⟩ := exists_of_whole hwhole
      obtain ⟨draft, hdraft, hfinish⟩ := RecordKind.exists_of_read
        (fun _ hf _ _ _ _ => Draft.Sized.field hf) .empty hread
      simp only [kind, Option.bind_eq_bind, Option.bind_eq_some_iff, Option.some.injEq] at hfinish
      obtain ⟨version, hversion, nodes, -, rfl⟩ := hfinish
      exact
        { version := hdraft.version version hversion
          properties := forall_mem_getD hdraft.properties
          edges := forall_mem_getD hdraft.edges
          positions := forall_mem_getD hdraft.positions
          data := forall_mem_getD hdraft.data }
    · cases h

end Document

/-! ## Normal form -/

theorem Json.formed_normalInteger {depth : Nat} (n : WideInteger) :
    (normalInteger n).Formed depth := by
  rw [normalInteger]
  split
  · exact .integer n
  · exact .float _

theorem Json.Formed.normal {depth : Nat} {j : Json} (h : j.Formed depth) :
    j.normal.Formed depth := by
  induction h with
  | null => exact .null
  | bool b => exact .bool b
  | integer n => exact formed_normalInteger n
  | float x => exact .float x
  | text s => exact .text s
  | @array depth items _ ih =>
    rw [Json.normal, normalItems_eq_map]
    refine .array fun j hj => ?_
    obtain ⟨i, hi, rfl⟩ := List.mem_map.1 hj
    exact ih i hi
  | object ordered members_formed => exact .object ordered members_formed

theorem Json.Formed.normalPayload {depth : Nat} {j : Json} (h : j.Formed (depth + 1)) :
    j.normalPayload.Formed (depth + 1) := by
  cases h with
  | null => exact .object .nil (List.forall_mem_nil _)
  | bool b => exact .bool b
  | integer n => exact .integer n
  | float x => exact .float x
  | text s => exact .text s
  | array items_formed => exact .array items_formed
  | object ordered members_formed =>
    refine .object (List.pairwise_map.2 ordered) fun m hm => ?_
    obtain ⟨m', hm', rfl⟩ := List.mem_map.1 hm
    exact (members_formed m' hm').normal

theorem Document.Sized.normal {d : Document} (h : d.Sized) : d.normal.Sized where
  version := h.version
  properties p hp := by
    obtain ⟨q, hq, rfl⟩ := List.mem_map.1 hp
    exact (h.properties q hq).normal
  edges e he := by
    obtain ⟨f, hf, rfl⟩ := List.mem_map.1 he
    exact h.edges f hf
  positions := h.positions
  data j hj := by
    obtain ⟨k, hk, rfl⟩ := List.mem_map.1 hj
    exact (h.data k hk).normalPayload

/-- Nothing in what is written for a graph is too large, if the graph was read. -/
theorem Graph.sized_toDocument {r : NodeRegistry} {text : String} {limit : Nat} {d : Document}
    {g : Graph} (hread : Document.read text limit = .ok d) (h : Graph.ofDocument r d = .ok g) :
    g.toDocument.Sized := by
  obtain ⟨hwell, hdepicts⟩ := ofDocument_eq_ok_iff.1 h
  rw [hdepicts.toDocument_eq_normal hwell (Document.ordered_of_read hread)]
  exact (Document.sized_of_read hread).normal

end BranchingDialogue
