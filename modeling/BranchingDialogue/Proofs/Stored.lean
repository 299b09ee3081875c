import BranchingDialogue.Proofs.Finite
import BranchingDialogue.Proofs.Json.Reading
import BranchingDialogue.Proofs.Value

/-!
# Values and payloads as they are stored

A value that was read is written so that it reads back as itself. What is written is what was read,
but for whole numbers that 64 bits with a sign cannot hold: those were read as floats and stay
floats. `Json.normal` makes just this change, and `toJson_eq_normal` says that reading and writing
does. `Json.normalPayload` is its counterpart for payloads, where a null becomes an object without
members.
-/

namespace BranchingDialogue

namespace Json

/-- A whole number as it is after reading: a float where 64 bits with a sign cannot hold it. -/
def normalInteger (n : WideInteger) : Json :=
  if n.1 < 0x8000000000000000 then .integer n
  else .float ⟨n.1.toNat.toUInt64.toFloat, isFinite_toFloat _⟩

mutual

/-- A JSON value with its whole numbers as they are after reading, at every depth of arrays. -/
def normal : Json → Json
  | .integer n => normalInteger n
  | .array items => .array (normalItems items)
  | j => j

/-- The elements of an array, each as it is after reading. -/
def normalItems : List Json → List Json
  | [] => []
  | x :: xs => normal x :: normalItems xs

end

theorem normalItems_eq_map (items : List Json) : normalItems items = items.map normal := by
  induction items with
  | nil => rfl
  | cons x xs ih => rw [normalItems, ih, List.map_cons]

/-- A payload as it is after reading: null became an object without members. -/
def normalPayload : Json → Json
  | .null => .object []
  | .object members => .object (members.map fun m => (m.1, m.2.normal))
  | j => j

end Json

namespace Value

open Json (normalInteger)

theorem toJson_ofInteger (n : WideInteger) : (ofInteger n).toJson = normalInteger n := by
  obtain ⟨n, hlow, hhigh⟩ := n
  rw [ofInteger, normalInteger]
  by_cases h : n < 0x8000000000000000
  · rw [if_pos h, if_pos h, toJson]
    congr 2
    exact Int64.toInt_ofInt_of_le hlow h
  · rw [if_neg h, if_neg h, toJson, dif_pos (isFinite_toFloat _)]

theorem ofJson_normalInteger (n : WideInteger) : ofJson (normalInteger n) = .ok (ofInteger n) := by
  obtain ⟨n, hlow, hhigh⟩ := n
  rw [normalInteger]
  by_cases h : n < 0x8000000000000000
  · rw [if_pos h, ofJson]
  · rw [if_neg h, ofJson, ofInteger, if_neg h]

theorem ofItems_normalItems {items : List Json}
    (h : ∀ j ∈ items, ofJson j.normal = ofJson j) :
    ofItems (Json.normalItems items) = ofItems items := by
  induction items with
  | nil => rfl
  | cons x xs ih =>
    rw [List.forall_mem_cons] at h
    rw [Json.normalItems, ofItems, ofItems, h.1, ih h.2]

/-- What was normalised is read as what it was. -/
theorem ofJson_normal (j : Json) : ofJson j.normal = ofJson j := by
  induction j using Json.arrayInduction with
  | integer n => exact ofJson_normalInteger n
  | array items ih => rw [Json.normal, ofJson, ofJson, ofItems_normalItems ih]
  | null | bool | float | text | object => rfl

theorem toItems_eq_map (items : List Value) : toItems items = items.map toJson := by
  induction items with
  | nil => rfl
  | cons v items ih => rw [toItems, ih, List.map_cons]

/-- What was read is written as it was, normalised. -/
theorem toJson_eq_normal {j : Json} {v : Value} (h : ofJson j = .ok v) : v.toJson = j.normal := by
  induction j using Json.arrayInduction generalizing v with
  | integer n =>
    cases h
    exact toJson_ofInteger n
  | float x =>
    cases h
    rw [toJson, dif_pos x.2]
    rfl
  | array items ih =>
    rw [ofJson] at h
    split at h
    · cases h
    · next vs hvs =>
      cases h
      rw [toJson, Json.normal, toItems_eq_map, Json.normalItems_eq_map]
      congr 1
      have hitems := ofItems_eq_ok_iff.1 hvs
      clear hvs
      induction hitems with
      | nil => rfl
      | cons hhead _ ihtail =>
        rw [List.forall_mem_cons] at ih
        rw [List.map_cons, List.map_cons, ih.1 hhead, ihtail ih.2]
  | bool | text =>
    cases h
    rfl
  | null | object => cases h

/-- A value that was read is read again from what is written for it. -/
theorem ofJson_toJson {j : Json} {v : Value} (h : ofJson j = .ok v) : ofJson v.toJson = .ok v := by
  rw [toJson_eq_normal h, ofJson_normal, h]

end Value

namespace Payload

/-- All values of a payload read back from what is written for them. -/
def Storable (p : Payload) : Prop := ∀ e ∈ p.entries, Value.ofJson e.2.toJson = .ok e.2

theorem mem_readable {members : List (String × Json)} {e : String × Value}
    (h : e ∈ Json.readable members) : ∃ m ∈ members, m.1 = e.1 ∧ Value.ofJson m.2 = .ok e.2 := by
  rw [Json.readable, List.mem_filterMap] at h
  obtain ⟨m, hm, hread⟩ := h
  refine ⟨m, hm, ?_⟩
  cases hv : Value.ofJson m.2 with
  | error e => simp [hv, Except.toOption] at hread
  | ok v =>
    simp only [hv, Except.toOption, Option.map_some, Option.some.injEq] at hread
    rw [← hread]
    exact ⟨rfl, rfl⟩

/-- Of several values under one name the last one is kept, so every value kept was read. -/
theorem exists_member_of_payload {j : Json} {name : String} {v : Value}
    (h : j.payload.get? name = some v) :
    ∃ members m, j = .object members ∧ m ∈ members ∧ Value.ofJson m.2 = .ok v := by
  cases j with
  | object members =>
    rw [Json.payload, Dictionary.get?_ofList, Option.map_eq_some_iff] at h
    obtain ⟨e, hfind, rfl⟩ := h
    obtain ⟨m, hm, -, hv⟩ := mem_readable (List.mem_reverse.1 (List.mem_of_find?_eq_some hfind))
    exact ⟨members, m, rfl, hm, hv⟩
  | _ => cases h

theorem storable_payload (j : Json) : j.payload.Storable := by
  rintro ⟨name, v⟩ hmem
  obtain ⟨members, m, -, -, hv⟩ := exists_member_of_payload (Dictionary.get?_eq_some_iff.2 hmem)
  exact Value.ofJson_toJson hv

theorem readable_toMembers {p : Payload} (h : p.Storable) :
    Json.readable p.toMembers = p.entries := by
  rw [Json.readable, toMembers, List.filterMap_map]
  have hid : ∀ e ∈ p.entries, ((fun m : String × Json =>
      (Value.ofJson m.2).toOption.map fun v => (m.1, v)) ∘ fun e => (e.1, e.2.toJson)) e
        = some e := fun e he => by
    simp [h e he, Except.toOption]
  rw [List.filterMap_congr hid, List.filterMap_some]

/-- **A payload reads back from what is written for it.** -/
theorem payload_toMembers {p : Payload} (h : p.Storable) :
    (Json.object p.toMembers).payload = p := by
  rw [Json.payload, readable_toMembers h, Dictionary.ofList_entries]

theorem isPayload_toMembers {p : Payload} (h : p.Storable) :
    (Json.object p.toMembers).IsPayload := by
  refine Or.inr ⟨_, rfl, fun m hm => ?_⟩
  obtain ⟨e, he, rfl⟩ := List.mem_map.1 hm
  exact Value.isPlain_of_ofJson (h e he)

theorem readable_of_isPlain {members : List (String × Json)} (h : ∀ m ∈ members, m.2.IsPlain) :
    (Json.readable members).map (fun e => (e.1, e.2.toJson))
      = members.map fun m => (m.1, m.2.normal) := by
  induction members with
  | nil => rfl
  | cons m rest ih =>
    rw [List.forall_mem_cons] at h
    obtain ⟨v, hv⟩ := Value.exists_ofJson h.1
    obtain ⟨name, json⟩ := m
    rw [readable_cons hv, List.map_cons, List.map_cons, ih h.2, Value.toJson_eq_normal hv]

theorem ascending_readable {members : List (String × Json)}
    (h : members.Pairwise fun a b => a.1 < b.1) :
    (Json.readable members).Pairwise fun a b => a.1 < b.1 := by
  rw [Json.readable]
  refine List.Pairwise.filterMap _ (fun a b hab a' ha b' hb => ?_) h
  obtain ⟨v, -, rfl⟩ := Option.map_eq_some_iff.1 ha
  obtain ⟨w, -, rfl⟩ := Option.map_eq_some_iff.1 hb
  exact hab

/-- A payload is written as it was read, normalised. -/
theorem toMembers_payload {j : Json} (hj : j.IsPayload) (ho : j.Ordered) :
    Json.object j.payload.toMembers = j.normalPayload := by
  rcases hj with rfl | ⟨members, rfl, hplain⟩
  · rfl
  · have hentries : (Json.object members).payload.entries = Json.readable members := by
      rw [Json.payload, Dictionary.ofList_of_ascending (ascending_readable ho)]
    rw [toMembers, hentries, Json.normalPayload, readable_of_isPlain hplain]

end Payload

end BranchingDialogue
