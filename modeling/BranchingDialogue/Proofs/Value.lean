import BranchingDialogue.Document.Load
import BranchingDialogue.Proofs.Dictionary
import Mathlib.Data.List.Forall2

/-!
# Which JSON is a value, which a payload

A value is read from JSON by its kind, and the reading fails at the first null or object inside.
`Json.IsPlain` says the same of the JSON value as a whole, and `Json.Holds` what is in the way
otherwise. `Json.payload` says which payload an object stands for without reading it member by
member, and `Payload.ofJson_eq_ok_iff` joins the two.

What holds of JSON values at every depth of their arrays is shown by `Json.arrayInduction`. Objects
are not looked into, as readers of values do not.
-/

namespace BranchingDialogue

/-- Induction over a JSON value, through its arrays. -/
@[elab_as_elim]
theorem Json.arrayInduction {motive : Json → Prop} (null : motive .null)
    (bool : ∀ b, motive (.bool b)) (integer : ∀ n, motive (.integer n))
    (float : ∀ x, motive (.float x)) (text : ∀ s, motive (.text s))
    (array : ∀ items, (∀ j ∈ items, motive j) → motive (.array items))
    (object : ∀ members, motive (.object members)) : ∀ j, motive j
  | .null => null
  | .bool b => bool b
  | .integer n => integer n
  | .float x => float x
  | .text s => text s
  | .array items => by
    refine array items fun j hj => ?_
    exact arrayInduction null bool integer float text array object j
  | .object members => object members
  termination_by j => sizeOf j
  decreasing_by
    have hlt := List.sizeOf_lt_of_mem hj
    simp only [Json.array.sizeOf_spec]
    omega

/-- Holds neither a null nor an object, at any depth. -/
inductive Json.IsPlain : Json → Prop
  | bool (b : Bool) : IsPlain (.bool b)
  | integer (n : WideInteger) : IsPlain (.integer n)
  | float (x : FiniteFloat) : IsPlain (.float x)
  | text (s : String) : IsPlain (.text s)
  | array {items : List Json} (h : ∀ j ∈ items, IsPlain j) : IsPlain (.array items)

namespace Value

theorem ofItems_eq_ok_iff {items : List Json} {vs : List Value} :
    ofItems items = .ok vs ↔ List.Forall₂ (fun j v => ofJson j = .ok v) items vs := by
  induction items generalizing vs with
  | nil =>
    rw [ofItems, List.forall₂_nil_left_iff, Except.ok.injEq]
    exact eq_comm
  | cons x xs ih =>
    rw [ofItems, List.forall₂_cons_left_iff]
    constructor
    · intro h
      split at h
      · cases h
      · next v hv =>
        split at h
        · cases h
        · next ws hws =>
          cases h
          exact ⟨v, ws, hv, ih.1 hws, rfl⟩
    · rintro ⟨v, ws, hv, hws, rfl⟩
      rw [hv, ih.2 hws]

theorem isPlain_of_ofJson {j : Json} {v : Value} (h : ofJson j = .ok v) : j.IsPlain := by
  induction j using Json.arrayInduction generalizing v with
  | null => cases h
  | bool b => exact .bool b
  | integer n => exact .integer n
  | float x => exact .float x
  | text s => exact .text s
  | array items ih =>
    rw [ofJson] at h
    split at h
    · cases h
    · next vs hvs =>
      have hitems := ofItems_eq_ok_iff.1 hvs
      refine .array fun j hj => ?_
      obtain ⟨i, hi, rfl⟩ := List.getElem_of_mem hj
      exact ih _ hj (hitems.get hi (hitems.length_eq ▸ hi))
  | object members => cases h

theorem exists_ofItems {items : List Json} (h : ∀ j ∈ items, ∃ v, ofJson j = .ok v) :
    ∃ vs, ofItems items = .ok vs := by
  induction items with
  | nil => exact ⟨[], rfl⟩
  | cons x xs ih =>
    obtain ⟨v, hv⟩ := h x List.mem_cons_self
    obtain ⟨vs, hvs⟩ := ih fun j hj => h j (List.mem_cons_of_mem x hj)
    exact ⟨v :: vs, by rw [ofItems, hv, hvs]⟩

theorem exists_ofJson {j : Json} (h : j.IsPlain) : ∃ v, ofJson j = .ok v := by
  induction h with
  | bool b => exact ⟨.bool b, rfl⟩
  | integer n => exact ⟨ofInteger n, rfl⟩
  | float x => exact ⟨.float x.1, rfl⟩
  | text s => exact ⟨.text s, rfl⟩
  | array h ih =>
    obtain ⟨vs, hvs⟩ := exists_ofItems ih
    exact ⟨.sequence vs, by rw [ofJson, hvs]⟩

theorem exists_ofJson_iff {j : Json} : (∃ v, ofJson j = .ok v) ↔ j.IsPlain :=
  ⟨fun ⟨_, h⟩ => isPlain_of_ofJson h, exists_ofJson⟩

end Value

/-! ## What is no value -/

/-- Holds the null or the object that a shape error is about, at some depth of its arrays. -/
inductive Json.Holds : ShapeError → Json → Prop
  | null : Holds .null .null
  | object (members : List (String × Json)) : Holds .object (.object members)
  | item {shape : ShapeError} {items : List Json} {j : Json} (hj : j ∈ items)
    (h : Holds shape j) : Holds shape (.array items)

theorem Json.Holds.not_isPlain {shape : ShapeError} {j : Json} (h : j.Holds shape) :
    ¬j.IsPlain := by
  induction h with
  | null => nofun
  | object => nofun
  | item hj _ ih =>
    intro hplain
    cases hplain with
    | array hitems => exact ih (hitems _ hj)

namespace Value

theorem exists_mem_of_ofItems {items : List Json} {shape : ShapeError}
    (h : ofItems items = .error shape) : ∃ j ∈ items, ofJson j = .error shape := by
  induction items with
  | nil => cases h
  | cons x xs ih =>
    rw [ofItems] at h
    split at h
    · next e hx =>
      cases h
      exact ⟨x, List.mem_cons_self, hx⟩
    · split at h
      · next e hxs =>
        cases h
        obtain ⟨j, hj, hfails⟩ := ih hxs
        exact ⟨j, List.mem_cons_of_mem x hj, hfails⟩
      · cases h

/-- What is refused holds what the error says. -/
theorem holds_of_ofJson {j : Json} {shape : ShapeError} (h : ofJson j = .error shape) :
    j.Holds shape := by
  induction j using Json.arrayInduction with
  | null =>
    cases h
    exact .null
  | array items ih =>
    rw [ofJson] at h
    split at h
    · next e hitems =>
      cases h
      obtain ⟨j, hj, hfails⟩ := exists_mem_of_ofItems hitems
      exact .item hj (ih j hj hfails)
    · cases h
  | object members =>
    cases h
    exact .object members
  | bool | integer | float | text => cases h

/-- A JSON value is read as a value, or there is something in it that is none, and never both. -/
theorem exists_ofJson_iff_not_holds {j : Json} :
    (∃ v, ofJson j = .ok v) ↔ ∀ shape, ¬j.Holds shape := by
  constructor
  · rintro ⟨v, h⟩ shape hholds
    exact hholds.not_isPlain (isPlain_of_ofJson h)
  · intro h
    cases hread : ofJson j with
    | ok v => exact ⟨v, rfl⟩
    | error shape => exact absurd (holds_of_ofJson hread) (h shape)

end Value

/-! ## Payloads -/

/-- The values of those members that have one. -/
def Json.readable (members : List (String × Json)) : List (String × Value) :=
  members.filterMap fun m => (Value.ofJson m.2).toOption.map fun v => (m.1, v)

/-- The payload that a JSON value stands for: of several members of one name the last one counts. -/
def Json.payload : Json → Payload
  | .object members => .ofList (readable members)
  | _ => {}

/-- A null, or an object whose members are values. -/
def Json.IsPayload (j : Json) : Prop :=
  j = .null ∨ ∃ members, j = .object members ∧ ∀ m ∈ members, m.2.IsPlain

namespace Payload

theorem readable_cons {name : String} {json : Json} {v : Value} {rest : List (String × Json)}
    (h : Value.ofJson json = .ok v) :
    Json.readable ((name, json) :: rest) = (name, v) :: Json.readable rest := by
  rw [Json.readable, List.filterMap_cons, h]
  rfl

/-- Putting a value in front of what has been read changes nothing if the name is taken. -/
theorem ofList_cons (name : String) (v : Value) (l : List (String × Value)) :
    (Dictionary.ofList ((name, v) :: l) : Payload)
      = if (Dictionary.ofList l).contains name then .ofList l
        else (Dictionary.ofList l).insert name v := by
  apply Dictionary.ext_get?
  intro key
  rw [Dictionary.get?_ofList_cons]
  by_cases hc : (Dictionary.ofList l).contains name
  · obtain ⟨w, hw⟩ := Dictionary.contains_eq_true_iff.1 hc
    rw [if_pos hc]
    by_cases hk : name = key
    · rw [← hk, hw, Option.some_or]
    · rw [if_neg hk, Option.or_none]
  · rw [if_neg hc, Dictionary.get?_insert]
    by_cases hk : name = key
    · have hnone : (Dictionary.ofList l).get? key = none := by
        rw [← hk]
        simpa [Dictionary.contains] using hc
      rw [if_pos hk, if_pos hk, hnone, Option.none_or]
    · rw [if_neg hk, if_neg hk, Option.or_none]

theorem ofMembers_of_isPlain {members : List (String × Json)} (h : ∀ m ∈ members, m.2.IsPlain) :
    ofMembers members = .ok (Json.object members).payload := by
  induction members with
  | nil => rfl
  | cons m rest ih =>
    obtain ⟨name, json⟩ := m
    obtain ⟨v, hv⟩ := Value.exists_ofJson (h (name, json) List.mem_cons_self)
    rw [ofMembers, hv, ih fun m hm => h m (List.mem_cons_of_mem _ hm), Json.payload, Json.payload,
      readable_cons hv, ofList_cons]

theorem isPlain_of_ofMembers {members : List (String × Json)} {p : Payload}
    (h : ofMembers members = .ok p) : ∀ m ∈ members, m.2.IsPlain := by
  induction members generalizing p with
  | nil => exact fun m hm => absurd hm List.not_mem_nil
  | cons m rest ih =>
    obtain ⟨name, json⟩ := m
    rw [ofMembers] at h
    split at h
    · cases h
    · next v hv =>
      split at h
      · cases h
      · next q hq =>
        intro m hm
        rcases List.mem_cons.1 hm with rfl | hm
        · exact Value.isPlain_of_ofJson hv
        · exact ih hq m hm

theorem exists_member_of_ofMembers {members : List (String × Json)} {name : String}
    {shape : ShapeError} (h : ofMembers members = .error (name, shape)) :
    ∃ json, (name, json) ∈ members ∧ json.Holds shape := by
  induction members with
  | nil => cases h
  | cons m rest ih =>
    obtain ⟨key, json⟩ := m
    rw [ofMembers] at h
    split at h
    · next e hjson =>
      cases h
      exact ⟨json, List.mem_cons_self, Value.holds_of_ofJson hjson⟩
    · split at h
      · next e hrest =>
        cases h
        obtain ⟨json', hmem, hholds⟩ := ih hrest
        exact ⟨json', List.mem_cons_of_mem _ hmem, hholds⟩
      · cases h

/-- **Payloads are exactly read.** A JSON value is accepted as a payload if and only if it is a null
or an object of values, and then it gives the payload it stands for. -/
theorem ofJson_eq_ok_iff {node : NodeId} {j : Json} {p : Payload} :
    ofJson node j = .ok p ↔ j.IsPayload ∧ p = j.payload := by
  constructor
  · intro h
    cases j with
    | null =>
      cases h
      exact ⟨Or.inl rfl, rfl⟩
    | object members =>
      rw [ofJson] at h
      split at h
      · next q hq =>
        cases h
        have hplain := isPlain_of_ofMembers hq
        rw [ofMembers_of_isPlain hplain] at hq
        cases hq
        exact ⟨Or.inr ⟨members, rfl, hplain⟩, rfl⟩
      · cases h
    | _ => cases h
  · rintro ⟨rfl | ⟨members, rfl, hplain⟩, rfl⟩
    · rfl
    · rw [ofJson, ofMembers_of_isPlain hplain]

end Payload

end BranchingDialogue
