import BranchingDialogue.Dictionary
import BranchingDialogue.Json.Record

/-!
# What readers of JSON keep

A reader of a list, of members or of a record goes from one part to the next; what every part keeps,
the whole keeps. One use of it is that the objects that are read list their members by name:
`ordered_of_readValue`.
-/

namespace BranchingDialogue.Json

variable {α σ δ ρ : Type}

theorem exists_of_map {β ε : Type} {r : Except ε α} {f : α → β} {y : β} (h : r.map f = .ok y) :
    ∃ x, r = .ok x ∧ f x = y := by
  cases r with
  | error e => cases h
  | ok x => exact ⟨x, rfl, Except.ok.inj h⟩

/-! ## Lists and members -/

/-- All elements of a list are what its items are read as. -/
theorem forall_mem_of_readElements {P : α → Prop} {item : List Char → Reading α}
    (hitem : ∀ cs x rest, item cs = .ok (x, rest) → P x) {bound : List Char} {first : Bool}
    {cs rest : List Char} {xs : List α} (h : readElements item bound first cs = .ok (xs, rest)) :
    ∀ x ∈ xs, P x := by
  induction bound generalizing first cs xs with
  | nil =>
    cases h
    exact List.forall_mem_nil P
  | cons b bound ih =>
    rw [readElements] at h
    split at h
    · cases h
    · cases h
      exact List.forall_mem_nil P
    · split at h
      · cases h
      · next x after hx =>
        split at h
        · cases h
        · next xs after hxs =>
          cases h
          exact List.forall_mem_cons.2 ⟨hitem _ _ _ hx, ih hxs⟩

theorem forall_mem_of_readList {P : α → Prop} {item : List Char → Reading α}
    (hitem : ∀ cs x rest, item cs = .ok (x, rest) → P x) {cs rest : List Char} {xs : List α}
    (h : readList item cs = .ok (xs, rest)) : ∀ x ∈ xs, P x := by
  rw [readList] at h
  split at h
  · cases h
  · next hxs =>
    split at h
    · cases h
    · cases h
      exact forall_mem_of_readElements hitem hxs

theorem forall_mem_of_listValue {P : α → Prop} {item : List Char → Reading α}
    (hitem : ∀ cs x rest, item cs = .ok (x, rest) → P x) {cs rest : List Char} {xs : List α}
    (h : listValue item cs = .ok (xs, rest)) : ∀ x ∈ xs, P x := by
  rw [listValue] at h
  split at h
  · exact forall_mem_of_readList hitem h
  · cases h

/-- What every member keeps holds of what is gathered. -/
theorem readMembers_keeps {P : σ → Prop} {member : σ → String → List Char → Reading σ}
    (hmember : ∀ s name cs s' rest, P s → member s name cs = .ok (s', rest) → P s')
    {bound : List Char} {first : Bool} {s s' : σ} {cs rest : List Char} (hs : P s)
    (h : readMembers member bound first s cs = .ok (s', rest)) : P s' := by
  induction bound generalizing first s cs with
  | nil =>
    cases h
    exact hs
  | cons b bound ih =>
    rw [readMembers] at h
    split at h
    · cases h
    · cases h
      exact hs
    · split at h
      · cases h
      · split at h
        · cases h
        · next hstep => exact ih (hmember _ _ _ _ _ hs hstep) h

/-! ## Values -/

/-- The members of an object are listed by name, each name once. -/
def Ordered : Json → Prop
  | .object members => members.Pairwise fun a b => a.1 < b.1
  | _ => True

/-- A member is put where a dictionary would put it. -/
theorem insertMember_eq_insertEntry (name : String) (value : Json) (ms : List (String × Json)) :
    insertMember name value ms = Dictionary.insertEntry name value ms := by
  induction ms with
  | nil => rfl
  | cons m ms ih =>
    simp only [insertMember, Dictionary.insertEntry, ih]

/-- Arrays and objects lie at most so deep in one another, and every object lists its members by
name, each name once. -/
inductive Formed : Nat → Json → Prop
  | null {depth : Nat} : Formed depth .null
  | bool {depth : Nat} (b : Bool) : Formed depth (.bool b)
  | integer {depth : Nat} (n : WideInteger) : Formed depth (.integer n)
  | float {depth : Nat} (x : FiniteFloat) : Formed depth (.float x)
  | text {depth : Nat} (s : String) : Formed depth (.text s)
  | array {depth : Nat} {items : List Json} (items_formed : ∀ j ∈ items, Formed depth j) :
      Formed (depth + 1) (.array items)
  | object {depth : Nat} {members : List (String × Json)}
      (ordered : members.Pairwise fun a b => a.1 < b.1)
      (members_formed : ∀ m ∈ members, Formed depth m.2) : Formed (depth + 1) (.object members)

theorem Formed.toOrdered {depth : Nat} {j : Json} (h : Formed depth j) : j.Ordered := by
  cases h with
  | object ordered _ => exact ordered
  | _ => trivial

theorem formed_of_map {r : Except Fault α} {f : α → Json × List Char} {depth : Nat} {j : Json}
    {rest : List Char} (h : r.map f = .ok (j, rest))
    (hf : ∀ x, r = .ok x → Formed depth (f x).1) : Formed depth j := by
  obtain ⟨x, hr, hx⟩ := exists_of_map h
  have hj := hf x hr
  rwa [hx] at hj

/-- **A value that was read is well formed**, within the depth that it may have. -/
theorem formed_of_readValue {depth : Nat} {cs rest : List Char} {j : Json}
    (h : readValue depth cs = .ok (j, rest)) : Formed depth j := by
  have hnumber : ∀ (depth : Nat) (n : Number), Formed depth n.toJson := fun depth n => by
    cases n with
    | integer n => exact .integer n
    | float x => exact .float x
  induction depth using Nat.strongRecOn generalizing cs j rest with
  | ind depth ih =>
    rw [readValue] at h
    split at h
    · cases h
    · split at h
      · exact formed_of_map h fun _ _ => .null
      split at h
      · exact formed_of_map h fun _ _ => .bool true
      split at h
      · exact formed_of_map h fun _ _ => .bool false
      split at h
      · exact formed_of_map h fun _ _ => hnumber _ _
      split at h
      · exact formed_of_map h fun _ _ => hnumber _ _
      split at h
      · exact formed_of_map h fun _ _ => .text _
      split at h
      · split at h
        · cases h
        · next depth =>
          refine formed_of_map h fun found hfound => .array ?_
          exact forall_mem_of_readList (fun _ _ _ => ih depth (Nat.lt_succ_self depth)) hfound
      split at h
      · split at h
        · cases h
        · next depth =>
          -- Only here members come together, each put at its place.
          simp only at h
          split at h
          · cases h
          · next hms =>
            have hmembers := readMembers_keeps (P := fun ms => ms.Pairwise (fun a b => a.1 < b.1)
              ∧ ∀ m ∈ ms, Formed depth m.2) ?_ ⟨.nil, List.forall_mem_nil _⟩ hms
            · exact formed_of_map h fun _ _ => .object hmembers.1 hmembers.2
            · intro ms name cs ms' rest hms hmember
              split at hmember
              · cases hmember
              · obtain ⟨⟨v, rest'⟩, hv, heq⟩ := exists_of_map hmember
                cases heq
                rw [insertMember_eq_insertEntry]
                refine ⟨Dictionary.ascending_insertEntry name v hms.1, fun m hm => ?_⟩
                rcases Dictionary.mem_insertEntry hm with rfl | hm
                · exact ih depth (Nat.lt_succ_self depth) hv
                · exact hms.2 m hm
      · cases h

/-- An object is read with its members in order. -/
theorem ordered_of_readValue {depth : Nat} {cs rest : List Char} {j : Json}
    (h : readValue depth cs = .ok (j, rest)) : j.Ordered := (formed_of_readValue h).toOrdered

/-- A whole text is read from its start. -/
theorem exists_of_whole {reader : List Char → Reading α} {text : String} {x : α}
    (h : whole reader text = .ok x) : ∃ rest, reader text.toList = .ok (x, rest) := by
  rw [whole] at h
  split at h
  · cases h
  · next y rest hread =>
    split at h <;> cases h
    exact ⟨rest, hread⟩

/-! ## Records -/

namespace RecordKind

variable {k : RecordKind δ ρ} {P : δ → Prop} {d d' : δ} {cs rest : List Char}

theorem readMember_keeps (hfields : ∀ f ∈ k.fields, ∀ cs d d' rest, P d →
      f.read cs d = .ok (d', rest) → P d') {name : String} (hd : P d)
    (h : k.readMember d name cs = .ok (d', rest)) : P d' := by
  rw [readMember] at h
  split at h
  · split at h
    · cases h
    · obtain ⟨rest', -, heq⟩ := exists_of_map h
      cases heq
      exact hd
  · next f hf =>
    split at h
    · cases h
    · split at h
      · cases h
      · exact hfields f (List.mem_of_find?_eq_some hf) _ _ _ _ hd h

theorem readOrdered_keeps {fs : List (Field δ)} (hfields : ∀ f ∈ fs, ∀ cs d d' rest, P d →
      f.read cs d = .ok (d', rest) → P d') {place : Nat} (hd : P d)
    (h : k.readOrdered fs place d cs = .ok (d', rest)) : P d' := by
  induction fs generalizing place d cs with
  | nil =>
    cases h
    exact hd
  | cons f fs ih =>
    rw [List.forall_mem_cons] at hfields
    rw [readOrdered] at h
    split at h
    · cases h
    · split at h
      · exact ih hfields.2 hd h
      · cases h
    · split at h
      · cases h
      · next hread => exact ih hfields.2 (hfields.1 _ _ _ _ hd hread) h

/-- A record is finished from what all its fields keep. -/
theorem exists_of_read {r : ρ} (hfields : ∀ f ∈ k.fields, ∀ cs d d' rest, P d →
      f.read cs d = .ok (d', rest) → P d') (hstart : P k.start) (h : k.read cs = .ok (r, rest)) :
    ∃ d, P d ∧ k.finish d = some r := by
  have hcomplete : ∀ {d r}, k.complete d = .ok r → k.finish d = some r := by
    intro d r h
    rw [complete] at h
    split at h <;> cases h
    assumption
  rw [read] at h
  split at h
  · split at h
    · cases h
    · next d rest' hd =>
      have hkeeps := readMembers_keeps (fun _ _ _ _ _ => readMember_keeps hfields) hstart hd
      split at h
      · cases h
      · cases h
      · cases h
      · next hr _ =>
        cases h
        exact ⟨d, hkeeps, hcomplete hr⟩
  · split at h
    · cases h
    · next d rest' hd =>
      have hkeeps := readOrdered_keeps hfields hstart hd
      split at h
      · cases h
      · cases h
      · cases h
      · next hr _ =>
        cases h
        exact ⟨d, hkeeps, hcomplete hr⟩
  · cases h

variable {name : String} {get : δ → Option α} {set : δ → α → δ} {item : List Char → Reading α}

/-- A field keeps what setting it keeps. -/
theorem required_keeps (h : (required name get set item).read cs d = .ok (d', rest))
    (hset : ∀ cs x rest, item cs = .ok (x, rest) → P (set d x)) : P d' := by
  obtain ⟨⟨x, rest'⟩, hx, heq⟩ := exists_of_map h
  cases heq
  exact hset _ _ _ hx

theorem defaulted_keeps (h : (defaulted name get set item).read cs d = .ok (d', rest))
    (hset : ∀ cs x rest, item cs = .ok (x, rest) → P (set d x)) : P d' :=
  required_keeps (show (required name get set item).read cs d = .ok (d', rest) from h) hset

end RecordKind

end BranchingDialogue.Json
