import BranchingDialogue.Proofs.Json.Writing
import Mathlib.Data.List.Forall2

/-!
# Values and records are read back

The reader of floats need not find the double that was written. Whatever it finds in place of each,
the report of a JSON value is read as that value with its floats replaced (`takes_mapFloats`), so as
that value itself where every float is read as it was (`takes_ofJson`). A record is read back if its
fields are, in their order (`RecordKind.takes_record`), and refused if one of them is
(`RecordKind.exists_error_of_record`).
-/

namespace BranchingDialogue.Json

variable {α σ δ ρ : Type} {rest : List Char}

/-! ## Values -/

/-- A double is read as itself from what is written for it. -/
def Exact (x : FiniteFloat) : Prop :=
  readValue 0 (Report.double x.1).json.toList = .ok (.float x, [])

/-- A double is read as another one from what is written for it. -/
def ReadsAs (x y : FiniteFloat) : Prop :=
  readValue 0 (Report.double x.1).json.toList = .ok (.float y, [])

/-- The float that was read, if nothing is left. -/
def lastFloat? : Reading Json → Option FiniteFloat
  | .ok (.float x, []) => some x
  | _ => none

theorem lastFloat?_eq_some_iff {r : Reading Json} {x : FiniteFloat} :
    lastFloat? r = some x ↔ r = .ok (.float x, []) := by
  constructor
  · intro h
    unfold lastFloat? at h
    split at h
    · rw [Option.some.inj h]
    · cases h
  · rintro rfl
    rfl

instance (x : FiniteFloat) : Decidable (Exact x) :=
  decidable_of_iff (lastFloat? (readValue 0 (Report.double x.1).json.toList) = some x)
    lastFloat?_eq_some_iff

mutual

/-- The floats in a JSON value. -/
def floats : Json → List FiniteFloat
  | .float x => [x]
  | .array items => itemFloats items
  | .object members => memberFloats members
  | _ => []

/-- The floats in the elements of an array. -/
def itemFloats : List Json → List FiniteFloat
  | [] => []
  | j :: js => floats j ++ itemFloats js

/-- The floats in the members of an object. -/
def memberFloats : List (String × Json) → List FiniteFloat
  | [] => []
  | (_, j) :: ms => floats j ++ memberFloats ms

end

mutual

/-- A JSON value with its floats replaced. -/
def mapFloats (f : FiniteFloat → FiniteFloat) : Json → Json
  | .float x => .float (f x)
  | .array items => .array (mapItems f items)
  | .object members => .object (mapMembers f members)
  | j => j

/-- Elements of an array with their floats replaced. -/
def mapItems (f : FiniteFloat → FiniteFloat) : List Json → List Json
  | [] => []
  | j :: js => mapFloats f j :: mapItems f js

/-- Members of an object with their floats replaced. -/
def mapMembers (f : FiniteFloat → FiniteFloat) : List (String × Json) → List (String × Json)
  | [] => []
  | (name, j) :: ms => (name, mapFloats f j) :: mapMembers f ms

end

theorem mem_itemFloats {x : FiniteFloat} {items : List Json} {j : Json} (hj : j ∈ items)
    (hx : x ∈ j.floats) : x ∈ itemFloats items := by
  induction items with
  | nil => cases hj
  | cons i items ih =>
    rw [itemFloats, List.mem_append]
    rcases List.mem_cons.1 hj with rfl | hj
    · exact .inl hx
    · exact .inr (ih hj)

theorem itemFloats_texts (ss : List String) : itemFloats (ss.map text) = [] := by
  induction ss with
  | nil => rfl
  | cons s ss ih => exact ih

theorem mem_memberFloats {x : FiniteFloat} {members : List (String × Json)} {m : String × Json}
    (hm : m ∈ members) (hx : x ∈ m.2.floats) : x ∈ memberFloats members := by
  induction members with
  | nil => cases hm
  | cons i members ih =>
    rw [memberFloats, List.mem_append]
    rcases List.mem_cons.1 hm with rfl | hm
    · exact .inl hx
    · exact .inr (ih hm)

theorem mapItems_eq (f : FiniteFloat → FiniteFloat) (items : List Json) :
    mapItems f items = items.map (mapFloats f) := by
  induction items with
  | nil => rfl
  | cons j items ih => rw [mapItems, ih, List.map_cons]

theorem mapMembers_eq (f : FiniteFloat → FiniteFloat) (members : List (String × Json)) :
    mapMembers f members = members.map fun m => (m.1, m.2.mapFloats f) := by
  induction members with
  | nil => rfl
  | cons m members ih => rw [mapMembers, ih, List.map_cons]

/-- A value stays the same if its floats do. -/
theorem mapFloats_eq_self {f : FiniteFloat → FiniteFloat} {depth : Nat} {j : Json}
    (h : Formed depth j) (hf : ∀ x ∈ j.floats, f x = x) : j.mapFloats f = j := by
  induction h with
  | null | bool | integer | text => rfl
  | float x => rw [mapFloats, hf x (List.mem_singleton_self x)]
  | @array depth items _ ih =>
    have hitems : items.map (mapFloats f) = items.map id := List.map_congr_left fun j hj =>
      ih j hj fun x hx => hf x (mem_itemFloats hj hx)
    rw [mapFloats, mapItems_eq, hitems, List.map_id]
  | @object depth members _ _ ih =>
    have hmembers : (members.map fun m => (m.1, m.2.mapFloats f)) = members.map id :=
      List.map_congr_left fun m hm => by
        rw [ih m hm fun x hx => hf x (mem_memberFloats hm hx)]
        rfl
    rw [mapFloats, mapMembers_eq, hmembers, List.map_id]

/-- What is read as a number was not left out when it was written. -/
theorem opensNumber_of_readValue {layout : MarkedLayout} {x : WrittenFloat} {n : Number}
    {after : List Char}
    (h : readValue 0 ((x.marked layout).getD "null").toList = .ok (n.toJson, after)) :
    OpensNumber ((x.marked layout).getD "null").toList := by
  cases hmarked : x.marked layout with
  | some text => exact opensNumber_of_marked hmarked
  | none =>
    have hnull := takes_null 0 [] [] rfl ends_nil
    rw [List.nil_append, List.append_nil] at hnull
    rw [hmarked, Option.getD_none, hnull] at h
    cases n <;> cases h

theorem ofItems_eq (items : List Json) : Report.ofItems items = items.map Report.ofJson := by
  induction items with
  | nil => rfl
  | cons j items ih => rw [Report.ofItems, ih, List.map_cons]

theorem ofMembers_eq (members : List (String × Json)) :
    Report.ofMembers members = members.map fun m => (m.1, Report.ofJson m.2) := by
  induction members with
  | nil => rfl
  | cons m members ih => rw [Report.ofMembers, ih, List.map_cons]

/-- A member of an object, as it is read. -/
def valueMember (depth : Nat) (members : List (String × Json)) (name : String) (cs : List Char) :
    Reading (List (String × Json)) :=
  match colon cs with
  | .error fault => .error fault
  | .ok rest => (readValue depth rest).map fun (v, rest) => (insertMember name v members, rest)

theorem readValue_object {depth : Nat} (cs : List Char) :
    readValue (depth + 1) ('\x7b' :: cs)
      = match readMembers (valueMember depth) ('\x7b' :: cs) true [] cs with
        | .error fault => .error fault
        | .ok (members, rest) => (closeObject rest).map fun rest => (.object members, rest) := by
  rw [readValue]
  rfl

theorem readValue_array {depth : Nat} (cs : List Char) :
    readValue (depth + 1) ('[' :: cs)
      = (readList (readValue depth) cs).map fun (items, rest) => (.array items, rest) := by
  rw [readValue]
  rfl

/-- What comes last by name is put last. -/
theorem insertMember_last {name : String} {v : Json} {members : List (String × Json)}
    (h : ∀ m ∈ members, m.1 < name) : insertMember name v members = members ++ [(name, v)] := by
  induction members with
  | nil => rfl
  | cons m members ih =>
    have hm := h m List.mem_cons_self
    have hlt : ¬name < m.1 := fun hlt => String.lt_irrefl _ (String.lt_trans hm hlt)
    have hne : name ≠ m.1 := fun heq => String.lt_irrefl _ (heq ▸ hm)
    rw [insertMember, if_neg hlt, if_neg hne, ih fun m' h' => h m' (List.mem_cons_of_mem m h'),
      List.cons_append]

theorem takesMember_of_takes {item : List Char → Reading α} {text : List Char} {x : α} {s s' : σ}
    {name : String} {member : σ → String → List Char → Reading σ} (h : Takes item text x)
    (hmember : ∀ cs rest, item cs = .ok (x, rest) → member s name (':' :: cs) = .ok (s', rest)) :
    TakesMember member s (name, text) s' := by
  intro rest hrest
  exact hmember _ _ (h [' '] rest rfl hrest)

theorem gathers_valueMember {depth : Nat} {members : List (String × Json)}
    (text : Json → List Char) (value : Json → Json) (before : List (String × Json))
    (hordered : (before ++ members).Pairwise fun a b => a.1 < b.1)
    (h : ∀ m ∈ members, Takes (readValue depth) (text m.2) (value m.2)) :
    Gathers (valueMember depth) before (members.map fun m => (m.1, text m.2))
      (before ++ members.map fun m => (m.1, value m.2)) := by
  induction members generalizing before with
  | nil =>
    rw [List.map_nil, List.map_nil, List.append_nil]
    exact .nil before
  | cons m members ih =>
    rw [List.pairwise_append, List.pairwise_cons] at hordered
    obtain ⟨hbefore, ⟨hm, hmembers⟩, hbetween⟩ := hordered
    -- The members come in order, so each is put behind those before it.
    have hlast : insertMember m.1 (value m.2) before = before ++ [(m.1, value m.2)] :=
      insertMember_last fun a ha => hbetween a ha m List.mem_cons_self
    have hfirst : TakesMember (valueMember depth) before (m.1, text m.2)
        (before ++ [(m.1, value m.2)]) := by
      refine takesMember_of_takes (h m List.mem_cons_self) fun cs rest hread => ?_
      have hcolon : colon (':' :: cs) = .ok cs := rfl
      rw [valueMember, hcolon]
      simp only [hread]
      rw [← hlast]
      rfl
    have hnext : (before ++ [(m.1, value m.2)] ++ members).Pairwise fun a b => a.1 < b.1 := by
      rw [List.append_assoc, List.singleton_append, List.pairwise_append, List.pairwise_cons]
      refine ⟨hbefore, ⟨hm, hmembers⟩, fun a ha b hb => ?_⟩
      rcases List.mem_cons.1 hb with rfl | hb
      · exact hbetween a ha m List.mem_cons_self
      · exact hbetween a ha b (List.mem_cons_of_mem m hb)
    have hothers := ih (before ++ [(m.1, value m.2)]) hnext
      fun a ha => h a (List.mem_cons_of_mem m ha)
    rw [List.append_assoc, List.singleton_append] at hothers
    exact .cons hfirst hothers

/-- **A JSON value is read as it was written but for its floats**, wherever it stands: each of them
is read as what the reader finds for it. -/
theorem takes_mapFloats {f : FiniteFloat → FiniteFloat} {depth : Nat} {j : Json}
    (h : Formed depth j) (hread : ∀ x ∈ j.floats, ReadsAs x (f x)) (place : Nat) :
    Opens (Report.jsonAt place (.ofJson j)).toList
      ∧ Takes (readValue depth) (Report.jsonAt place (.ofJson j)).toList (j.mapFloats f) := by
  induction h generalizing place with
  | null =>
    rw [Report.ofJson, Report.jsonAt]
    exact ⟨⟨'n', _, rfl, rfl, by decide⟩, takes_null _⟩
  | bool b =>
    rw [Report.ofJson, Report.jsonAt]
    refine ⟨?_, takes_bool b _⟩
    cases b with
    | true => exact ⟨'t', _, rfl, rfl, by decide⟩
    | false => exact ⟨'f', _, rfl, rfl, by decide⟩
  | integer n => exact ⟨(opensNumber_integer n.1).opens, takes_integer n _⟩
  | float x =>
    have hx := hread x (List.mem_singleton_self x)
    have hopens := opensNumber_of_readValue (n := .float (f x)) hx
    exact ⟨hopens.opens, takes_of_number (n := .float (f x)) hopens hx _⟩
  | text s => exact ⟨opens_text s, takes_text s _⟩
  | @array depth items _ ih =>
    have hitems : ∀ j ∈ items, ∀ x ∈ j.floats, ReadsAs x (f x) := fun j hj x hx =>
      hread x (mem_itemFloats hj hx)
    rw [Report.ofJson, toList_list]
    have hopens : Opens ('[' :: (between place ((Report.ofItems items).map fun r =>
        (Report.jsonAt (place + 1) r).toList) ++ [']'])) := ⟨'[', _, rfl, rfl, by decide⟩
    refine ⟨hopens, takes_readValue hopens fun rest _ => ?_⟩
    have hlines : List.Forall₂ (fun line j => Opens line ∧ Takes (readValue depth) line j)
        (items.map ((fun r => (Report.jsonAt (place + 1) r).toList) ∘ Report.ofJson))
        (items.map (mapFloats f)) := by
      rw [List.forall₂_map_left_iff, List.forall₂_map_right_iff]
      exact List.forall₂_same.2 fun j hj => ih j hj (hitems j hj) (place + 1)
    rw [List.cons_append, readValue_array, List.append_assoc, List.singleton_append, ofItems_eq,
      List.map_map, readList_between hlines, mapFloats, mapItems_eq]
    rfl
  | @object depth members hordered _ ih =>
    have hmembers : ∀ m ∈ members, ∀ x ∈ m.2.floats, ReadsAs x (f x) := fun m hm x hx =>
      hread x (mem_memberFloats hm hx)
    rw [Report.ofJson, toList_record]
    have hopens : Opens ('\x7b' :: (between place ((fieldMembers (place + 1)
        (Report.ofMembers members)).map memberLine) ++ ['\x7d'])) :=
      ⟨'\x7b', _, rfl, rfl, by decide⟩
    refine ⟨hopens, takes_readValue hopens fun rest _ => ?_⟩
    have hgathers := gathers_valueMember
      (fun j => (Report.jsonAt (place + 1) (.ofJson j)).toList) (mapFloats f) [] hordered
      fun m hm => (ih m hm (hmembers m hm) (place + 1)).2
    obtain ⟨after, hafter, hclose⟩ := readMembers_written hgathers place rest
    have hfields : fieldMembers (place + 1) (Report.ofMembers members)
        = members.map fun m => (m.1, (Report.jsonAt (place + 1) (.ofJson m.2)).toList) := by
      rw [fieldMembers, ofMembers_eq, List.map_map]
      rfl
    rw [hfields, List.cons_append, readValue_object, List.append_assoc, List.singleton_append,
      hafter, mapFloats, mapMembers_eq]
    simp only [hclose]
    rfl

/-- **A JSON value is read as it was written**, wherever it stands, if its floats are. -/
theorem takes_ofJson {depth : Nat} {j : Json} (h : Formed depth j)
    (hexact : ∀ x ∈ j.floats, Exact x) (place : Nat) :
    Opens (Report.jsonAt place (.ofJson j)).toList
      ∧ Takes (readValue depth) (Report.jsonAt place (.ofJson j)).toList j := by
  have hread := takes_mapFloats (f := id) h hexact place
  rwa [mapFloats_eq_self (f := id) h fun _ _ => rfl] at hread

/-- A text is read to its end. -/
theorem whole_of_takes {reader : List Char → Reading α} {text : String} {x : α}
    (h : Takes reader text.toList x) : whole reader text = .ok x := by
  have hread := h [] [] rfl ends_nil
  rw [List.nil_append, List.append_nil] at hread
  rw [whole, hread]
  rfl

/-! ## Records -/

namespace RecordKind

variable {k : RecordKind δ ρ} {f : Field δ} {get : δ → Option α} {set : δ → α → δ}
  {item : List Char → Reading α} {d d' : δ} {name : String} {text : List Char}

theorem required_eq_ok {x : α} {cs : List Char} (h : item cs = .ok (x, rest)) :
    (required name get set item).read cs d = .ok (set d x, rest) := by
  simp only [required, h]
  rfl

theorem defaulted_eq_ok {x : α} {cs : List Char} (h : item cs = .ok (x, rest)) :
    (defaulted name get set item).read cs d = .ok (set d x, rest) := by
  simp only [defaulted, required, h]
  rfl

/-- A field is read into a record under construction where it is not there yet. -/
theorem takesMember_field {x : α}
    (hfield : k.fields.find? (fun f => decide (f.name = name)) = some f)
    (habsent : f.present d = false) (h : Takes item text x)
    (hread : ∀ cs rest, item cs = .ok (x, rest) → f.read cs d = .ok (d', rest)) :
    TakesMember k.readMember d (name, text) d' := by
  refine takesMember_of_takes h fun cs rest hitem => ?_
  have hcolon : colon (':' :: cs) = .ok cs := rfl
  rw [readMember, hfield]
  simp only [habsent, Bool.false_eq_true, if_false, hcolon, hread cs rest hitem]

/-- Where the value of a field is refused, so is the field. -/
theorem exists_error_of_field
    (hfield : k.fields.find? (fun f => decide (f.name = name)) = some (required name get set item))
    (habsent : get d = none)
    (h : ∀ rest, Ends rest → ∃ fault, item (' ' :: (text ++ rest)) = .error fault)
    (rest : List Char) (hrest : Ends rest) :
    ∃ fault, k.readMember d name (':' :: ' ' :: (text ++ rest)) = .error fault := by
  obtain ⟨fault, hitem⟩ := h rest hrest
  have hpresent : (required name get set item).present d = false := by
    show (get d).isSome = false
    rw [habsent]
    rfl
  have hcolon : colon (':' :: ' ' :: (text ++ rest)) = .ok (' ' :: (text ++ rest)) := rfl
  have hread : (required name get set item).read (' ' :: (text ++ rest)) d = .error fault := by
    simp only [required, hitem]
    rfl
  refine ⟨fault, ?_⟩
  rw [readMember, hfield]
  simp only [hpresent, Bool.false_eq_true, if_false, hcolon, hread]

theorem read_object {before : List Char} (hbefore : Blank before) (cs : List Char) :
    k.read (before ++ '\x7b' :: cs)
      = match readMembers k.readMember ('\x7b' :: cs) true k.start cs with
        | .error fault => .error fault
        | .ok (d, rest) =>
          match k.complete d, closeObject rest with
          | .error cause, .ok rest => .error (.here cause rest)
          | .error cause, .error _ => .error (.here cause (skipSpace rest))
          | .ok _, .error fault => .error fault
          | .ok r, .ok rest => .ok (r, rest) := by
  rw [read, skipSpace_blank hbefore, skipSpace_cons (c := '\x7b') rfl]
  rfl

/-- **A record is read as it was written, if its fields are.** -/
theorem takes_record {members : List (String × List Char)} {r : ρ}
    (h : Gathers k.readMember k.start members d) (hcomplete : k.complete d = .ok r) (place : Nat) :
    Takes k.read ('\x7b' :: (between place (members.map memberLine) ++ ['\x7d'])) r := by
  intro before rest hbefore _
  obtain ⟨after, hmembers, hclose⟩ := readMembers_written h place rest
  rw [List.cons_append, List.append_assoc, List.singleton_append, read_object hbefore, hmembers]
  simp only [hcomplete, hclose]

/-- Where a field is refused, so is the record. -/
theorem exists_error_of_record {members : List (String × List Char)} {m : String × List Char}
    (h : Gathers k.readMember k.start members d)
    (hfails : ∀ rest, Ends rest →
      ∃ fault, k.readMember d m.1 (':' :: ' ' :: (m.2 ++ rest)) = .error fault)
    (others : List (String × List Char)) (place : Nat) (before : List Char) (hbefore : Blank before)
    (rest : List Char) :
    ∃ fault, k.read (before ++ ('\x7b' :: (between place ((members ++ m :: others).map memberLine)
      ++ ['\x7d']) ++ rest)) = .error fault := by
  obtain ⟨fault, hmembers⟩ := exists_error_of_member h hfails others place rest
  refine ⟨fault, ?_⟩
  rw [List.cons_append, List.append_assoc, List.singleton_append, read_object hbefore, hmembers]

end RecordKind

end BranchingDialogue.Json
