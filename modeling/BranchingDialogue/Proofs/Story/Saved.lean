import BranchingDialogue.Proofs.Document.Written
import BranchingDialogue.Proofs.Story.Variables
import BranchingDialogue.Proofs.Story.Waiting
import BranchingDialogue.Scalar.Binary32

/-!
# Saved suspensions

A suspension is saved as its report and read again. A time that is not finite is written as null,
and no null is read as a time. Everything else in a suspension of a run is read back: its position,
since it is one of the graph, its options, since they are texts, and its variables, since they are
ordinary (`Walker.all_of_run`). So a suspension can be saved exactly if the times in it are finite
(`Walker.read_report_of_run`), and times add up beyond every finite one although each of them is
finite (`overlong`).
-/

namespace BranchingDialogue

open Json

namespace Suspension

/-! ## Parts -/

section Parts

variable {β : Type} {depth : Nat} {expected : String} {item : Json → Option β} {text : List Char}
  {j : Json} {x : β}

theorem takes_saved (h : Takes (readValue depth) text j) (hj : item j = some x) :
    Takes (saved depth expected item) text x := by
  intro before rest hbefore hrest
  rw [saved, h before rest hbefore hrest]
  simp only [hj]

theorem exists_error_of_saved (h : Takes (readValue depth) text j) (hj : item j = none)
    (before : List Char) (hbefore : Blank before) {rest : List Char} (hrest : Ends rest) :
    ∃ fault, saved depth expected item (before ++ (text ++ rest)) = .error fault := by
  refine ⟨.here (.invalidValue .map expected) rest, ?_⟩
  rw [saved, h before rest hbefore hrest]
  simp only [hj]
  rfl

/-- A name that may be missing. -/
theorem takes_option {f : β → String} (hitem : ∀ x, item (.text (f x)) = some x) (o : Option β)
    (place : Nat) :
    Takes (saved depth expected (nullOr item))
      (Report.jsonAt place (.option (.text ∘ f) o)).toList o := by
  cases o with
  | none => exact takes_saved (takes_null depth) rfl
  | some x =>
    refine takes_saved (takes_text (f x) depth) ?_
    rw [nullOr, hitem, Option.map_some]
    -- A name is a text, so it is not taken for null.
    exact nofun

end Parts

/-- A time is read as itself from what is written for it. -/
def ReadsBack (x : Float32) : Prop :=
  ∃ j, readValue 0 (Report.single x).json.toList = .ok (j, []) ∧ scalarOf? j = some x

/-- The number that was read, if nothing is left. -/
def lastScalar? : Reading Json → Option Float32
  | .ok (j, []) => scalarOf? j
  | _ => none

theorem lastScalar?_eq_some_iff {r : Reading Json} {x : Float32} :
    lastScalar? r = some x ↔ ∃ j, r = .ok (j, []) ∧ scalarOf? j = some x := by
  constructor
  · intro h
    unfold lastScalar? at h
    split at h
    · exact ⟨_, rfl, h⟩
    · cases h
  · rintro ⟨j, rfl, hj⟩
    exact hj

instance (x : Float32) : Decidable (ReadsBack x) :=
  decidable_of_iff (lastScalar? (readValue 0 (Report.single x).json.toList) = some x)
    lastScalar?_eq_some_iff

theorem takes_time {x : Float32} (h : ReadsBack x) (depth place : Nat) (expected : String) :
    Takes (saved depth expected scalarOf?) (Report.jsonAt place (.single x)).toList x := by
  obtain ⟨j, hread, hj⟩ := h
  obtain ⟨n, rfl⟩ : ∃ n : Number, j = n.toJson := by
    cases j with
    | integer n => exact ⟨.integer n, rfl⟩
    | float y => exact ⟨.float y, rfl⟩
    | _ => cases hj
  exact takes_saved (takes_of_number (opensNumber_of_readValue hread) hread depth) hj

/-- A time that is no ordinary number is written as null. -/
theorem jsonAt_single_of_not_finite {x : Float32} (h : x.isFinite = false) (place : Nat) :
    Report.jsonAt place (.single x) = "null" := by
  have hunpack : x.toModel.unpack.isFinite = false := h
  rw [Report.jsonAt, singleDatum?, WrittenFloat.ofSingle]
  cases hx : x.toModel.unpack with
  | notANumber => rfl
  | infinity s => rfl
  | zero s =>
    rw [hx] at hunpack
    cases hunpack
  | finite s m e hm =>
    rw [hx] at hunpack
    cases hunpack

/-! ## Moments -/

theorem idOf?_simple (id : NodeId) : idOf? (.text id.simple) = some id := by
  unfold idOf?
  exact NodeId.parse?_simple id

theorem clipKindOf?_name (k : ClipKind) :
    (nameOf? (.text k.name)).bind ClipKind.ofName? = some k := by
  cases k <;> rfl

/-- The fields of a moment that come before its times are read back. -/
theorem gathers_names (m : Moment Float32) (place : Nat) :
    Gathers (momentKind (α := Float32)).readMember {}
      (fieldMembers place
        [("node", .option (.text ∘ Uuid.simple) m.node),
          ("kind", .option (.text ∘ ClipKind.name) m.kind)])
      ⟨some m.node, some m.kind, none, none⟩ :=
  .cons (RecordKind.takesMember_field rfl rfl (takes_option idOf?_simple m.node place)
      fun _ _ h => RecordKind.defaulted_eq_ok h) <|
    .cons (RecordKind.takesMember_field rfl rfl (takes_option clipKindOf?_name m.kind place)
      fun _ _ h => RecordKind.defaulted_eq_ok h) (.nil _)

theorem gathers_start {m : Moment Float32} (hstart : ReadsBack m.startTime) (place : Nat) :
    Gathers (momentKind (α := Float32)).readMember {}
      (fieldMembers place
        [("node", .option (.text ∘ Uuid.simple) m.node),
          ("kind", .option (.text ∘ ClipKind.name) m.kind), ("start_time", .single m.startTime)])
      ⟨some m.node, some m.kind, some m.startTime, none⟩ :=
  (gathers_names m place).append <|
    .cons (RecordKind.takesMember_field rfl rfl (takes_time hstart _ place _)
      fun _ _ h => RecordKind.required_eq_ok h) (.nil _)

theorem gathers_moment {m : Moment Float32} (hstart : ReadsBack m.startTime)
    (hduration : ReadsBack m.duration) (place : Nat) :
    Gathers (momentKind (α := Float32)).readMember {}
      (fieldMembers place
        [("node", .option (.text ∘ Uuid.simple) m.node),
          ("kind", .option (.text ∘ ClipKind.name) m.kind), ("start_time", .single m.startTime),
          ("duration", .single m.duration)])
      ⟨some m.node, some m.kind, some m.startTime, some m.duration⟩ :=
  (gathers_start hstart place).append <|
    .cons (RecordKind.takesMember_field rfl rfl (takes_time hduration _ place _)
      fun _ _ h => RecordKind.required_eq_ok h) (.nil _)

/-- A moment is read back if its times are. -/
theorem takes_moment {m : Moment Float32} (hstart : ReadsBack m.startTime)
    (hduration : ReadsBack m.duration) (place : Nat) :
    Takes (momentKind (α := Float32)).read (Report.jsonAt place m.report).toList m := by
  rw [Moment.report, toList_record]
  exact RecordKind.takes_record (gathers_moment hstart hduration (place + 1)) rfl place

theorem exists_error_of_time {x : Float32} (h : x.isFinite = false) (depth place : Nat)
    (expected : String) (rest : List Char) (hrest : Ends rest) :
    ∃ fault, saved (β := Float32) depth expected scalarOf?
      (' ' :: ((Report.jsonAt place (.single x)).toList ++ rest)) = .error fault := by
  rw [jsonAt_single_of_not_finite h]
  exact exists_error_of_saved (takes_null depth) rfl [' '] rfl hrest

/-- A moment with a time that is not finite is refused. -/
theorem exists_error_of_moment {m : Moment Float32}
    (hstart : m.startTime.isFinite = true → ReadsBack m.startTime)
    (h : ¬(m.startTime.isFinite = true ∧ m.duration.isFinite = true)) (place : Nat)
    (rest : List Char) :
    ∃ fault, (momentKind (α := Float32)).read
      (' ' :: ((Report.jsonAt place m.report).toList ++ rest)) = .error fault := by
  rw [Moment.report, toList_record]
  -- The start comes before the duration, which is looked at only after a start that is read back.
  by_cases hfinite : m.startTime.isFinite = true
  · have hduration : m.duration.isFinite = false := by simpa [hfinite] using h
    exact RecordKind.exists_error_of_record (gathers_start (hstart hfinite) (place + 1))
      (RecordKind.exists_error_of_field rfl rfl (exists_error_of_time hduration _ _ _)) _ place
      [' '] rfl rest
  · have hstart : m.startTime.isFinite = false := by simpa using hfinite
    exact RecordKind.exists_error_of_record (gathers_names m (place + 1))
      (RecordKind.exists_error_of_field rfl rfl (exists_error_of_time hstart _ _ _)) _ place
      [' '] rfl rest

/-! ## Variables -/

/-- The floats in a value are read as themselves. -/
def FloatsReadBack (v : Value) : Prop := ∀ x ∈ v.toJson.floats, Json.Exact x

instance (v : Value) : Decidable (FloatsReadBack v) :=
  inferInstanceAs (Decidable (∀ x ∈ v.toJson.floats, Json.Exact x))

/-- A variable, as it is read. -/
def variableMember (depth : Nat) (vars : Variables) (name : String) (cs : List Char) :
    Reading Variables :=
  match colon cs with
  | .error fault => .error fault
  | .ok rest =>
    (saved depth "a value" Value.ofJsonByTrial? rest).map fun (v, rest) =>
      (vars.insert name v, rest)

theorem variablesValue_object {depth : Nat} {before : List Char} (hbefore : Blank before)
    (cs : List Char) :
    variablesValue depth (before ++ '\x7b' :: cs)
      = match readMembers (variableMember depth) ('\x7b' :: cs) true {} cs with
        | .error fault => .error fault
        | .ok (vars, rest) => (closeObject rest).map fun rest => (vars, rest) := by
  rw [variablesValue, skipSpace_blank hbefore, skipSpace_cons (c := '\x7b') rfl]
  rfl

theorem takes_value {depth : Nat} {v : Value} (hv : v.Ordinary depth) (hfloats : FloatsReadBack v)
    (place : Nat) (expected : String) :
    Takes (saved depth expected Value.ofJsonByTrial?) (Report.jsonAt place v.report).toList v :=
  takes_saved (takes_ofJson (Value.formed_toJson hv) hfloats place).2
    (Value.ofJsonByTrial?_toJson hv)

theorem gathers_variables {depth : Nat} {entries : List (String × Value)} (place : Nat)
    (before : List (String × Value))
    (h : ∀ e ∈ entries, e.2.Ordinary depth ∧ FloatsReadBack e.2) :
    Gathers (variableMember depth) (.ofList before)
      (fieldMembers place (entries.map fun e => (e.1, e.2.report)))
      (.ofList (before ++ entries)) := by
  -- What has been gathered so far is the dictionary of the entries before.
  induction entries generalizing before with
  | nil =>
    rw [List.append_nil]
    exact .nil _
  | cons e entries ih =>
    obtain ⟨hv, hfloats⟩ := h e List.mem_cons_self
    have hfirst : TakesMember (variableMember depth) (.ofList before)
        (e.1, (Report.jsonAt place e.2.report).toList) (.ofList (before ++ [e])) := by
      refine takesMember_of_takes (takes_value hv hfloats place "a value") fun cs rest hread => ?_
      have hcolon : colon (':' :: cs) = .ok cs := rfl
      rw [variableMember, hcolon, Dictionary.ofList_concat]
      simp only [hread]
      rfl
    have hothers := ih (before ++ [e]) fun e' he' => h e' (List.mem_cons_of_mem e he')
    rw [List.append_assoc, List.singleton_append] at hothers
    exact .cons hfirst hothers

/-- Ordinary variables are read back if their floats are. -/
theorem takes_variables {depth : Nat} {vars : Variables} (hvars : vars.All (Value.Ordinary depth))
    (hfloats : vars.All FloatsReadBack) (place : Nat) :
    Takes (variablesValue depth) (Report.jsonAt place (Payload.report vars)).toList vars := by
  have hgathers := gathers_variables (place + 1) [] fun (e : String × Value) he =>
    ⟨hvars e.1 e.2 (Dictionary.get?_eq_some_iff.2 he),
      hfloats e.1 e.2 (Dictionary.get?_eq_some_iff.2 he)⟩
  rw [List.nil_append, Dictionary.ofList_entries] at hgathers
  intro before rest hbefore _
  obtain ⟨after, hmembers, hclose⟩ := readMembers_written hgathers place rest
  rw [Payload.report, toList_record, List.cons_append, List.append_assoc, List.singleton_append,
    variablesValue_object hbefore]
  have hstart : (Dictionary.ofList [] : Variables) = {} := rfl
  rw [hstart] at hmembers
  rw [hmembers]
  simp only [hclose]
  rfl

/-! ## Suspensions -/

theorem nodeKindOf?_name (k : NodeKind) :
    (nameOf? (.text k.name)).bind NodeKind.ofName? = some k := by
  cases k <;> rfl

theorem texts_eq (ss : List String) : Report.texts ss = .ofJson (.array (ss.map .text)) := by
  rw [Report.texts, Report.ofJson, ofItems_eq, List.map_map]
  rfl

theorem textsOf?_texts (ss : List String) : textsOf? (.array (ss.map .text)) = some ss := by
  rw [textsOf?]
  induction ss with
  | nil => rfl
  | cons s ss ih =>
    rw [List.map_cons, List.mapM_cons, ih]
    rfl

theorem takes_texts (ss : List String) (depth place : Nat) (expected : String) :
    Takes (saved (depth + 1) expected textsOf?) (Report.jsonAt place (.texts ss)).toList ss := by
  have hformed : Formed (depth + 1) (.array (ss.map .text)) := .array fun j hj => by
    obtain ⟨s, -, rfl⟩ := List.mem_map.1 hj
    exact .text s
  have hfloats : ∀ x ∈ (Json.array (ss.map .text)).floats, Json.Exact x := by
    rw [floats, itemFloats_texts]
    exact fun _ h => nomatch h
  rw [texts_eq]
  exact takes_saved (takes_ofJson hformed hfloats place).2 (textsOf?_texts ss)

variable {s : Suspension Float32}

/-- The fields of a suspension that come before its moment are read back. -/
theorem gathers_place (hnode : s.node < 0x100000000) (place : Nat) :
    Gathers (recordKind (α := Float32)).readMember {}
      (fieldMembers place
        [("node", .nat s.node), ("node_id", .text s.nodeId.simple), ("kind", .text s.kind.name),
          ("options", .texts s.options)])
      ⟨some s.node, some s.nodeId, some s.kind, some s.options, none, none⟩ := by
  have hindex : indexOf? (.integer ⟨s.node, by omega⟩) = some s.node := by
    show (if 0 ≤ (s.node : Int) ∧ (s.node : Int) < 0x100000000 then some (s.node : Int).toNat
      else none) = some s.node
    rw [if_pos (by omega), Int.toNat_natCast]
  exact .cons (RecordKind.takesMember_field rfl rfl
      (takes_saved (takes_integer ⟨s.node, by omega⟩ _) hindex)
      fun _ _ h => RecordKind.required_eq_ok h) <|
    .cons (RecordKind.takesMember_field rfl rfl
      (takes_saved (takes_text s.nodeId.simple _) (idOf?_simple s.nodeId))
      fun _ _ h => RecordKind.required_eq_ok h) <|
    .cons (RecordKind.takesMember_field rfl rfl
      (takes_saved (takes_text s.kind.name _) (nodeKindOf?_name s.kind))
      fun _ _ h => RecordKind.required_eq_ok h) <|
    .cons (RecordKind.takesMember_field rfl rfl (takes_texts s.options _ place _)
      fun _ _ h => RecordKind.required_eq_ok h) (.nil _)

theorem gathers_suspension (hnode : s.node < 0x100000000) (hstart : ReadsBack s.moment.startTime)
    (hduration : ReadsBack s.moment.duration)
    (hvars : s.variables.All (Value.Ordinary (depthLimit - 2)))
    (hfloats : s.variables.All FloatsReadBack) (place : Nat) :
    Gathers (recordKind (α := Float32)).readMember {}
      (fieldMembers place
        [("node", .nat s.node), ("node_id", .text s.nodeId.simple), ("kind", .text s.kind.name),
          ("options", .texts s.options), ("previous", s.moment.report),
          ("variables", Payload.report s.variables)])
      ⟨some s.node, some s.nodeId, some s.kind, some s.options, some s.moment, some s.variables⟩ :=
  (gathers_place hnode place).append <|
    .cons (RecordKind.takesMember_field rfl rfl (takes_moment hstart hduration place)
      fun _ _ h => RecordKind.required_eq_ok h) <|
    .cons (RecordKind.takesMember_field rfl rfl (takes_variables hvars hfloats place)
      fun _ _ h => RecordKind.required_eq_ok h) (.nil _)

/-- A suspension with finite times and ordinary variables is read back from its report, if its
numbers are. -/
theorem read_report (hnode : s.node < 0x100000000) (hstart : ReadsBack s.moment.startTime)
    (hduration : ReadsBack s.moment.duration)
    (hvars : s.variables.All (Value.Ordinary (depthLimit - 2)))
    (hfloats : s.variables.All FloatsReadBack) : read s.report.json = .ok s := by
  rw [read, Report.json, Suspension.report]
  refine whole_of_takes ?_
  rw [toList_record]
  exact RecordKind.takes_record (gathers_suspension hnode hstart hduration hvars hfloats 1) rfl 0

/-- A suspension with a time that is not finite is refused. -/
theorem exists_error_of_read_report (hnode : s.node < 0x100000000)
    (hstart : s.moment.startTime.isFinite = true → ReadsBack s.moment.startTime)
    (h : ¬(s.moment.startTime.isFinite = true ∧ s.moment.duration.isFinite = true)) :
    ∃ fault, read (α := Float32) s.report.json = .error fault := by
  have hprevious : ∀ rest, Ends rest → ∃ fault, (recordKind (α := Float32)).readMember
      ⟨some s.node, some s.nodeId, some s.kind, some s.options, none, none⟩ "previous"
      (':' :: ' ' :: ((Report.jsonAt 1 s.moment.report).toList ++ rest)) = .error fault :=
    RecordKind.exists_error_of_field rfl rfl fun rest _ => exists_error_of_moment hstart h 1 rest
  obtain ⟨fault, hread⟩ := RecordKind.exists_error_of_record
    (m := ("previous", (Report.jsonAt 1 s.moment.report).toList)) (gathers_place hnode 1) hprevious
    [("variables", (Report.jsonAt 1 (Payload.report s.variables)).toList)] 0 [] rfl []
  -- What was written is the text of these fields.
  have hreport : (recordKind (α := Float32)).read s.report.json.toList = .error fault := by
    rw [Report.json, Suspension.report, toList_record]
    rw [List.nil_append, List.append_nil] at hread
    exact hread
  exact ⟨fault, by rw [read, whole, hreport]⟩

/-- The finite numbers in a suspension are read back as themselves from what is written for them. -/
structure NumbersReadBack (s : Suspension Float32) : Prop where
  startTime : s.moment.startTime.isFinite = true → ReadsBack s.moment.startTime
  duration : s.moment.duration.isFinite = true → ReadsBack s.moment.duration
  «variables» : s.variables.All FloatsReadBack

end Suspension

/-- **A suspension of a run is read back from its report exactly if the moment in it has finite
times; otherwise the report is refused.** The walker goes over a graph that was read, with ordinary
variables: finite numbers, and no deeper nested than a report may be. -/
theorem Walker.read_report_of_run {α : Type} {r : Runtime α} {text : String} {w : Walker Float32}
    (hload : r.loadText text = .ok w.graph) (hsize : w.graph.nodes.size ≤ 0x100000000)
    (hseed : w.variables.All (Value.Ordinary (depthLimit - 2))) {entry : String}
    {options : List Nat} {walk : Walk Float32} (hrun : w.run entry options = .ok walk)
    {s : Suspension Float32} (hs : walk.outcome = .suspended s) (hnumbers : s.NumbersReadBack) :
    (s.moment.startTime.isFinite = true ∧ s.moment.duration.isFinite = true →
        Suspension.read s.report.json = .ok s)
      ∧ (¬(s.moment.startTime.isFinite = true ∧ s.moment.duration.isFinite = true) →
        ∃ fault, Suspension.read (α := Float32) s.report.json = .error fault) := by
  obtain ⟨n, hwaits⟩ := (arises_of_run hrun hs).exists_waitsAt
  have hnode : s.node < 0x100000000 := by
    have hlt := (Array.getElem?_eq_some_iff.1 hwaits.node).1
    omega
  have hbrings : w.graph.Brings (Value.Ordinary (depthLimit - 2)) :=
    { truth := .bool
      -- A payload lies a bracket deeper in a document than variables do in a suspension.
      node := fun n hn v hv => (Graph.ordinary_of_loadText hload hn hv).succ }
  have hvars := all_of_run hbrings hseed hrun hs
  constructor
  · rintro ⟨hstart, hduration⟩
    exact Suspension.read_report hnode (hnumbers.startTime hstart) (hnumbers.duration hduration)
      hvars hnumbers.variables
  · exact Suspension.exists_error_of_read_report hnode hnumbers.startTime

/-- Two lines that last longer together than any finite time, before a choice that can also be
reached without them. -/
def overlong : Document where
  version := 1
  objectId := "00000000-0000-0000-0000-000000000000"
  properties :=
    [⟨"11111111111111111111111111111111", "Float", "mood",
      .float ⟨Numeral.toDouble 5 (-1), by decide +kernel⟩⟩]
  nodes :=
    [⟨"aaaaaaaaaaaaaaaaaaaaaaaaaaaaaaaa", "InputNode", "Input"⟩,
      ⟨"bbbbbbbbbbbbbbbbbbbbbbbbbbbbbbbb", "DialogueNode", "Dialogue"⟩,
      ⟨"cccccccccccccccccccccccccccccccc", "DialogueNode", "Dialogue"⟩,
      ⟨"dddddddddddddddddddddddddddddddd", "ChoiceNode", "Choice"⟩,
      ⟨"eeeeeeeeeeeeeeeeeeeeeeeeeeeeeeee", "InputNode", "Input"⟩]
  edges :=
    [⟨⟨"aaaaaaaaaaaaaaaaaaaaaaaaaaaaaaaa", 0⟩, ⟨"bbbbbbbbbbbbbbbbbbbbbbbbbbbbbbbb", 0⟩⟩,
      ⟨⟨"bbbbbbbbbbbbbbbbbbbbbbbbbbbbbbbb", 0⟩, ⟨"cccccccccccccccccccccccccccccccc", 0⟩⟩,
      ⟨⟨"cccccccccccccccccccccccccccccccc", 0⟩, ⟨"dddddddddddddddddddddddddddddddd", 0⟩⟩,
      ⟨⟨"eeeeeeeeeeeeeeeeeeeeeeeeeeeeeeee", 0⟩, ⟨"dddddddddddddddddddddddddddddddd", 0⟩⟩]
  positions := []
  data :=
    [.object [("inputName", .text "start")],
      .object [("duration", .float ⟨Numeral.toDouble 3 38, by decide +kernel⟩)],
      .object [("duration", .float ⟨Numeral.toDouble 3 38, by decide +kernel⟩)],
      .object [("choices", .array [.text "Stay", .text "Go"])],
      .object [("inputName", .text "short")]]

/-- A runtime that takes the text of that document. -/
def roomy : Runtime Float32 :=
  .new { Settings.default with limits := ⟨overlong.text.utf8ByteSize, 8192⟩ }

/-- The suspension at its choice, some time after the start. -/
def parked (start : Float32) : Suspension Float32 where
  node := 3
  nodeId := ⟨0xdddddddddddddddddddddddddddddddd⟩
  kind := .choice
  options := ["Stay", "Go"]
  moment := ⟨some ⟨0xdddddddddddddddddddddddddddddddd⟩, some .choice, start, Binary32.ofNat 5⟩
  «variables» := ⟨[("mood", .float (Numeral.toDouble 5 (-1)))], List.pairwise_singleton _ _⟩

theorem storable_overlong : overlong.Storable where
  version := by decide
  properties := by
    intro p hp
    rw [overlong, List.mem_singleton] at hp
    subst hp
    exact ⟨.float _, by decide +kernel⟩
  edges := by decide
  positions := by decide
  data := by
    intro j hj
    simp only [overlong, List.mem_cons, List.not_mem_nil, or_false] at hj
    have hmember : ∀ {depth : Nat} {name : String} {j : Json}, j.Formed depth →
        (Json.object [(name, j)]).Formed (depth + 1) := fun h =>
      .object (List.pairwise_singleton _ _) fun m hm => by
        rw [List.mem_singleton.1 hm]
        exact h
    have hchoices : ∀ {depth : Nat}, (Json.array [.text "Stay", .text "Go"]).Formed (depth + 1) :=
      .array fun j hj => by
        simp only [List.mem_cons, List.not_mem_nil, or_false] at hj
        rcases hj with rfl | rfl <;> exact .text _
    rcases hj with rfl | rfl | rfl | rfl | rfl
    · exact ⟨hmember (.text _), by decide⟩
    · exact ⟨hmember (.float _), by decide +kernel⟩
    · exact ⟨hmember (.float _), by decide +kernel⟩
    · exact ⟨hmember hchoices, by decide⟩
    · exact ⟨hmember (.text _), by decide⟩

/-- The document can be read, and one of its two runs that wait at the choice can be saved. -/
theorem Walker.read_report_of_run_overlong :
    ∃ g, roomy.loadText overlong.text = .ok g
      ∧ (∃ walk, (Walker.new roomy g).run "short" [] = .ok walk
          ∧ walk.outcome = .suspended (parked (Float32.ofBits 0))
          ∧ Suspension.read (parked (Float32.ofBits 0)).report.json
            = .ok (parked (Float32.ofBits 0)))
      ∧ ∃ walk fault, (Walker.new roomy g).run "start" [] = .ok walk
          ∧ walk.outcome = .suspended (parked (Float32.ofBits 0x7f800000))
          ∧ Suspension.read (α := Float32) (parked (Float32.ofBits 0x7f800000)).report.json
            = .error fault := by
  have hgraph : (Graph.ofDocument .builtin overlong).toOption.map
        (fun g => (g.nodes.size, (Walker.new roomy g).variables.entries))
      = some (5, [("mood", .float (Numeral.toDouble 5 (-1)))]) := by decide +kernel
  have hruns : (Graph.ofDocument .builtin overlong).toOption.map
        (fun g => (((Walker.new roomy g).run "short" []).toOption.bind Walk.suspension?,
          ((Walker.new roomy g).run "start" []).toOption.bind Walk.suspension?))
      = some (some (parked (Float32.ofBits 0)), some (parked (Float32.ofBits 0x7f800000))) := by
    decide +kernel
  have hread : roomy.loadText overlong.text = Graph.ofDocument .builtin overlong := by
    have hdocument : roomy.readDocument overlong.text = .ok overlong :=
      Document.read_text storable_overlong (Nat.le_refl _)
    rw [Runtime.loadText, hdocument]
    rfl
  cases hg : Graph.ofDocument .builtin overlong with
  | error e =>
    rw [hg] at hgraph
    cases hgraph
  | ok g =>
    rw [hg, Except.toOption, Option.map_some, Option.some.injEq, Prod.mk.injEq] at hgraph hruns
    obtain ⟨hsize, hseed⟩ := hgraph
    obtain ⟨hshort, hstart⟩ := hruns
    obtain ⟨short, hshortRun, hshortOutcome⟩ := exists_of_suspension? hshort
    obtain ⟨long, hlongRun, hlongOutcome⟩ := exists_of_suspension? hstart
    have hload : roomy.loadText overlong.text = .ok (Walker.new roomy g).graph := hread.trans hg
    have hnodes : (Walker.new roomy g).graph.nodes.size ≤ 0x100000000 := by
      show g.nodes.size ≤ _
      omega
    have hordinary : (Walker.new roomy g).variables.All (Value.Ordinary (depthLimit - 2)) := by
      refine Variables.all_of_entries fun e he => ?_
      rw [hseed, List.mem_singleton] at he
      rw [he]
      exact .float (by decide +kernel)
    have hmood : ∀ start, (parked start).variables.All Suspension.FloatsReadBack := by
      refine fun start => Variables.all_of_entries fun e he => ?_
      rw [parked, List.mem_singleton] at he
      rw [he]
      decide +kernel
    have hduration : Suspension.ReadsBack (Binary32.ofNat 5) := by decide +kernel
    refine ⟨g, hload, ⟨short, hshortRun, hshortOutcome, ?_⟩, ?_⟩
    · exact (read_report_of_run hload hnodes hordinary hshortRun hshortOutcome
        ⟨fun _ => by decide +kernel, fun _ => hduration, hmood _⟩).1 (by decide +kernel)
    · obtain ⟨fault, hfault⟩ := (read_report_of_run hload hnodes hordinary hlongRun hlongOutcome
        ⟨by decide +kernel, fun _ => hduration, hmood _⟩).2 (by decide +kernel)
      exact ⟨long, fault, hlongRun, hlongOutcome, hfault⟩

end BranchingDialogue
