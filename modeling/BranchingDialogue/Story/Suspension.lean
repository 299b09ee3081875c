import BranchingDialogue.Json.Record
import BranchingDialogue.Story.Moment

/-!
# Suspensions

A walk that waits for a choice. A suspension holds all that is needed to go on, so it can be saved,
and resumed more than once. `Suspension.read` reads what its report writes.
-/

namespace BranchingDialogue

/-- A walk that waits at a node until an option is picked. -/
structure Suspension (α : Type) where
  /-- The position of the node in the graph. -/
  node : Nat
  nodeId : NodeId
  kind : NodeKind
  options : List String
  moment : Moment α
  «variables» : Variables
  deriving DecidableEq

namespace Suspension

/-- A suspension in a report. -/
def report (s : Suspension Float32) : Report :=
  .record
    [("node", .nat s.node), ("node_id", .text s.nodeId.simple), ("kind", .text s.kind.name),
      ("options", .texts s.options), ("previous", s.moment.report),
      ("variables", Payload.report s.variables)]

/-! ## Reading -/

open Json RecordKind

/-- What is wrong with a saved value that is JSON. -/
def refuse {β : Type} (expected : String) (rest : List Char) : Reading β :=
  .error (.here (.invalidValue .map expected) rest)

/-- Reads a JSON value of limited depth and takes it as `item` says. -/
def saved {β : Type} (depth : Nat) (expected : String) (item : Json → Option β) (cs : List Char) :
    Reading β :=
  match readValue depth cs with
  | .error fault => .error fault
  | .ok (json, rest) =>
    match item json with
    | some x => .ok (x, rest)
    | none => refuse expected rest

/-- Takes null or what `item` takes. -/
def nullOr {β : Type} (item : Json → Option β) : Json → Option (Option β)
  | .null => some none
  | json => (item json).map some

/-- Takes an identifier. -/
def idOf? : Json → Option NodeId
  | .text s => NodeId.parse? s
  | _ => none

/-- Takes a name: a text or an object that says nothing else. -/
def nameOf? : Json → Option String
  | .text s => some s
  | .object [(s, .null)] => some s
  | _ => none

/-- Takes a position in a graph. -/
def indexOf? : Json → Option Nat
  | .integer n => if 0 ≤ n.1 ∧ n.1 < 0x100000000 then some n.1.toNat else none
  | _ => none

/-- Takes texts. -/
def textsOf? : Json → Option (List String)
  | .array items => items.mapM Value.text?
  | _ => none

/-- Takes a number. -/
def scalarOf? {α : Type} [Scalar α] : Json → Option α
  | .integer n =>
    some (if 0 ≤ n.1 then Scalar.ofNat n.1.toNat else -Scalar.ofNat (-n.1).toNat)
  | .float x => some (Scalar.ofDouble x.1)
  | _ => none

/-- Reads variables whose values are of limited depth. Of several values under one name the last one
counts, but all have to be values. -/
def variablesValue (depth : Nat) (cs : List Char) : Reading Variables :=
  let member (vars : Variables) (name : String) (cs : List Char) : Reading Variables :=
    match colon cs with
    | .error fault => .error fault
    | .ok rest =>
      (saved depth "a value" Value.ofJsonByTrial? rest).map fun (v, rest) =>
        (vars.insert name v, rest)
  match skipSpace cs with
  | '\x7b' :: rest =>
    match readMembers member ('\x7b' :: rest) true {} rest with
    | .error fault => .error fault
    | .ok (vars, rest) => (closeObject rest).map fun rest => (vars, rest)
  | cs => .error (unexpected "a map" cs)

variable {α : Type} [Scalar α]

/-- The fields of a moment, as far as read. -/
structure MomentDraft (α : Type) where
  node : Option (Option NodeId) := none
  kind : Option (Option ClipKind) := none
  startTime : Option α := none
  duration : Option α := none

/-- Moments in JSON. -/
def momentKind : RecordKind (MomentDraft α) (Moment α) where
  name := "PreviousContext"
  fields :=
    [defaulted "node" (·.node) (fun d x => { d with node := some x })
        (saved (depthLimit - 2) "an id" (nullOr idOf?)),
      defaulted "kind" (·.kind) (fun d x => { d with kind := some x })
        (saved (depthLimit - 2) "a kind" (nullOr fun j => (nameOf? j).bind ClipKind.ofName?)),
      required "start_time" (·.startTime) (fun d x => { d with startTime := some x })
        (saved (depthLimit - 2) "a number" scalarOf?),
      required "duration" (·.duration) (fun d x => { d with duration := some x })
        (saved (depthLimit - 2) "a number" scalarOf?)]
  start := {}
  finish d := do some ⟨d.node.getD none, d.kind.getD none, ← d.startTime, ← d.duration⟩

/-- The fields of a suspension, as far as read. -/
structure Draft (α : Type) where
  node : Option Nat := none
  nodeId : Option NodeId := none
  kind : Option NodeKind := none
  options : Option (List String) := none
  moment : Option (Moment α) := none
  «variables» : Option Variables := none

/-- Suspensions in JSON. -/
def recordKind : RecordKind (Draft α) (Suspension α) where
  name := "Suspension"
  fields :=
    [required "node" (·.node) (fun d x => { d with node := some x })
        (saved (depthLimit - 1) "a position" indexOf?),
      required "node_id" (·.nodeId) (fun d x => { d with nodeId := some x })
        (saved (depthLimit - 1) "an id" idOf?),
      required "kind" (·.kind) (fun d x => { d with kind := some x })
        (saved (depthLimit - 1) "a kind" fun j => (nameOf? j).bind NodeKind.ofName?),
      required "options" (·.options) (fun d x => { d with options := some x })
        (saved (depthLimit - 1) "texts" textsOf?),
      required "previous" (·.moment) (fun d x => { d with moment := some x }) momentKind.read,
      required "variables" (·.variables) (fun d x => { d with «variables» := some x })
        (variablesValue (depthLimit - 2))]
  start := {}
  finish d := do
    some ⟨← d.node, ← d.nodeId, ← d.kind, ← d.options, ← d.moment, ← d.variables⟩

/-- Reads a saved suspension. -/
def read (text : String) : Except Fault (Suspension α) := whole recordKind.read text

end Suspension

end BranchingDialogue
