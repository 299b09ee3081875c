import BranchingDialogue.Dictionary
import BranchingDialogue.Value

/-!
# Payloads

The values a node carries, by name, and the values of variables, which have the same form.
-/

namespace BranchingDialogue

/-- Values by name. -/
abbrev Payload := Dictionary String Value

/-- The variables that processors read and walks write. -/
abbrev Variables := Dictionary String Value

namespace Payload

/-- The payload of the members of an object. The first member that is no value is reported with its
name. -/
def ofMembers : List (String × Json) → Except (String × ShapeError) Payload
  | [] => .ok {}
  | (name, json) :: rest =>
    match Value.ofJson json with
    | .error e => .error (name, e)
    | .ok value =>
      match ofMembers rest with
      | .error e => .error e
      | .ok payload => .ok (if payload.contains name then payload else payload.insert name value)

/-- A payload as the members of an object. -/
def toMembers (p : Payload) : List (String × Json) :=
  p.entries.map fun (name, value) => (name, value.toJson)

/-- The text under a name. -/
def text? (p : Payload) (name : String) : Option String := (p.get? name).bind Value.asText?

/-- The number under a name. -/
def double? (p : Payload) (name : String) : Option Float := (p.get? name).bind Value.asDouble?

/-- The elements under a name. -/
def sequence? (p : Payload) (name : String) : Option (List Value) :=
  (p.get? name).bind Value.asSequence?

/-- How many elements there are under a name. -/
def sequenceLength (p : Payload) (name : String) : Nat :=
  match p.sequence? name with
  | none => 0
  | some items => items.length

/-- The texts under a name; none if an element is no text. -/
def texts? (p : Payload) (name : String) : Option (List String) :=
  (p.sequence? name).bind fun items => items.mapM Value.asText?

/-- A payload in a report. -/
def report (p : Payload) : Report :=
  .record (p.entries.map fun (name, value) => (name, value.report))

end Payload

end BranchingDialogue
