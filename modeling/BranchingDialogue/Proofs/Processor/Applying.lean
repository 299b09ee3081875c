import BranchingDialogue.Processor.Basic
import Mathlib.Data.List.Basic

/-!
# What a processor makes of its inputs

`Node.Applies` is the table of what a processor gives once all its inputs have values: one line for
each kind and each thing that may be amiss, and for things amiss together the one that counts. A
processor that has as many inputs as its kind declares computes exactly that: `applies_process` and
`Applies.eq_process`.
Both operands of a connective are read, also where the first one settles it.
-/

namespace BranchingDialogue

namespace Node

/-- What a processor gives for the values of its inputs, at an output. -/
inductive Applies (n : Node) (vars : Variables) :
    List Value → Int → Except ProcessorError Value → Prop
  /-- Output 0 is the only one. -/
  | noSuchOutput {inputs : List Value} {port : Int} (hport : port ≠ 0) :
    n.Applies vars inputs port (.error (.noSuchOutput n.id port))
  /-- A constant gives what its payload holds. -/
  | constant {v : Value} (hkind : n.kind = .value) (hv : n.payload.get? "value" = some v) :
    n.Applies vars [] 0 (.ok v)
  | noConstant (hkind : n.kind = .value) (hv : n.payload.get? "value" = none) :
    n.Applies vars [] 0 (.error (.missingPayload n.id "value"))
  /-- A variable has its value of the moment. -/
  | known {name : String} {v : Value} (hkind : n.kind = .property)
    (hname : n.payload.text? "property" = some name) (hv : vars.get? name = some v) :
    n.Applies vars [] 0 (.ok v)
  | unknown {name : String} (hkind : n.kind = .property)
    (hname : n.payload.text? "property" = some name) (hv : vars.get? name = none) :
    n.Applies vars [] 0 (.error (.unknownProperty n.id name))
  | noName (hkind : n.kind = .property) (hname : n.payload.text? "property" = none) :
    n.Applies vars [] 0 (.error (.missingPayload n.id "property"))
  /-- Two numbers are compared as doubles. -/
  | compared {a b v : Value} {c : Comparison} {x y : Float} (hkind : n.kind = .compare)
    (hv : n.payload.get? "comparison" = some v) (hc : Comparison.ofValue v = .ok c)
    (ha : a.asDouble? = some x) (hb : b.asDouble? = some y) :
    n.Applies vars [a, b] 0 (.ok (.bool (c.holds x y)))
  | noComparison {a b : Value} (hkind : n.kind = .compare)
    (hv : n.payload.get? "comparison" = none) :
    n.Applies vars [a, b] 0 (.error (.missingPayload n.id "comparison"))
  | unsupported {a b v : Value} {shown : String} (hkind : n.kind = .compare)
    (hv : n.payload.get? "comparison" = some v) (hc : Comparison.ofValue v = .error shown) :
    n.Applies vars [a, b] 0 (.error (.unsupportedComparison shown))
  | leftNotNumeric {a b v : Value} {c : Comparison} (hkind : n.kind = .compare)
    (hv : n.payload.get? "comparison" = some v) (hc : Comparison.ofValue v = .ok c)
    (ha : a.asDouble? = none) :
    n.Applies vars [a, b] 0 (.error (.notNumeric n.id a.kindName))
  | rightNotNumeric {a b v : Value} {c : Comparison} {x : Float} (hkind : n.kind = .compare)
    (hv : n.payload.get? "comparison" = some v) (hc : Comparison.ofValue v = .ok c)
    (ha : a.asDouble? = some x) (hb : b.asDouble? = none) :
    n.Applies vars [a, b] 0 (.error (.notNumeric n.id b.kindName))
  /-- A truth value is negated. -/
  | negated {a : Bool} (hkind : n.kind = .not) : n.Applies vars [.bool a] 0 (.ok (.bool (!a)))
  | notBoolean {a : Value} (hkind : n.kind = .not) (ha : a.asBool? = none) :
    n.Applies vars [a] 0 (.error (.notBoolean n.id a.kindName))
  /-- Two truth values are joined by the connective of the kind. -/
  | both {a b : Bool} (hkind : n.kind = .and) :
    n.Applies vars [.bool a, .bool b] 0 (.ok (.bool (a && b)))
  | either {a b : Bool} (hkind : n.kind = .or) :
    n.Applies vars [.bool a, .bool b] 0 (.ok (.bool (a || b)))
  | leftNotBoolean {a b : Value} (hkind : n.kind = .and ∨ n.kind = .or) (ha : a.asBool? = none) :
    n.Applies vars [a, b] 0 (.error (.notBoolean n.id a.kindName))
  | rightNotBoolean {a : Bool} {b : Value} (hkind : n.kind = .and ∨ n.kind = .or)
    (hb : b.asBool? = none) :
    n.Applies vars [.bool a, b] 0 (.error (.notBoolean n.id b.kindName))

variable {n : Node} {vars : Variables} {port : Int} {r : Except ProcessorError Value}

/-! ## The inputs one by one -/

theorem eq_bool_of_asBool? {v : Value} {b : Bool} (h : v.asBool? = some b) : v = .bool b := by
  cases v with
  | bool c =>
    cases h
    rfl
  | _ => cases h

@[simp] theorem asBool?_bool (b : Bool) : (Value.bool b).asBool? = some b := rfl

theorem boolInput_ok {inputs : List Value} {i : Nat} {v : Value} {b : Bool}
    (h : inputs[i]? = some v) (hv : v.asBool? = some b) : n.boolInput inputs i = .ok b := by
  simp only [boolInput, input, h, hv]

theorem boolInput_error {inputs : List Value} {i : Nat} {v : Value} (h : inputs[i]? = some v)
    (hv : v.asBool? = none) : n.boolInput inputs i = .error (.notBoolean n.id v.kindName) := by
  simp only [boolInput, input, h, hv]

theorem numberInput_ok {inputs : List Value} {i : Nat} {v : Value} {x : Float}
    (h : inputs[i]? = some v) (hv : v.asDouble? = some x) : n.numberInput inputs i = .ok x := by
  simp only [numberInput, input, h, hv]

theorem numberInput_error {inputs : List Value} {i : Nat} {v : Value} (h : inputs[i]? = some v)
    (hv : v.asDouble? = none) :
    n.numberInput inputs i = .error (.notNumeric n.id v.kindName) := by
  simp only [numberInput, input, h, hv]

/-! ## Kind by kind -/

theorem applies_constant (hkind : n.kind = .value) :
    n.Applies vars [] 0 (n.payloadValue "value") := by
  rw [payloadValue]
  cases hv : n.payload.get? "value" with
  | none => exact .noConstant hkind hv
  | some v => exact .constant hkind hv

theorem applies_readProperty (hkind : n.kind = .property) :
    n.Applies vars [] 0 (n.readProperty vars) := by
  have htext : n.payload.text? "property" = (n.payload.get? "property").bind Value.asText? := rfl
  cases hv : n.payload.get? "property" with
  | none =>
    simp only [readProperty, payloadValue, hv]
    exact .noName hkind (by rw [htext, hv, Option.bind_none])
  | some v =>
    rw [hv, Option.bind_some] at htext
    simp only [readProperty, payloadValue, hv]
    cases hname : v.asText? with
    | none => exact .noName hkind (htext.trans hname)
    | some name =>
      dsimp only
      cases hvar : vars.get? name with
      | none => exact .unknown hkind (htext.trans hname) hvar
      | some w => exact .known hkind (htext.trans hname) hvar

theorem applies_compareInputs (hkind : n.kind = .compare) (a b : Value) :
    n.Applies vars [a, b] 0 (n.compareInputs [a, b]) := by
  have hleft : [a, b][0]? = some a := rfl
  have hright : [a, b][1]? = some b := rfl
  cases hv : n.payload.get? "comparison" with
  | none =>
    simp only [compareInputs, payloadValue, hv]
    exact .noComparison hkind hv
  | some v =>
    simp only [compareInputs, payloadValue, hv]
    cases hc : Comparison.ofValue v with
    | error shown => exact .unsupported hkind hv hc
    | ok c =>
      cases ha : a.asDouble? with
      | none =>
        simp only [numberInput_error hleft ha]
        exact .leftNotNumeric hkind hv hc ha
      | some x =>
        simp only [numberInput_ok hleft ha]
        cases hb : b.asDouble? with
        | none =>
          simp only [numberInput_error hright hb]
          exact .rightNotNumeric hkind hv hc ha hb
        | some y =>
          simp only [numberInput_ok hright hb]
          exact .compared hkind hv hc ha hb

theorem applies_not (hkind : n.kind = .not) (a : Value) :
    n.Applies vars [a] 0 ((n.boolInput [a] 0).map fun x => .bool (!x)) := by
  have hat : [a][0]? = some a := rfl
  cases ha : a.asBool? with
  | none =>
    rw [boolInput_error hat ha]
    exact .notBoolean hkind ha
  | some x =>
    rw [boolInput_ok hat ha, eq_bool_of_asBool? ha]
    exact .negated hkind

/-- A connective gives a truth value for two truth values, and rejects the first input that is
none. -/
theorem applies_connective (hkind : n.kind = .and ∨ n.kind = .or) {f : Bool → Bool → Bool}
    (hboth : ∀ x y, n.Applies vars [.bool x, .bool y] 0 (.ok (.bool (f x y)))) (a b : Value) :
    n.Applies vars [a, b] 0 ((n.bothInputs [a, b]).map fun (x, y) => .bool (f x y)) := by
  have hleft : [a, b][0]? = some a := rfl
  have hright : [a, b][1]? = some b := rfl
  cases ha : a.asBool? with
  | none =>
    simp only [bothInputs, boolInput_error hleft ha]
    exact .leftNotBoolean hkind ha
  | some x =>
    simp only [bothInputs, boolInput_ok hleft ha]
    cases hb : b.asBool? with
    | none =>
      simp only [boolInput_error hright hb]
      rw [eq_bool_of_asBool? ha]
      exact .rightNotBoolean hkind hb
    | some y =>
      simp only [boolInput_ok hright hb]
      rw [eq_bool_of_asBool? ha, eq_bool_of_asBool? hb]
      exact hboth x y

/-! ## All kinds -/

/-- A processor that has its inputs computes what the table says. -/
theorem applies_process (hkind : n.kind.isProcessor = true) {inputs : List Value}
    (hinputs : inputs.length = n.layout.inputs) (vars : Variables) (port : Int) :
    n.Applies vars inputs port (n.process inputs port vars) := by
  by_cases hport : port = 0
  · subst hport
    rw [process, if_neg (fun h => h.2 rfl)]
    have hlayout : n.layout = n.kind.layout n.payload := rfl
    -- The kind says how many inputs there are, and so which values the list consists of.
    cases hk : n.kind <;> rw [hk] at hkind hlayout
    case value =>
      rw [hlayout] at hinputs
      rw [List.eq_nil_of_length_eq_zero hinputs]
      exact applies_constant hk
    case property =>
      rw [hlayout] at hinputs
      rw [List.eq_nil_of_length_eq_zero hinputs]
      exact applies_readProperty hk
    case compare =>
      rw [hlayout] at hinputs
      obtain ⟨a, b, rfl⟩ := List.length_eq_two.1 hinputs
      exact applies_compareInputs hk a b
    case not =>
      rw [hlayout] at hinputs
      obtain ⟨a, rfl⟩ := List.length_eq_one_iff.1 hinputs
      exact applies_not hk a
    case and =>
      rw [hlayout] at hinputs
      obtain ⟨a, b, rfl⟩ := List.length_eq_two.1 hinputs
      exact applies_connective (.inl hk) (fun x y => .both hk) a b
    case or =>
      rw [hlayout] at hinputs
      obtain ⟨a, b, rfl⟩ := List.length_eq_two.1 hinputs
      exact applies_connective (.inr hk) (fun x y => .either hk) a b
    all_goals cases hkind
  · rw [process, if_pos ⟨hkind, hport⟩]
    exact .noSuchOutput hport

/-- The table has one line for each case. -/
theorem Applies.eq_process (hkind : n.kind.isProcessor = true) {inputs : List Value}
    (h : n.Applies vars inputs port r) : n.process inputs port vars = r := by
  cases h with
  | noSuchOutput hport => rw [process, if_pos ⟨hkind, hport⟩]
  | constant hk hv => simp [process, payloadValue, hk, hv]
  | noConstant hk hv => simp [process, payloadValue, hk, hv]
  | known hk hname hv =>
    obtain ⟨w, hw, hname⟩ := Option.bind_eq_some_iff.1 hname
    simp [process, readProperty, payloadValue, hk, hw, hname, hv]
  | unknown hk hname hv =>
    obtain ⟨w, hw, hname⟩ := Option.bind_eq_some_iff.1 hname
    simp [process, readProperty, payloadValue, hk, hw, hname, hv]
  | noName hk hname =>
    rw [Payload.text?] at hname
    cases hw : n.payload.get? "property" with
    | none => simp [process, readProperty, payloadValue, hk, hw]
    | some w =>
      rw [hw, Option.bind_some] at hname
      simp [process, readProperty, payloadValue, hk, hw, hname]
  | compared hk hv hc ha hb =>
    simp [process, compareInputs, payloadValue, numberInput, input, hk, hv, hc, ha, hb]
  | noComparison hk hv => simp [process, compareInputs, payloadValue, hk, hv]
  | unsupported hk hv hc => simp [process, compareInputs, payloadValue, hk, hv, hc]
  | leftNotNumeric hk hv hc ha =>
    simp [process, compareInputs, payloadValue, numberInput, input, hk, hv, hc, ha]
  | rightNotNumeric hk hv hc ha hb =>
    simp [process, compareInputs, payloadValue, numberInput, input, hk, hv, hc, ha, hb]
  | negated hk => simp [process, boolInput, input, hk, Except.map]
  | notBoolean hk ha => simp [process, boolInput, input, hk, ha, Except.map]
  | both hk => simp [process, bothInputs, boolInput, input, hk, Except.map]
  | either hk => simp [process, bothInputs, boolInput, input, hk, Except.map]
  | leftNotBoolean hk ha =>
    rcases hk with hk | hk <;> simp [process, bothInputs, boolInput, input, hk, ha, Except.map]
  | rightNotBoolean hk hb =>
    rcases hk with hk | hk <;>
      simp [process, bothInputs, boolInput, input, hk, hb, Except.map]

/-- Applying a processor has nothing to do with the depth. -/
theorem Applies.ne_depthExceeded {inputs : List Value} (h : n.Applies vars inputs port r)
    (id : NodeId) (limit : Nat) : r ≠ .error (.depthExceeded id limit) := by
  cases h <;> nofun

end Node

end BranchingDialogue
