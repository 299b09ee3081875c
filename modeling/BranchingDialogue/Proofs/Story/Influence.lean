import BranchingDialogue.Proofs.Exact
import BranchingDialogue.Proofs.Processor.Depending
import BranchingDialogue.Proofs.Processor.Depth
import BranchingDialogue.Proofs.Story.Passing

/-!
# What has an influence on a node

A walk brings its variables to a node, and the node reads those that the properties below its data
input name. So a variable that none of them names may have any value: whether the node fails and why,
what it shows, how the walk goes on and what it writes is the same (`pass_sameBut`).

Main result: `answers_depend_on_reads`. The answer to a request depends on what is asked on the way and
on the variables read there, and on nothing else; hence a node that sets a variable has no influence
on one whose properties do not name it.
-/

namespace BranchingDialogue

/-- Variables have the same values but for one of them. -/
def Variables.AgreeBut (name : String) (vars vars' : Variables) : Prop :=
  ∀ other, other ≠ name → vars.get? other = vars'.get? other

theorem Variables.agreeBut_insert (name : String) (vars : Variables) (value : Value) :
    vars.AgreeBut name (vars.insert name value) :=
  fun _ hne => (Dictionary.get?_insert_ne vars value (Ne.symm hne)).symm

theorem Variables.AgreeBut.insert {name : String} {vars vars' : Variables}
    (h : vars.AgreeBut name vars') (target : String) (value : Value) :
    Variables.AgreeBut name (vars.insert target value) (vars'.insert target value) := by
  intro other hne
  rw [Dictionary.get?_insert, Dictionary.get?_insert, h other hne]

variable {α : Type}

/-- What a walk does at a node is the same, but for the value of one variable. -/
inductive SameBut (name : String) :
    Except (WalkError α) (Passage α) → Except (WalkError α) (Passage α) → Prop
  | fails (e : WalkError α) : SameBut name (.error e) (.error e)
  | passes {p p' : Passage α} (clip : p.clip = p'.clip) (onward : p.onward = p'.onward)
    (moment : p.situation.moment = p'.situation.moment)
    (agree : p.situation.variables.AgreeBut name p'.situation.variables) :
    SameBut name (.ok p) (.ok p')

namespace Node

variable {r : Runtime α} {g : Graph} {i : Nat} {n : Node} {name : String} {vars vars' : Variables}

/-- A data input has the same value if all variables read for it have. -/
theorem dataInput_of_agreeBut (h : vars.AgreeBut name vars')
    (hreads : ¬g.Reads (.input i dataSocket) name) :
    n.dataInput r g i vars = n.dataInput r g i vars' := by
  have hread : ∀ other, g.Reads (.input i dataSocket) other → vars.get? other = vars'.get? other :=
    fun other hother => h other fun heq => hreads (heq ▸ hother)
  have hpull : g.pullInput vars r.settings.processorDepth i dataSocket
      = g.pullInput vars' r.settings.processorDepth i dataSocket :=
    Graph.answer_of_variables hread r.settings.processorDepth
  rw [dataInput, dataInput, hpull]

variable [Scalar α] {moment : Moment α}

/-- **A variable that is not read has no influence on a node.** -/
theorem pass_sameBut (h : vars.AgreeBut name vars')
    (hreads : ¬g.Reads (.input i dataSocket) name) :
    SameBut name (n.pass r g i ⟨moment, vars⟩) (n.pass r g i ⟨moment, vars'⟩) := by
  have hinput : n.dataInput r g i vars = n.dataInput r g i vars' := dataInput_of_agreeBut h hreads
  cases hkind : n.kind with
  | input => simpa only [pass, hkind] using .passes rfl rfl rfl h
  | dialogue =>
    simp only [pass, hkind, passDialogue]
    cases n.strippedText r with
    | error e => exact .fails e
    | ok stripped =>
      simp only
      split
      · exact .fails _
      · exact .passes rfl rfl rfl h
  | choice =>
    simp only [pass, hkind, passChoice]
    cases (n.options "choices" : Except (WalkError α) (List String)) with
    | error e => exact .fails e
    | ok choices =>
      simp only
      cases n.strippedText r with
      | error e => exact .fails e
      | ok stripped => exact .passes rfl rfl rfl h
  | action =>
    simp only [pass, hkind, passAction]
    cases (n.options "actions" : Except (WalkError α) (List String)) with
    | error e => exact .fails e
    | ok choices => exact .passes rfl rfl rfl h
  | set =>
    simp only [pass, hkind, passSet, hinput]
    cases n.payload.text? "property" with
    | none => exact .fails _
    | some target =>
      cases n.dataInput r g i vars' with
      | error e => exact .fails e
      | ok value => exact .passes rfl rfl rfl (h.insert target value)
  | condition =>
    simp only [pass, hkind, passCondition, hinput]
    cases n.dataInput r g i vars' with
    | error e => exact .fails e
    | ok value =>
      simp only
      cases value.asBool? with
      | none => exact .fails _
      | some holds => exact .passes rfl rfl rfl h
  | marker => simpa only [pass, hkind] using .passes rfl rfl rfl h
  | blend =>
    have hduration : n.blendDuration r g i vars = n.blendDuration r g i vars' := by
      rw [blendDuration, blendDuration, hinput]
    simp only [pass, hkind, passBlend, hduration]
    cases n.blendDuration r g i vars' with
    | error e => exact .fails e
    | ok duration => exact .passes rfl rfl rfl h
  | value | compare | property | not | and | or =>
    simp only [pass, hkind]
    exact .fails _

/-- A node that sets a variable leaves all others as they are. -/
theorem agreeBut_of_pass {s : Situation α} {p : Passage α} (hkind : n.kind = .set)
    (hname : n.payload.text? "property" = some name) (h : n.pass r g i s = .ok p) :
    s.variables.AgreeBut name p.situation.variables := by
  cases pass_eq_ok_iff.1 h with
  | set _ target _ =>
    rw [hname, Option.some.injEq] at target
    rw [← target]
    exact Variables.agreeBut_insert name s.variables _
  | _ kind =>
    rw [hkind] at kind
    cases kind

end Node

/-- **A pulled value depends only on the variables that its tree reads.** In one graph, variables that
agree on what is read give the same answer, value or error, with any limit or none. Two graphs that
agree on what is asked on the way and on what is read give the same answer under every limit; without
one, an answer of the one that is not cut off is the answer of the other, so that either both
evaluations end, with the same answer, or neither does. Hence what a node sets has no influence on
another node whose tree does not name that variable. -/
theorem answers_depend_on_reads [Scalar α] (g : Graph) (q : Request) :
    (∀ vars vars' limit, (∀ name, g.Reads q name → vars.get? name = vars'.get? name) →
        g.answer vars limit q = g.answer vars' limit q)
      ∧ (∀ g' vars vars', Graph.AgreeOn q g g' vars vars' →
          (∀ L, g.answer vars (some L) q = g'.answer vars' (some L) q)
          ∧ ∀ result, ¬Cut result →
            (g.answer vars none q = result ↔ g'.answer vars' none q = result))
      ∧ ∀ (r : Runtime α) (i j : Nat) (n m : Node) (s : Situation α) (p : Passage α) (name : String),
          n.kind = .set → n.payload.text? "property" = some name → n.pass r g i s = .ok p →
          ¬g.Reads (.input j dataSocket) name →
          m.dataInput r g j s.variables = m.dataInput r g j p.situation.variables
          ∧ ∀ moment, SameBut name (m.pass r g j ⟨moment, s.variables⟩)
              (m.pass r g j ⟨moment, p.situation.variables⟩) := by
  refine ⟨fun vars vars' limit h => Graph.answer_of_variables h limit,
    fun g' vars vars' h => ⟨h.answer_some, fun result hresult => ?_⟩,
    fun r i j n m s p name hkind hname hpass hreads => ?_⟩
  · have hnone : g.Answers vars none 0 q result ↔ g'.Answers vars' none 0 q result :=
      h.answers_none_iff result
    rw [Graph.answers_none_iff, Graph.answers_none_iff] at hnone
    simpa [hresult] using hnone
  · have hagree := Node.agreeBut_of_pass hkind hname hpass
    exact ⟨Node.dataInput_of_agreeBut hagree hreads, fun moment => Node.pass_sameBut hagree hreads⟩

/-- A condition on whether two have met, after a mood has been set. -/
def indifferent : Document where
  version := 1
  objectId := "indifferent"
  properties := []
  nodes :=
    [⟨"000000000000000000000000000000a1", "InputNode", "Input"⟩,
      ⟨"000000000000000000000000000000a2", "SetNode", "Set"⟩,
      ⟨"000000000000000000000000000000a3", "ConditionNode", "Condition"⟩,
      ⟨"000000000000000000000000000000a4", "ValueNode", "Value"⟩,
      ⟨"000000000000000000000000000000a5", "NotNode", "Not"⟩,
      ⟨"000000000000000000000000000000a6", "PropertyNode", "Property"⟩]
  edges :=
    [⟨⟨"000000000000000000000000000000a1", 0⟩, ⟨"000000000000000000000000000000a2", 0⟩⟩,
      ⟨⟨"000000000000000000000000000000a2", 0⟩, ⟨"000000000000000000000000000000a3", 0⟩⟩,
      ⟨⟨"000000000000000000000000000000a4", 0⟩, ⟨"000000000000000000000000000000a2", -1⟩⟩,
      ⟨⟨"000000000000000000000000000000a6", 0⟩, ⟨"000000000000000000000000000000a5", 0⟩⟩,
      ⟨⟨"000000000000000000000000000000a5", 0⟩, ⟨"000000000000000000000000000000a3", -1⟩⟩]
  positions := []
  data :=
    [.object [("inputName", .text "start")], .object [("property", .text "mood")], .null,
      .object [("value", .text "glad")], .null, .object [("property", .text "met")]]

/-- The condition comes to its value by way of the negation, which asks only for the one variable. -/
theorem not_reads_of_indifferent {g : Graph}
    (hload : Graph.ofDocument .builtin indifferent = .ok g) :
    ¬g.Reads (.input 2 dataSocket) "mood" := by
  have hsources : (Graph.ofDocument .builtin indifferent).toOption.map (fun g =>
      (g.source? 2 dataSocket, g.source? 4 0)) = some (some (.output 4 0), some (.output 5 0)) := by
    decide +kernel
  have hnodes : (Graph.ofDocument .builtin indifferent).toOption.map (fun g =>
      ((g.node? 4).map fun n => (n.kind, n.layout.inputs),
        (g.node? 5).map fun n => (n.layout.inputs, n.payload.text? "property")))
      = some (some (.not, 1), some (0, some "met")) := by
    decide +kernel
  rw [hload, Except.toOption, Option.map_some, Option.some.injEq, Prod.mk.injEq] at hsources hnodes
  obtain ⟨hcondition, hnot⟩ := hsources
  obtain ⟨hm, hn⟩ := hnodes
  simp only [Option.map_eq_some_iff, Prod.mk.injEq] at hm hn
  obtain ⟨m, hm, hmkind, hminputs⟩ := hm
  obtain ⟨n, hn, hninputs, hmet⟩ := hn
  have hasked : ∀ q, g.Asks (.input 2 dataSocket) q →
      q = .input 2 dataSocket ∨ q = .value 4 0 ∨ q = .input 4 0 ∨ q = .value 5 0 := by
    intro q hasks
    induction hasks with
    | self => simp
    | @source i port s hq hs ih =>
      rcases ih with h | h | h | h <;> cases h
      · rw [hcondition, Option.some.injEq] at hs
        subst hs
        exact .inr (.inl rfl)
      · rw [hnot, Option.some.injEq] at hs
        subst hs
        exact .inr (.inr (.inr rfl))
    | @input i k port node hq hi hkind hk ih =>
      rcases ih with h | h | h | h <;> cases h
      · rw [hm, Option.some.injEq] at hi
        subst hi
        obtain rfl : k = 0 := by omega
        exact .inr (.inr (.inl rfl))
      · rw [hn, Option.some.injEq] at hi
        subst hi
        omega
  rintro ⟨i, port, node, hasks, hi, hkind, hname⟩
  rcases hasked _ hasks with h | h | h | h <;> cases h
  · rw [hm, Option.some.injEq] at hi
    rw [← hi, hmkind] at hkind
    cases hkind
  · rw [hn, Option.some.injEq] at hi
    rw [← hi, hmet, Option.some.injEq] at hname
    exact absurd hname (by decide)

theorem answers_depend_on_reads_indifferent :
    ∃ g, Graph.ofDocument .builtin indifferent = .ok g
      ∧ ∃ (n m : Node) (p : Passage ℚ), g.node? 1 = some n ∧ g.node? 2 = some m
        ∧ n.pass (.new .default) g 1 ⟨.origin, ∅⟩ = .ok p
        ∧ p.situation.variables.get? "mood" = some (.text "glad")
        ∧ m.dataInput (.new .default : Runtime ℚ) g 2 ∅
          = m.dataInput (.new .default) g 2 p.situation.variables := by
  have hnodes : (Graph.ofDocument .builtin indifferent).toOption.map (fun g =>
      ((g.node? 1).map fun n => (n.kind, n.payload.text? "property"), (g.node? 2).isSome))
      = some (some (.set, some "mood"), true) := by
    decide +kernel
  have hpass : (Graph.ofDocument .builtin indifferent).toOption.map (fun g =>
      (g.node? 1).map fun n =>
        (n.pass (.new .default : Runtime ℚ) g 1 ⟨.origin, ∅⟩).toOption.map
          (·.situation.variables.get? "mood")) = some (some (some (some (.text "glad")))) := by
    decide +kernel
  cases hload : Graph.ofDocument .builtin indifferent with
  | error e =>
    rw [hload] at hpass
    cases hpass
  | ok g =>
    rw [hload, Except.toOption, Option.map_some, Option.some.injEq] at hnodes hpass
    rw [Prod.mk.injEq, Option.isSome_iff_exists, Option.map_eq_some_iff] at hnodes
    obtain ⟨⟨n, hn, hset⟩, m, hm⟩ := hnodes
    rw [hn, Option.map_some, Option.some.injEq] at hpass
    cases hp : n.pass (.new .default : Runtime ℚ) g 1 ⟨.origin, ∅⟩ with
    | error e =>
      rw [hp] at hpass
      cases hpass
    | ok p =>
      rw [hp, Except.toOption, Option.map_some, Option.some.injEq] at hpass
      have hinput := ((answers_depend_on_reads g (.input 2 dataSocket)).2.2 (.new .default) 1 2 n m
        ⟨.origin, ∅⟩ p "mood" (Prod.mk.inj hset).1 (Prod.mk.inj hset).2 hp
        (not_reads_of_indifferent hload)).1
      exact ⟨g, rfl, n, m, p, hn, hm, hp, hpass, hinput⟩

end BranchingDialogue
