import BranchingDialogue.Document.Load
import BranchingDialogue.Proofs.Dictionary
import BranchingDialogue.Proofs.Exact
import BranchingDialogue.Proofs.Story.Guard
import Mathlib

/-!
# Who writes the variables of a run

`Walker.visitsByRun` lists the nodes that a run comes to, each with the variables in force there. Of
all nodes only those of kind `set` write a variable, and only the one that they name, so what the
variables have become is read off that list: `Variables.Follow`. A run keeps this at every visit
(`Variables.Chain`), since a node that is passed adds itself to the visits and what it writes to the
variables; picks change neither, as a suspension holds the variables of its walk.

Main results:
- `Variables.Chain.pass`: passing a node keeps the chain;
- `Walker.leaves_of_stretch`, `Walker.leaves_of_call`: so does a stretch, begun with its own variables;
- `Walker.leaves_of_run`: so does a run, whatever is picked;
- `Walker.variables_of_run`: what that says of the variables at the end and of those in between.
-/

namespace BranchingDialogue

/-- A node that a walk comes to, with the variables in force there. -/
structure Visit where
  node : Nat
  «variables» : Variables
  deriving DecidableEq

/-- A visit to a node that sets a variable. -/
def Visit.Sets (g : Graph) (name : String) (v : Visit) : Prop :=
  ∃ n, g.node? v.node = some n ∧ n.kind = .set ∧ n.payload.text? "property" = some name

namespace Walker

variable {α : Type} [Scalar α]

/-- The visits of a stretch from a node on. -/
def visitsFrom (w : Walker α) : Nat → Nat → Situation α → List Visit
  | 0, _, _ => []
  | room + 1, index, s =>
    ⟨index, s.variables⟩ ::
      match turn w.runtime w.graph index s with
      | .moves _ next s' => w.visitsFrom room next s'
      | _ => []

/-- The visits of a stretch that is begun at an entry or by a pick. -/
def visitsBy (w : Walker α) (c : Call α) : List Visit :=
  match w.beginning c with
  | .ok (some index, s) => w.visitsFrom (w.stretchLimit s.variables) index s
  | _ => []

/-- The visits of the stretches with which a walk is gone on with. -/
def visitsByAnswer (w : Walker α) (walk : Walk α) : List Nat → List Visit
  | [] => []
  | option :: options =>
    match walk.suspension? with
    | none => []
    | some s =>
      w.visitsBy (.resume s option) ++
        match w.resume s option with
        | .error _ => []
        | .ok next => w.visitsByAnswer (walk.append next) options

/-- The visits of a run. -/
def visitsByRun (w : Walker α) (entry : String) (options : List Nat) : List Visit :=
  w.visitsBy (.start entry) ++
    match w.start entry with
    | .error _ => []
    | .ok walk => w.visitsByAnswer walk options

end Walker

/-! ## What visits make of the variables -/

/-- Of the variables after some visits, those that were set have the value pulled at the last visit
that set them, and all others are as they were. -/
structure Variables.Follow (vars : Variables) (processorDepth : Option Nat) (g : Graph)
    (seed : Variables) (visits : List Visit) : Prop where
  keys : ∀ name, vars.contains name = true
    ↔ seed.contains name = true ∨ ∃ v ∈ visits, v.Sets g name
  kept : ∀ name, (∀ v ∈ visits, ¬v.Sets g name) → vars.get? name = seed.get? name
  last : ∀ name before v after, visits = before ++ v :: after → v.Sets g name →
    (∀ u ∈ after, ¬u.Sets g name) →
      ∃ value, g.pullInput v.variables processorDepth v.node dataSocket = .ok value
        ∧ vars.get? name = some value

/-- Variables follow from the visits, and at each visit those in force follow from the earlier
ones. -/
structure Variables.Chain (vars : Variables) (processorDepth : Option Nat) (g : Graph)
    (seed : Variables) (visits : List Visit) : Prop where
  now : vars.Follow processorDepth g seed visits
  earlier : ∀ before v after, visits = before ++ v :: after →
    v.variables.Follow processorDepth g seed before

/-- Of a list with one element more, a part before an element is the list, or it is such a part of
the list. -/
theorem List.concat_eq_append_cons {β : Type} {l before after : List β} {x v : β}
    (h : l ++ [x] = before ++ v :: after) :
    (before = l ∧ v = x ∧ after = []) ∨ ∃ rest, after = rest ++ [x] ∧ l = before ++ v :: rest := by
  rcases List.eq_nil_or_concat after with rfl | ⟨rest, y, rfl⟩
  · obtain ⟨hl, hx⟩ := List.append_inj' h rfl
    cases hx
    exact .inl ⟨hl.symm, rfl, rfl⟩
  · rw [List.concat_eq_append, ← List.cons_append, ← List.append_assoc] at h
    obtain ⟨hl, hx⟩ := List.append_inj' h rfl
    cases hx
    exact .inr ⟨rest, List.concat_eq_append, hl⟩

section Passing

variable {processorDepth : Option Nat} {g : Graph} {seed vars : Variables} {visits : List Visit}
  {visit : Visit}

theorem Variables.Follow.refl (processorDepth : Option Nat) (g : Graph) (seed : Variables) :
    seed.Follow processorDepth g seed [] where
  keys name := by simp
  kept _ _ := rfl
  last _ before v after h := by
    have hlength := congrArg List.length h
    simp at hlength

theorem Variables.Chain.refl (processorDepth : Option Nat) (g : Graph) (seed : Variables) :
    seed.Chain processorDepth g seed [] where
  now := .refl processorDepth g seed
  earlier before v after h := by
    have hlength := congrArg List.length h
    simp at hlength

/-- A visit that sets nothing leaves the variables as they are. -/
theorem Variables.Follow.keep (h : vars.Follow processorDepth g seed visits)
    (hvisit : ∀ name, ¬visit.Sets g name) :
    vars.Follow processorDepth g seed (visits ++ [visit]) where
  keys name := by
    have hnone := hvisit name
    rw [h.keys name]
    simp [hnone]
  kept name hnot := h.kept name fun v hv => hnot v (List.mem_append_left _ hv)
  last name before v after heq hsets hafter := by
    rcases List.concat_eq_append_cons heq with ⟨-, rfl, -⟩ | ⟨rest, rfl, hvisits⟩
    · exact absurd hsets (hvisit name)
    · exact h.last name before v rest hvisits hsets fun u hu =>
        hafter u (List.mem_append_left _ hu)

/-- A visit that sets a variable gives it the value pulled there, and leaves the others as they
are. -/
theorem Variables.Follow.set (h : vars.Follow processorDepth g seed visits) {target : String}
    {value : Value} (hvisit : ∀ name, visit.Sets g name ↔ name = target)
    (hvalue : g.pullInput visit.variables processorDepth visit.node dataSocket = .ok value) :
    Variables.Follow (vars.insert target value) processorDepth g seed (visits ++ [visit]) where
  keys name := by
    have hold := h.keys name
    rw [Dictionary.contains] at hold ⊢
    rw [Dictionary.get?_insert]
    by_cases hname : target = name
    · subst hname
      simp [hvisit]
    · have hne : ¬visit.Sets g name := fun hsets => hname ((hvisit name).1 hsets).symm
      rw [if_neg hname, hold]
      simp [hne]
  kept name hnot := by
    have hne : target ≠ name := by
      intro hname
      exact hnot visit (by simp) ((hvisit name).2 hname.symm)
    rw [Dictionary.get?_insert_ne vars value hne]
    exact h.kept name fun v hv => hnot v (List.mem_append_left _ hv)
  last name before v after heq hsets hafter := by
    rcases List.concat_eq_append_cons heq with ⟨-, rfl, -⟩ | ⟨rest, rfl, hvisits⟩
    · obtain rfl := (hvisit name).1 hsets
      exact ⟨value, hvalue, Dictionary.get?_insert_self vars name value⟩
    · have hne : target ≠ name := by
        intro hname
        exact hafter visit (by simp) ((hvisit name).2 hname.symm)
      rw [Dictionary.get?_insert_ne vars value hne]
      exact h.last name before v rest hvisits hsets fun u hu =>
        hafter u (List.mem_append_left _ hu)

/-- One visit more, where the variables that follow from it are known. -/
theorem Variables.Chain.concat {next : Variables} (visit : Visit)
    (h : visit.variables.Chain processorDepth g seed visits)
    (hnext : next.Follow processorDepth g seed (visits ++ [visit])) :
    next.Chain processorDepth g seed (visits ++ [visit]) where
  now := hnext
  earlier before v after heq := by
    rcases List.concat_eq_append_cons heq with ⟨rfl, rfl, -⟩ | ⟨rest, -, hvisits⟩
    · exact h.now
    · exact h.earlier before v rest hvisits

/-- With more visits there are more variables, never fewer. -/
theorem Variables.Chain.contains_of_mem (h : vars.Chain processorDepth g seed visits)
    (hvisit : visit ∈ visits) {name : String} (hname : visit.variables.contains name = true) :
    vars.contains name = true := by
  obtain ⟨before, after, hvisits⟩ := List.append_of_mem hvisit
  rw [h.now.keys]
  rcases ((h.earlier before visit after hvisits).keys name).1 hname with hseed | ⟨v, hv, hsets⟩
  · exact .inl hseed
  · refine .inr ⟨v, ?_, hsets⟩
    rw [hvisits]
    exact List.mem_append_left _ hv

/-- The first visit is made with the variables that were there at the start. -/
theorem Variables.Chain.variables_of_first {rest : List Visit}
    (h : vars.Chain processorDepth g seed (visit :: rest)) : visit.variables = seed := by
  have hfirst := h.earlier [] visit rest rfl
  apply Dictionary.ext_get?
  intro name
  exact hfirst.kept name fun v hv => absurd hv List.not_mem_nil

variable {α : Type} [Scalar α] {r : Runtime α} {index : Nat} {n : Node} {s : Situation α}
  {p : Passage α}

/-- **Passing a node keeps the chain**: the node is visited, and writes what it names if it is there
to set a variable. -/
theorem Variables.Chain.pass (h : s.variables.Chain r.settings.processorDepth g seed visits)
    (hn : g.node? index = some n) (hpass : n.Passes r g index s p) :
    p.situation.variables.Chain r.settings.processorDepth g seed
      (visits ++ [⟨index, s.variables⟩]) := by
  -- The visit is to this very node, so a kind other than `set` sets nothing.
  have hother : n.kind ≠ .set → ∀ name, ¬Visit.Sets g name ⟨index, s.variables⟩ := by
    intro hkind name hsets
    obtain ⟨m, hm, hset, -⟩ := hsets
    rw [hn, Option.some.injEq] at hm
    subst hm
    exact hkind hset
  refine Variables.Chain.concat ⟨index, s.variables⟩ h ?_
  cases hpass with
  | @set kind target value htarget hinput =>
    have hsets : ∀ name, Visit.Sets g name ⟨index, s.variables⟩ ↔ name = target := by
      intro name
      constructor
      · intro hsets
        obtain ⟨m, hm, -, hname⟩ := hsets
        rw [hn, Option.some.injEq] at hm
        subst hm
        rw [htarget, Option.some.injEq] at hname
        exact hname.symm
      · intro hname
        exact ⟨n, hn, kind, by rw [hname]; exact htarget⟩
    exact h.now.set hsets (Node.pullInput_of_dataInput hinput)
  | input kind | dialogue kind | choice kind | action kind | condition kind | marker kind
  | blend kind =>
    apply h.now.keep
    apply hother
    rw [kind]
    intro hset
    cases hset

end Passing

/-! ## Stretches -/

variable {α : Type} [Scalar α]

/-- A walk ends with variables that follow from its visits, and a suspension holds these very
variables. -/
structure Walk.Leaves (w : Walker α) (seed : Variables) (visits : List Visit) (walk : Walk α) :
    Prop where
  chain : walk.variables.Chain w.runtime.settings.processorDepth w.graph seed visits
  held : ∀ waiting, walk.outcome = .suspended waiting → waiting.variables = walk.variables

namespace Walker

variable {w : Walker α} {seed : Variables} {visits : List Visit} {walk : Walk α}

/-- A stretch adds its visits, and what is written there, to what there was before. -/
theorem leaves_of_stretch {limit room index : Nat} {s : Situation α} {clips : Array (Clip α)}
    (hchain : s.variables.Chain w.runtime.settings.processorDepth w.graph seed visits)
    (h : w.stretch limit room index s clips = .ok walk) :
    walk.Leaves w seed (visits ++ w.visitsFrom room index s) := by
  induction room generalizing index s clips visits with
  | zero =>
    rw [stretch_zero] at h
    split at h <;> cases h
  | succ room ih =>
    rw [stretch_succ] at h
    rw [visitsFrom]
    cases hturn : turn w.runtime w.graph index s with
    | fails e =>
      rw [hturn] at h
      cases h
    | moves clip next s' =>
      rw [hturn] at h
      obtain ⟨n, p, output, hn, hpass, -, -, -, rfl⟩ := turn_eq_moves_iff.1 hturn
      have hnext := ih (hchain.pass hn hpass) h
      rwa [List.append_assoc] at hnext
    | rests clip outcome s' =>
      rw [hturn] at h
      cases h
      obtain ⟨n, p, hn, hpass, -, rfl⟩ := exists_passes_of_rests hturn
      refine ⟨hchain.pass hn hpass, ?_⟩
      intro waiting houtcome
      replace houtcome : outcome = .suspended waiting := houtcome
      rw [houtcome] at hturn
      exact (suspension_of_turn hturn).2.2.2

/-- So does a stretch that is begun at an entry or by a pick. -/
theorem leaves_of_call {c : Call α}
    (hchain : ∀ place s, w.beginning c = .ok (place, s) →
      s.variables.Chain w.runtime.settings.processorDepth w.graph seed visits)
    (h : w.call c = .ok walk) : walk.Leaves w seed (visits ++ w.visitsBy c) := by
  rw [call_eq] at h
  rw [visitsBy]
  cases hbegin : w.beginning c with
  | error e =>
    rw [hbegin] at h
    cases h
  | ok begun =>
    obtain ⟨place, s⟩ := begun
    have hbegun := hchain place s hbegin
    rw [hbegin] at h
    cases place with
    | some index => exact leaves_of_stretch hbegun h
    | none =>
      cases h
      rw [List.append_nil]
      refine ⟨hbegun, ?_⟩
      intro waiting houtcome
      cases houtcome

theorem variables_of_start {entry : String} {place : Option Nat} {s : Situation α}
    (h : w.beginning (.start entry) = .ok (place, s)) : s.variables = w.variables := by
  rw [beginning] at h
  split at h
  · cases h
  · cases h
    rfl

theorem variables_of_resume {waiting : Suspension α} {option : Nat} {place : Option Nat}
    {s : Situation α} (h : w.beginning (.resume waiting option) = .ok (place, s)) :
    s.variables = waiting.variables := by
  rw [beginning] at h
  split at h
  · cases h
  · split at h
    · cases h
    · cases h
      rfl

/-! ## Runs -/

variable {entry : String} {options : List Nat}

/-- A first stretch starts with the variables of the walker. -/
theorem leaves_of_start (h : w.start entry = .ok walk) :
    walk.Leaves w w.variables (w.visitsBy (.start entry)) := by
  show walk.Leaves w w.variables ([] ++ w.visitsBy (.start entry))
  refine leaves_of_call ?_ h
  intro place s hbegin
  rw [variables_of_start hbegin]
  exact .refl _ w.graph w.variables

/-- A stretch that is resumed starts with the variables with which the one before it ended. -/
theorem leaves_of_resume {waiting : Suspension α} {option : Nat} {next : Walk α}
    (hwalk : walk.Leaves w seed visits) (hwaiting : walk.outcome = .suspended waiting)
    (h : w.resume waiting option = .ok next) :
    (walk.append next).Leaves w seed (visits ++ w.visitsBy (.resume waiting option)) := by
  have hnext : next.Leaves w seed (visits ++ w.visitsBy (.resume waiting option)) := by
    refine leaves_of_call ?_ h
    intro place s hbegin
    rw [variables_of_resume hbegin, hwalk.held waiting hwaiting]
    exact hwalk.chain
  exact ⟨hnext.chain, hnext.held⟩

theorem leaves_of_answer {walk' : Walk α} (hwalk : walk.Leaves w seed visits)
    (h : w.answer walk options = .ok walk') :
    walk'.Leaves w seed (visits ++ w.visitsByAnswer walk options) := by
  induction options generalizing walk visits with
  | nil =>
    cases h
    rwa [visitsByAnswer, List.append_nil]
  | cons option options ih =>
    rw [answer] at h
    rw [visitsByAnswer]
    cases hs : walk.suspension? with
    | none =>
      rw [hs] at h
      cases h
      rwa [List.append_nil]
    | some waiting =>
      rw [hs] at h
      simp only at h ⊢
      cases hnext : w.resume waiting option with
      | error e =>
        rw [hnext] at h
        cases h
      | ok next =>
        rw [hnext] at h
        rw [← List.append_assoc]
        exact ih (leaves_of_resume hwalk (outcome_of_suspension? hs) hnext) h

/-- **The variables of a run follow from its visits**, whatever is picked on the way. -/
theorem leaves_of_run (h : w.run entry options = .ok walk) :
    walk.Leaves w w.variables (w.visitsByRun entry options) := by
  rw [run] at h
  rw [visitsByRun]
  cases hstart : w.start entry with
  | error e =>
    rw [hstart] at h
    cases h
  | ok first =>
    rw [hstart] at h
    exact leaves_of_answer (leaves_of_start hstart) h

omit [Scalar α] in
/-- A graph gives a variable the value of the last property of its name. -/
theorem get?_variables_new (r : Runtime α) (g : Graph) (name : String) :
    (new r g).variables.get? name
      = (g.properties.reverse.find? fun p => p.name = name).map (·.value) := by
  rw [new, Dictionary.get?_ofList, ← List.map_reverse, List.find?_map, Option.map_map]
  rfl

/-- **Only nodes that set a variable write variables, and only the one that they name.** On every
graph, with every seed, entry and picks, and whether a run is finished or waits: its variables are
those of the seed and those that were set on the way; the ones that were set have the value pulled,
with the variables in force there, at the last visit that set them, and the others are as in the
seed. The same holds of the variables in force at each visit, with regard to the visits before it;
the first one is made with the seed, which no run changes, and no variable is removed on the way. A
suspension holds the variables of its walk. The seed that a graph declares has under each name the
value of the last property of that name. -/
theorem variables_of_run (w : Walker α) (entry : String) (options : List Nat) (walk : Walk α)
    (h : w.run entry options = .ok walk) :
    walk.variables.Follow w.runtime.settings.processorDepth w.graph w.variables
        (w.visitsByRun entry options)
      ∧ (∀ before v after, w.visitsByRun entry options = before ++ v :: after →
          v.variables.Follow w.runtime.settings.processorDepth w.graph w.variables before)
      ∧ (∀ first rest, w.visitsByRun entry options = first :: rest → first.variables = w.variables)
      ∧ (∀ v ∈ w.visitsByRun entry options, ∀ name,
          v.variables.contains name = true → walk.variables.contains name = true)
      ∧ (∀ waiting, walk.outcome = .suspended waiting → waiting.variables = walk.variables)
      ∧ ∀ name, (new w.runtime w.graph).variables.get? name
          = (w.graph.properties.reverse.find? fun p => p.name = name).map (·.value) := by
  have hrun := leaves_of_run h
  refine ⟨hrun.chain.now, hrun.chain.earlier, ?_, ?_, hrun.held, get?_variables_new _ _⟩
  · intro first rest hvisits
    have hchain := hrun.chain
    rw [hvisits] at hchain
    exact hchain.variables_of_first
  · intro v hv name hname
    exact hrun.chain.contains_of_mem hv hname

/-- A variable that is declared twice, and another one that is negated each time before a choice,
which leads back to that. -/
def flipFlop : Document where
  version := 1
  objectId := "00000000-0000-0000-0000-000000000000"
  properties :=
    [⟨"00000000000000000000000000000001", "int", "mood", .integer ⟨1, by decide⟩⟩,
      ⟨"00000000000000000000000000000002", "bool", "met", .bool false⟩,
      ⟨"00000000000000000000000000000003", "int", "mood", .integer ⟨3, by decide⟩⟩]
  nodes :=
    [⟨"aaaaaaaaaaaaaaaaaaaaaaaaaaaaaaaa", "InputNode", "Input"⟩,
      ⟨"bbbbbbbbbbbbbbbbbbbbbbbbbbbbbbbb", "SetNode", "Set"⟩,
      ⟨"cccccccccccccccccccccccccccccccc", "ChoiceNode", "Choice"⟩,
      ⟨"dddddddddddddddddddddddddddddddd", "NotNode", "Not"⟩,
      ⟨"eeeeeeeeeeeeeeeeeeeeeeeeeeeeeeee", "PropertyNode", "Property"⟩]
  edges :=
    [⟨⟨"aaaaaaaaaaaaaaaaaaaaaaaaaaaaaaaa", 0⟩, ⟨"bbbbbbbbbbbbbbbbbbbbbbbbbbbbbbbb", 0⟩⟩,
      ⟨⟨"bbbbbbbbbbbbbbbbbbbbbbbbbbbbbbbb", 0⟩, ⟨"cccccccccccccccccccccccccccccccc", 0⟩⟩,
      ⟨⟨"cccccccccccccccccccccccccccccccc", 0⟩, ⟨"bbbbbbbbbbbbbbbbbbbbbbbbbbbbbbbb", 0⟩⟩,
      ⟨⟨"eeeeeeeeeeeeeeeeeeeeeeeeeeeeeeee", 0⟩, ⟨"dddddddddddddddddddddddddddddddd", 0⟩⟩,
      ⟨⟨"dddddddddddddddddddddddddddddddd", 0⟩, ⟨"bbbbbbbbbbbbbbbbbbbbbbbbbbbbbbbb", -1⟩⟩]
  positions := []
  data :=
    [.object [("inputName", .text "start")], .object [("property", .text "met")],
      .object [("choices", .array [.text "Again"])], .object [], .object [("property", .text "met")]]

/-- The variables there, where the second declaration counts. -/
def flipFlopVariables (met : Bool) : Variables := .ofList [("met", .bool met), ("mood", .int 3)]

theorem variables_of_run_flipFlop :
    ∃ g walk, Graph.ofDocument .builtin flipFlop = .ok g
      ∧ (Walker.new (.new .default) g : Walker ℚ).run "start" [0] = .ok walk
      ∧ (Walker.new (.new .default) g : Walker ℚ).visitsByRun "start" [0]
          = [⟨0, flipFlopVariables false⟩, ⟨1, flipFlopVariables false⟩,
            ⟨2, flipFlopVariables true⟩, ⟨1, flipFlopVariables true⟩, ⟨2, flipFlopVariables false⟩]
      ∧ walk.variables.Follow (some 64) g (Walker.new (.new .default) g : Walker ℚ).variables
          ((Walker.new (.new .default) g : Walker ℚ).visitsByRun "start" [0]) := by
  have hvisits :
      (Graph.ofDocument .builtin flipFlop).toOption.bind (fun g =>
          ((Walker.new (.new .default) g : Walker ℚ).run "start" [0]).toOption.map fun _ =>
            (Walker.new (.new .default) g : Walker ℚ).visitsByRun "start" [0])
        = some [⟨0, flipFlopVariables false⟩, ⟨1, flipFlopVariables false⟩,
            ⟨2, flipFlopVariables true⟩, ⟨1, flipFlopVariables true⟩,
            ⟨2, flipFlopVariables false⟩] := by
    decide +kernel
  cases hg : Graph.ofDocument .builtin flipFlop with
  | error e =>
    rw [hg] at hvisits
    cases hvisits
  | ok g =>
    cases hwalk : (Walker.new (.new .default) g : Walker ℚ).run "start" [0] with
    | error e => simp [hg, hwalk, Except.toOption] at hvisits
    | ok walk =>
      refine ⟨g, walk, rfl, hwalk, ?_, (variables_of_run _ _ _ _ hwalk).1⟩
      simpa [hg, hwalk, Except.toOption] using hvisits

end Walker

end BranchingDialogue
