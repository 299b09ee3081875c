import BranchingDialogue.Proofs.Document.Reordered
import BranchingDialogue.Proofs.Exact
import BranchingDialogue.Proofs.Story.Turn

/-!
# Stories do not depend on the order of a document

Two graphs that differ in the positions of nodes only are walked in the same way: whatever a walk does
in the one it does in the other, at the positions to which the nodes are moved. Of all that a run
gives only a suspension tells a position.

Main results:
- `Node.pass_congr`: what a walk does at a node depends on the node, and of the graph on nothing but
  what feeds its data input;
- `turn_renumbered`, `Walker.stretch_renumbered`, `Walker.run_renumbered`: turns, stretches and runs
  in the two graphs correspond;
- `run_reordered`: so do runs on documents that list the same things in different orders.
-/

namespace BranchingDialogue

variable {α : Type}

/-! ## Positions in what a walk gives -/

/-- A suspension at the position to which its node is moved. -/
def Suspension.renumber (σ : Nat → Nat) (s : Suspension α) : Suspension α :=
  { s with node := σ s.node }

/-- An outcome at the position to which its node is moved. -/
def Outcome.renumber (σ : Nat → Nat) : Outcome α → Outcome α
  | .finished => .finished
  | .suspended s => .suspended (s.renumber σ)

/-- A walk that is suspended at the position to which its node is moved. -/
def Walk.renumber (σ : Nat → Nat) (w : Walk α) : Walk α :=
  { w with outcome := w.outcome.renumber σ }

/-- A turn that leads to the position to which its node is moved. -/
def Turn.renumber (σ : Nat → Nat) : Turn α → Turn α
  | .fails e => .fails e
  | .moves clip next s => .moves clip (σ next) s
  | .rests clip outcome s => .rests clip (outcome.renumber σ) s

variable [Scalar α] {r : Runtime α} {σ : Equiv.Perm Nat} {g g' : Graph}

/-! ## One node -/

/-- Of the graph, what a walk does at a node depends on what feeds its data input, and on whether
anything does. -/
theorem Node.pass_congr {n m : Node} {i j : Nat} {s : Situation α} (hbare : n.bare = m.bare)
    (hinput : n.dataInput r g' i s.variables = m.dataInput r g j s.variables)
    (hconnected : (n.port? .input dataSocket).any Port.isConnected
      = (m.port? .input dataSocket).any Port.isConnected) :
    n.pass r g' i s = m.pass r g j s := by
  obtain ⟨id, binder, view, kind, payload, position, inputs, outputs⟩ := n
  obtain ⟨id', binder', view', kind', payload', position', inputs', outputs'⟩ := m
  rw [bare, bare, mk.injEq] at hbare
  obtain ⟨rfl, rfl, rfl, rfl, rfl, rfl, -, -⟩ := hbare
  cases kind with
  | set =>
    simp only [pass, passSet]
    rw [hinput]
  | condition =>
    simp only [pass, passCondition]
    rw [hinput]
  | blend =>
    simp only [pass, passBlend, blendDuration]
    rw [hinput, hconnected]
    rfl
  | _ => rfl

omit [Scalar α] in
/-- What feeds a data input is the same in both graphs. -/
theorem dataInput_renumbered (h : g.Renumbers σ g') (hclosed : g'.Closed) {i : Nat} {n m : Node}
    (hn : g'.node? i = some n) (hid : n.id = m.id) (vars : Variables) :
    n.dataInput r g' i vars = m.dataInput r g (σ i) vars := by
  rw [Node.dataInput, Node.dataInput, h.pullInput_renumbered hclosed hn, hid]

/-- **Turns correspond.** -/
theorem turn_renumbered (h : g.Renumbers σ g') (hclosed : g'.Closed) {i : Nat} {n : Node}
    (hn : g'.node? i = some n) (s : Situation α) :
    (turn r g' i s).renumber σ = turn r g (σ i) s := by
  obtain ⟨m, hm, hbare⟩ := h.exists_node hn
  have hid : n.id = m.id := congrArg (·.id) hbare
  have hkind : n.kind = m.kind := Node.kind_of_bare hbare
  have hpass : n.pass r g' i s = m.pass r g (σ i) s :=
    Node.pass_congr hbare (dataInput_renumbered h hclosed hn hid _) (h.connected hn hm)
  rw [turn, turn, hn, hm]
  simp only [← hpass]
  cases n.pass r g' i s with
  | error e => rfl
  | ok p =>
    cases honward : p.onward with
    | along output =>
      simp only [honward]
      rw [← h.follow output hn]
      cases g'.follow? i output <;> rfl
    | choose options =>
      simp only [honward, ← hid, ← hkind]
      cases options <;> rfl

/-! ## Stretches and runs -/

namespace Walker

variable {seed : Variables} {limit room i : Nat} {s : Situation α}

/-- **Stretches correspond.** -/
theorem stretch_renumbered (h : g.Renumbers σ g') (hclosed : g'.Closed) {n : Node}
    (hn : g'.node? i = some n) (clips : Array (Clip α)) :
    ((⟨r, g', seed⟩ : Walker α).stretch limit room i s clips).map (Walk.renumber σ)
      = (⟨r, g, seed⟩ : Walker α).stretch limit room (σ i) s clips := by
  induction room generalizing i n s clips with
  | zero =>
    obtain ⟨m, hm, hbare⟩ := h.exists_node hn
    have hid : n.id = m.id := congrArg (·.id) hbare
    rw [stretch_zero, stretch_zero]
    simp only [hn, hm, hid]
    rfl
  | succ room ih =>
    rw [stretch_succ, stretch_succ, ← turn_renumbered h hclosed hn]
    cases hturn : turn r g' i s with
    | fails e => rfl
    | rests clip outcome s' => rfl
    | moves clip next s' =>
      obtain ⟨_, _, _, -, -, -, hnext, -⟩ := turn_eq_moves_iff.1 hturn
      obtain ⟨m, hm⟩ := hclosed.follow hnext
      exact ih hm _

theorem walkFrom_renumbered (h : g.Renumbers σ g') (hclosed : g'.Closed) {n : Node}
    (hn : g'.node? i = some n) :
    ((⟨r, g', seed⟩ : Walker α).walkFrom i s).map (Walk.renumber σ)
      = (⟨r, g, seed⟩ : Walker α).walkFrom (σ i) s := by
  have hlimit : (⟨r, g', seed⟩ : Walker α).stretchLimit s.variables
      = (⟨r, g, seed⟩ : Walker α).stretchLimit s.variables := by
    rw [stretchLimit, stretchLimit, stretchBound, stretchBound, h.size]
  rw [walkFrom, walkFrom, hlimit]
  exact stretch_renumbered h hclosed hn #[]

theorem start_renumbered (h : g.Renumbers σ g') (hclosed : g'.Closed) (entry : String) :
    ((⟨r, g', seed⟩ : Walker α).start entry).map (Walk.renumber σ)
      = (⟨r, g, seed⟩ : Walker α).start entry := by
  have hentry := h.entries entry
  rw [start, start]
  simp only
  rw [← hentry]
  cases hi : g'.entry? entry with
  | none => rfl
  | some i =>
    obtain ⟨n, hn⟩ := hclosed.entry hi
    exact walkFrom_renumbered h hclosed hn

theorem resume_renumbered (h : g.Renumbers σ g') (hclosed : g'.Closed) (waiting : Suspension α)
    (option : Nat) :
    ((⟨r, g', seed⟩ : Walker α).resume waiting option).map (Walk.renumber σ)
      = (⟨r, g, seed⟩ : Walker α).resume (waiting.renumber σ) option := by
  obtain ⟨node, nodeId, kind, choices, moment, vars⟩ := waiting
  have hids : (g'.node? node).map (·.id) = (g.node? (σ node)).map (·.id) := by
    have hbare := congrArg (Option.map Node.id) (h.nodes node)
    rw [Option.map_map, Option.map_map] at hbare
    exact hbare
  rw [Suspension.renumber, resume, resume, ← hids]
  by_cases hid : (g'.node? node).map (·.id) = some nodeId
  · rw [if_neg (not_not.2 hid), if_neg (not_not.2 hid)]
    by_cases hmany : choices.length ≤ option
    · rw [if_pos hmany, if_pos hmany]
      rfl
    · rw [if_neg hmany, if_neg hmany]
      obtain ⟨n, hn, -⟩ := Option.map_eq_some_iff.1 hid
      simp only
      rw [← h.follow option hn]
      cases hnext : g'.follow? node option with
      | none => rfl
      | some next =>
        obtain ⟨m, hm⟩ := hclosed.follow hnext
        exact walkFrom_renumbered h hclosed hm
  · rw [if_pos hid, if_pos hid]
    rfl

omit [Scalar α] in
theorem suspension?_renumber (σ : Nat → Nat) (walk : Walk α) :
    (walk.renumber σ).suspension? = walk.suspension?.map (Suspension.renumber σ) := by
  obtain ⟨clips, outcome, vars⟩ := walk
  cases outcome <;> rfl

theorem answer_renumbered (h : g.Renumbers σ g') (hclosed : g'.Closed) (walk : Walk α)
    (options : List Nat) :
    ((⟨r, g', seed⟩ : Walker α).answer walk options).map (Walk.renumber σ)
      = (⟨r, g, seed⟩ : Walker α).answer (walk.renumber σ) options := by
  induction options generalizing walk with
  | nil => rfl
  | cons option options ih =>
    rw [answer, answer, suspension?_renumber]
    cases walk.suspension? with
    | none => rfl
    | some waiting =>
      simp only [Option.map_some]
      rw [← resume_renumbered h hclosed]
      cases (⟨r, g', seed⟩ : Walker α).resume waiting option with
      | error e => rfl
      | ok next => exact ih (walk.append next)

/-- **Runs correspond.** -/
theorem run_renumbered (h : g.Renumbers σ g') (hclosed : g'.Closed) (entry : String)
    (options : List Nat) :
    ((⟨r, g', seed⟩ : Walker α).run entry options).map (Walk.renumber σ)
      = (⟨r, g, seed⟩ : Walker α).run entry options := by
  rw [run, run, ← start_renumbered h hclosed]
  cases (⟨r, g', seed⟩ : Walker α).start entry with
  | error e => rfl
  | ok walk => exact answer_renumbered h hclosed walk options

end Walker

/-- **The order in which a document lists things does not change the story.** Of two documents that
list the same nodes, with their payloads and positions, in different orders, and the same edges so
that those at one output keep theirs, one loads if the other does. Then all runs on the two graphs
give the same clips and variables, or the same error, and suspensions that differ in the positions of
their nodes only. -/
theorem run_reordered (registry : NodeRegistry) (σ : Equiv.Perm Nat) (d d' : Document)
    (h : d.Reorders σ d') :
    ((∃ g, Graph.ofDocument registry d = .ok g) ↔ ∃ g, Graph.ofDocument registry d' = .ok g)
      ∧ ∀ g g', Graph.ofDocument registry d = .ok g → Graph.ofDocument registry d' = .ok g' →
          ∀ (r : Runtime α) (seed : Variables) (entry : String) (options : List Nat),
            (⟨r, g, seed⟩ : Walker α).run entry options
              = ((⟨r, g', seed⟩ : Walker α).run entry options).map (Walk.renumber σ) :=
  ⟨h.exists_ofDocument_iff, fun _ _ hg hg' _ _ _ _ =>
    (Walker.run_renumbered (h.renumbers hg hg') (Graph.closed_of_ofDocument hg') _ _).symm⟩

/-- A choice between two ways to the same line. -/
def twoWays : Document where
  version := 1
  objectId := "00000000-0000-0000-0000-000000000000"
  properties := []
  nodes :=
    [⟨"aaaaaaaaaaaaaaaaaaaaaaaaaaaaaaaa", "InputNode", "Input"⟩,
      ⟨"bbbbbbbbbbbbbbbbbbbbbbbbbbbbbbbb", "ChoiceNode", "Choice"⟩,
      ⟨"cccccccccccccccccccccccccccccccc", "DialogueNode", "Dialogue"⟩]
  edges :=
    [⟨⟨"aaaaaaaaaaaaaaaaaaaaaaaaaaaaaaaa", 0⟩, ⟨"bbbbbbbbbbbbbbbbbbbbbbbbbbbbbbbb", 0⟩⟩,
      ⟨⟨"bbbbbbbbbbbbbbbbbbbbbbbbbbbbbbbb", 0⟩, ⟨"cccccccccccccccccccccccccccccccc", 0⟩⟩,
      ⟨⟨"bbbbbbbbbbbbbbbbbbbbbbbbbbbbbbbb", 1⟩, ⟨"cccccccccccccccccccccccccccccccc", 0⟩⟩]
  positions := []
  data :=
    [.object [("inputName", .text "start")],
      .object [("text", .text "Left or right?"), ("choices", .array [.text "Left", .text "Right"])],
      .object [("text", .text "Here we are.")]]

/-- The same with the last two nodes exchanged and the last edge in front. -/
def twoWaysReordered : Document where
  version := 1
  objectId := "00000000-0000-0000-0000-000000000000"
  properties := []
  nodes :=
    [⟨"aaaaaaaaaaaaaaaaaaaaaaaaaaaaaaaa", "InputNode", "Input"⟩,
      ⟨"cccccccccccccccccccccccccccccccc", "DialogueNode", "Dialogue"⟩,
      ⟨"bbbbbbbbbbbbbbbbbbbbbbbbbbbbbbbb", "ChoiceNode", "Choice"⟩]
  edges :=
    [⟨⟨"bbbbbbbbbbbbbbbbbbbbbbbbbbbbbbbb", 1⟩, ⟨"cccccccccccccccccccccccccccccccc", 0⟩⟩,
      ⟨⟨"aaaaaaaaaaaaaaaaaaaaaaaaaaaaaaaa", 0⟩, ⟨"bbbbbbbbbbbbbbbbbbbbbbbbbbbbbbbb", 0⟩⟩,
      ⟨⟨"bbbbbbbbbbbbbbbbbbbbbbbbbbbbbbbb", 0⟩, ⟨"cccccccccccccccccccccccccccccccc", 0⟩⟩]
  positions := []
  data :=
    [.object [("inputName", .text "start")], .object [("text", .text "Here we are.")],
      .object [("text", .text "Left or right?"), ("choices", .array [.text "Left", .text "Right"])]]

theorem reorders_twoWays : twoWays.Reorders (Equiv.swap 1 2) twoWaysReordered := by
  have hswap : ∀ {β : Type} (x y z : β) (i : Nat),
      [x, z, y][i]? = [x, y, z][Equiv.swap 1 2 i]? := by
    intro β x y z i
    match i with
    | 0 | 1 | 2 => rfl
    | i + 3 =>
      rw [Equiv.swap_apply_of_ne_of_ne (by omega) (by omega)]
      rfl
  have hrotate : ∀ {β : Type} (x y z : β), [x, y, z].Perm [y, z, x] := fun x y z =>
    List.perm_append_comm_assoc [x] [y, z] []
  refine ⟨rfl, rfl, rfl, hswap _ _ _, hswap _ _ _, fun i => rfl, hrotate _ _ _, ?_⟩
  intro id number
  by_cases hnumber : number = 1
  · simp [twoWays, twoWaysReordered, List.filter_cons, EdgeRecord.endsAt, EdgeRecord.endpoint,
      hnumber]
  · simp [twoWays, twoWaysReordered, List.filter_cons, EdgeRecord.endsAt, EdgeRecord.endpoint,
      Ne.symm hnumber]

theorem run_reordered_twoWays :
    ∃ g g', Graph.ofDocument .builtin twoWays = .ok g
      ∧ Graph.ofDocument .builtin twoWaysReordered = .ok g'
      ∧ (⟨.new .default, g, {}⟩ : Walker ℚ).run "start" []
          = ((⟨.new .default, g', {}⟩ : Walker ℚ).run "start" []).map
              (Walk.renumber (Equiv.swap 1 2)) := by
  have hload : (Graph.ofDocument .builtin twoWays).isOk = true := by decide +kernel
  cases hg : Graph.ofDocument .builtin twoWays with
  | error e =>
    rw [hg] at hload
    cases hload
  | ok g =>
    obtain ⟨hloads, hruns⟩ := run_reordered (α := ℚ) .builtin _ _ _ reorders_twoWays
    obtain ⟨g', hg'⟩ := hloads.1 ⟨g, hg⟩
    exact ⟨g, g', rfl, hg', hruns g g' hg hg' (.new .default) {} "start" []⟩

end BranchingDialogue
