import BranchingDialogue.Proofs.Orbit
import BranchingDialogue.Proofs.Processor.Answering

/-!
# Where a limit cuts an evaluation off

An evaluation under a limit is cut off at the first node it comes to that lies one level deeper
than the limit allows, provided it comes to one before any error: `Graph.ComesTo` follows the
evaluation without a limit down to a given level, and `answerAt_eq_deep_iff` says that the answer
is cut off exactly where that succeeds.

How deep an evaluation goes depends on the node alone. So where an evaluation without a limit ends,
every level down to its lowest belongs to another node, and it has fewer levels than the graph has
nodes (`lt_size_of_deepest`): the bound that stands in for a missing limit never cuts it off. Where
processors do not feed one another in a circle, their number bounds the levels
(`lt_card_of_comesTo`). `answers_strictly` puts everything together.
-/

namespace BranchingDialogue

namespace Graph

/-- Evaluating node `i` without a limit, inputs in order, comes to node `j` that many levels down:
input `k` leads there, and the inputs before it have values and lead nowhere as deep. -/
def ComesTo (g : Graph) (vars : Variables) : Nat → Nat → Nat → Prop
  | 0, i, j => i = j ∧ ∃ n, g.node? i = some n
  | depth + 1, i, j =>
    ∃ (n : Node) (k : Nat) (s : PortRef), g.node? i = some n ∧ n.kind.isProcessor = true
      ∧ k < n.layout.inputs ∧ g.source? i k = some s ∧ ComesTo g vars depth s.node j
      ∧ ∀ m < k, ∃ (s' : PortRef) (v : Value), g.source? i m = some s'
        ∧ g.Answers vars none 0 (.value s'.node s'.number) (.ok v)
        ∧ ∀ j', ¬ComesTo g vars depth s'.node j'

/-- Evaluating what a request asks for comes to a node at some depth. The node of a value is at
depth 0, and what feeds an input at depth 1. -/
def Arrives (g : Graph) (vars : Variables) : Request → Nat → Nat → Prop
  | .value i _, depth, j => g.ComesTo vars depth i j
  | .input i port, depth, j =>
    ∃ (n : Node) (s : PortRef) (d : Nat), g.node? i = some n ∧ g.source? i port = some s
      ∧ depth = d + 1 ∧ g.ComesTo vars d s.node j

variable {g : Graph} {vars : Variables} {L L' depth room i j : Nat} {port : Int} {n : Node}
  {q : Request} {r : Except ProcessorError Value} {id : NodeId}

theorem exists_node?_of_comesTo (h : g.ComesTo vars room i j) : ∃ n, g.node? j = some n := by
  induction room generalizing i with
  | zero =>
    obtain ⟨rfl, hn⟩ := h
    exact hn
  | succ room ih =>
    obtain ⟨_, _, _, _, _, _, _, hs, _⟩ := h
    exact ih hs

theorem exists_node?_of_comesTo_from (h : g.ComesTo vars room i j) : ∃ n, g.node? i = some n := by
  cases room with
  | zero => exact h.2
  | succ room =>
    obtain ⟨n, _, _, hi, _⟩ := h
    exact ⟨n, hi⟩

/-! ## Cut off exactly there -/

/-- An input that has a value is fed by a node that has it. -/
theorem exists_source_of_ok {k : Nat} {v : Value} (hi : g.node? i = some n)
    (h : g.answerAt vars L depth (.input i k) = .ok v) :
    ∃ s, g.source? i k = some s
      ∧ g.answerAt vars L (depth + 1) (.value s.node s.number) = .ok v := by
  cases hs : g.source? i k with
  | none =>
    rw [answerAt_unconnected hi hs] at h
    cases h
  | some s =>
    rw [answerAt_fed hi hs] at h
    exact ⟨s, rfl, h⟩

/-! ### One level

What is known of the nodes one level deeper, with one room less, passes on to a processor whose
inputs they feed. -/

section Level

variable (hbelow : ∀ {s : PortRef} {id : NodeId} {L' : Nat},
  g.answerAt vars L (depth + 1) (.value s.node s.number) = .error (.depthExceeded id L')
    ↔ L' = L ∧ ∃ j n, g.ComesTo vars room s.node j ∧ g.node? j = some n ∧ n.id = id)
include hbelow

theorem cut_iff_comesTo (s : PortRef) :
    Cut (g.answerAt vars L (depth + 1) (.value s.node s.number))
      ↔ ∃ j, g.ComesTo vars room s.node j := by
  constructor
  · rintro ⟨id, L', h⟩
    obtain ⟨-, j, -, hj, -⟩ := hbelow.1 h
    exact ⟨j, hj⟩
  · rintro ⟨j, hj⟩
    obtain ⟨n, hn⟩ := exists_node?_of_comesTo hj
    exact ⟨n.id, L, hbelow.2 ⟨rfl, j, n, hj, hn, rfl⟩⟩

/-- An input that has a value does not lead as deep. -/
theorem not_comesTo_of_ok {s : PortRef} {k : Nat} {v : Value} (hi : g.node? i = some n)
    (hs : g.source? i k = some s) (h : g.answerAt vars L depth (.input i k) = .ok v) (j : Nat) :
    ¬g.ComesTo vars room s.node j := by
  intro hj
  rw [answerAt_fed hi hs] at h
  exact absurd ((cut_iff_comesTo hbelow s).2 ⟨j, hj⟩) (h ▸ not_cut_ok v)

/-- If the first input without a value is cut off, evaluation comes so deep through it. -/
theorem comesTo_of_fails {k : Nat} {value : Nat → Value} (hi : g.node? i = some n)
    (hkind : n.kind.isProcessor = true) (hk : k < n.layout.inputs)
    (hbefore : ∀ m < k, g.answerAt vars L depth (.input i m) = .ok (value m))
    (he : g.answerAt vars L depth (.input i k) = .error (.depthExceeded id L')) :
    L' = L ∧ ∃ j n, g.ComesTo vars (room + 1) i j ∧ g.node? j = some n ∧ n.id = id := by
  cases hs : g.source? i k with
  | none =>
    rw [answerAt_unconnected hi hs] at he
    cases he
  | some s =>
    rw [answerAt_fed hi hs, hbelow] at he
    obtain ⟨hL, j, m, hj, hm, hid⟩ := he
    refine ⟨hL, j, m, ⟨n, k, s, hi, hkind, hk, hs, hj, fun m hm => ?_⟩, hm, hid⟩
    obtain ⟨s', hs', hv⟩ := exists_source_of_ok hi (hbefore m hm)
    have hnot : ¬Cut (g.answerAt vars L (depth + 1) (.value s'.node s'.number)) :=
      hv ▸ not_cut_ok (value m)
    have hnone := answers_none_of_not_cut hnot 0
    exact ⟨s', value m, hs', hv ▸ hnone, not_comesTo_of_ok hbelow hi hs' (hbefore m hm)⟩

/-- If evaluation comes so deep, it does so through the first input without a value. -/
theorem fails_of_comesTo {k : Nat} {value : Nat → Value} {e : ProcessorError}
    (hi : g.node? i = some n)
    (hbefore : ∀ m < k, g.answerAt vars L depth (.input i m) = .ok (value m))
    (he : g.answerAt vars L depth (.input i k) = .error e) (hj : g.ComesTo vars (room + 1) i j)
    {m : Node} (hm : g.node? j = some m) : e = .depthExceeded m.id L := by
  obtain ⟨n', k', s, hn', -, hk', hs, hj, hfirst⟩ := hj
  rcases Nat.lt_trichotomy k' k with hlt | rfl | hgt
  · exact absurd hj (not_comesTo_of_ok hbelow hi hs (hbefore k' hlt) j)
  · rw [answerAt_fed hi hs, hbelow.2 ⟨rfl, j, m, hj, hm, rfl⟩] at he
    cases he
    rfl
  · -- Input `k` would have a value, then.
    obtain ⟨s', v, hs', hv, hnone⟩ := hfirst k hgt
    have hnot : ¬Cut (g.answerAt vars L (depth + 1) (.value s'.node s'.number)) := fun hcut => by
      obtain ⟨j', hj'⟩ := (cut_iff_comesTo hbelow s').1 hcut
      exact hnone j' hj'
    have hsame := (answers_none_of_not_cut hnot 0).unique hv
    rw [← answerAt_fed hi hs', he] at hsame
    cases hsame

end Level

theorem not_comesTo_of_unknownNode (hi : g.node? i = none) (room j : Nat) :
    ¬g.ComesTo vars room i j := by
  intro hj
  obtain ⟨n, hn⟩ := exists_node?_of_comesTo_from hj
  rw [hi] at hn
  cases hn

/-- A node of the flow is as far as an evaluation goes. -/
theorem not_comesTo_of_flow (hi : g.node? i = some n) (hkind : n.kind.isProcessor = false)
    (room j : Nat) : ¬g.ComesTo vars (room + 1) i j := by
  rintro ⟨n', _, _, hn', hkind', -⟩
  rw [hi] at hn'
  cases hn'
  rw [hkind] at hkind'
  cases hkind'

/-- With room for so many levels an evaluation is cut off at the first node that lies as deep. The
induction is on the room. -/
theorem answerAt_eq_deep_iff (hroom : L + 1 - depth = room) :
    g.answerAt vars L depth (.value i port) = .error (.depthExceeded id L')
      ↔ L' = L ∧ ∃ j n, g.ComesTo vars room i j ∧ g.node? j = some n ∧ n.id = id := by
  induction room generalizing depth i port id L' with
  | zero =>
    cases hi : g.node? i with
    | none =>
      rw [answerAt_unknownNode hi]
      exact ⟨nofun, fun ⟨_, j, _, hj, _⟩ => absurd hj (not_comesTo_of_unknownNode hi 0 j)⟩
    | some n =>
      rw [answerAt_deep hi (by omega)]
      constructor
      · intro h
        cases h
        exact ⟨rfl, i, n, ⟨rfl, n, hi⟩, hi, rfl⟩
      · rintro ⟨rfl, j, m, ⟨rfl, -⟩, hm, rfl⟩
        rw [hi] at hm
        cases hm
        rfl
  | succ room ih =>
    have hdepth : depth ≤ L := by omega
    have hbelow : L + 1 - (depth + 1) = room := by omega
    cases hi : g.node? i with
    | none =>
      rw [answerAt_unknownNode hi]
      exact ⟨nofun, fun ⟨_, j, _, hj, _⟩ => absurd hj (not_comesTo_of_unknownNode hi _ j)⟩
    | some n =>
      cases hkind : n.kind.isProcessor with
      | false =>
        rw [answerAt_flow hi hdepth hkind]
        exact ⟨nofun, fun ⟨_, j, _, hj, _⟩ => absurd hj (not_comesTo_of_flow hi hkind room j)⟩
      | true =>
        rcases all_or_first_error (fun k : Nat => g.answerAt vars L depth (.input i k))
            n.layout.inputs with ⟨value, hall⟩ | ⟨k, hk, e, value, hbefore, he⟩
        · -- All inputs have values, so none of them leads so deep.
          rw [answerAt_computes hi hdepth hkind hall]
          constructor
          · intro h
            have hlength : ((List.range n.layout.inputs).map value).length = n.layout.inputs := by
              rw [List.length_map, List.length_range]
            exact absurd h ((Node.applies_process hkind hlength vars port).ne_depthExceeded id L')
          · rintro ⟨-, j, -, ⟨n', k, s, hn', -, hk, hs, hj, -⟩, -⟩
            rw [hi] at hn'
            cases hn'
            exact absurd hj (not_comesTo_of_ok (ih hbelow) hi hs (hall k hk) j)
        · rw [answerAt_fails hi hdepth hkind hk hbefore he]
          constructor
          · intro h
            cases h
            exact comesTo_of_fails (ih hbelow) hi hkind hk hbefore he
          · rintro ⟨rfl, j, m, hj, hm, rfl⟩
            rw [fails_of_comesTo (ih hbelow) hi hbefore he hj hm]

/-- The same for what feeds an input. -/
theorem answer_eq_deep_iff (g : Graph) (vars : Variables) (q : Request) (L : Nat) (id : NodeId)
    (L' : Nat) :
    g.answer vars (some L) q = .error (.depthExceeded id L')
      ↔ L' = L ∧ ∃ j n, g.Arrives vars q (L + 1) j ∧ g.node? j = some n ∧ n.id = id := by
  rw [answer_some]
  cases q with
  | value i port => exact answerAt_eq_deep_iff rfl
  | input i port =>
    cases hi : g.node? i with
    | none =>
      rw [answerAt_unknownNode hi]
      constructor
      · nofun
      · rintro ⟨-, j, -, ⟨n, _, _, hn, -⟩, -⟩
        rw [hi] at hn
        cases hn
    | some n =>
      cases hs : g.source? i port with
      | none =>
        rw [answerAt_unconnected hi hs]
        constructor
        · nofun
        · rintro ⟨-, j, -, ⟨_, s, _, -, hs', -⟩, -⟩
          rw [hs] at hs'
          cases hs'
      | some s =>
        rw [answerAt_fed hi hs, answerAt_eq_deep_iff (Nat.add_sub_add_right L 1 0)]
        refine and_congr_right fun _ => exists_congr fun j => exists_congr fun m => ?_
        refine and_congr_left fun _ => ⟨fun h => ⟨n, s, L, hi, hs, rfl, h⟩, ?_⟩
        rintro ⟨_, s', d, -, hs', hd, h⟩
        rw [hs] at hs'
        cases hs'
        cases hd
        exact h

/-! ## As many levels as nodes -/

/-- Whether an evaluation goes down so many levels. -/
def GoesDown (g : Graph) (vars : Variables) (room i : Nat) : Prop := ∃ j, g.ComesTo vars room i j

theorem goesDown_iff_cut (port : Int) :
    g.GoesDown vars room i ↔ Cut (g.answerAt vars room 1 (.value i port)) := by
  constructor
  · rintro ⟨j, hj⟩
    obtain ⟨n, hn⟩ := exists_node?_of_comesTo hj
    exact ⟨n.id, room, (answerAt_eq_deep_iff rfl).2 ⟨rfl, j, n, hj, hn, rfl⟩⟩
  · rintro ⟨id, L', h⟩
    obtain ⟨-, j, -, hj, -⟩ := (answerAt_eq_deep_iff rfl).1 h
    exact ⟨j, hj⟩

/-- An evaluation that goes down some levels goes down fewer. -/
theorem GoesDown.of_le {room' : Nat} (h : g.GoesDown vars room' i) (hle : room ≤ room') :
    g.GoesDown vars room i := by
  by_contra hnot
  rw [goesDown_iff_cut 0] at h hnot
  have hmore := (answers_answerAt g vars room 1 (.value i 0)).mono hnot
    (fun k hk => allows_some.2 (Nat.le_trans (allows_some.1 hk) hle))
  rw [hmore.eq_answerAt] at h
  exact hnot h

/-- Whether that many levels down is as far as an evaluation goes. -/
def Deepest (g : Graph) (vars : Variables) (room i : Nat) : Prop :=
  g.GoesDown vars room i ∧ ¬g.GoesDown vars (room + 1) i

theorem Deepest.unique {room' : Nat} (h : g.Deepest vars room i) (h' : g.Deepest vars room' i) :
    room = room' := by
  rcases Nat.lt_trichotomy room room' with hlt | heq | hgt
  · exact absurd (h'.1.of_le hlt) h.2
  · exact heq
  · exact absurd (h.1.of_le hgt) h'.2

/-- Below a node there is one whose evaluation goes down one level less. -/
theorem Deepest.below (h : g.Deepest vars (room + 1) i) : ∃ j, g.Deepest vars room j := by
  obtain ⟨⟨j, n, k, s, hi, hkind, hk, hs, hj, hfirst⟩, hnot⟩ := h
  refine ⟨s.node, ⟨j, hj⟩, ?_⟩
  -- If the input that leads down led further, so would the node.
  rintro ⟨j₁, hj₁⟩
  refine hnot ⟨j₁, n, k, s, hi, hkind, hk, hs, hj₁, fun m hm => ?_⟩
  obtain ⟨s', v, hs', hv, hnone⟩ := hfirst m hm
  refine ⟨s', v, hs', hv, fun j₂ hj₂ => ?_⟩
  obtain ⟨j₃, hj₃⟩ := GoesDown.of_le ⟨j₂, hj₂⟩ (Nat.le_succ room)
  exact hnone j₃ hj₃

theorem Deepest.exists_of_le (h : g.Deepest vars room i) {t : Nat} (ht : t ≤ room) :
    ∃ j, g.Deepest vars t j := by
  obtain ⟨d, rfl⟩ := Nat.exists_eq_add_of_le ht
  induction d generalizing i with
  | zero => exact ⟨i, h⟩
  | succ d ih =>
    obtain ⟨j, hj⟩ := h.below
    exact ih hj (Nat.le_add_right t d)

theorem lt_size_of_goesDown (h : g.GoesDown vars room i) : i < g.nodes.size := by
  obtain ⟨j, hj⟩ := h
  obtain ⟨n, hn⟩ := exists_node?_of_comesTo_from hj
  exact (Array.getElem?_eq_some_iff.1 hn).1

/-- An evaluation that ends has fewer levels than there are nodes: each level is the depth of the
evaluation of another node. -/
theorem lt_size_of_deepest (h : g.Deepest vars room i) : room < g.nodes.size := by
  have hat : ∀ t : Nat, ∃ j, t ≤ room → g.Deepest vars t j := by
    intro t
    by_cases ht : t ≤ room
    · obtain ⟨j, hj⟩ := h.exists_of_le ht
      exact ⟨j, fun _ => hj⟩
    · exact ⟨0, fun h => absurd h ht⟩
  choose p hp using hat
  have hmaps : Set.MapsTo p (Finset.range (room + 1)) (Finset.range g.nodes.size) := by
    intro t ht
    have ht : t ≤ room := Nat.lt_succ_iff.1 (Finset.mem_range.1 ht)
    exact Finset.mem_coe.2 (Finset.mem_range.2 (lt_size_of_goesDown (hp t ht).1))
  have hinj : Set.InjOn p (Finset.range (room + 1)) := by
    intro a ha b hb heq
    -- A node has one depth, so it stands for one level only.
    have ha : a ≤ room := Nat.lt_succ_iff.1 (Finset.mem_range.1 ha)
    have hb : b ≤ room := Nat.lt_succ_iff.1 (Finset.mem_range.1 hb)
    exact (hp a ha).unique (heq ▸ hp b hb)
  have hcard := Finset.card_le_card_of_injOn p hmaps hinj
  rwa [Finset.card_range, Finset.card_range] at hcard

/-- Where there is an answer without a limit, evaluation does not go down as many levels as there
are nodes. -/
theorem not_goesDown_of_answers (h : g.Answers vars none depth (.value i port) r) :
    ¬g.GoesDown vars g.nodes.size i := by
  intro hsize
  obtain ⟨height, hheight⟩ := h.eventually
  have hend : ¬g.GoesDown vars (height + 1) i := by
    have hr := hheight (height + 1) 1 (by omega)
    rw [goesDown_iff_cut port, hr.eq_answerAt]
    exact h.not_cut
  classical
  -- The first level it does not go down to lies right below the deepest.
  have hex : ∃ room, ¬g.GoesDown vars room i := ⟨_, hend⟩
  have hlast := Nat.find_spec hex
  obtain ⟨room, hroom⟩ : ∃ room, Nat.find hex = room + 1 := by
    refine Nat.exists_eq_succ_of_ne_zero fun h0 => ?_
    rw [h0] at hlast
    exact hlast (hsize.of_le (Nat.zero_le _))
  have hbefore : g.GoesDown vars room i := by
    by_contra hnot
    have := Nat.find_min' hex hnot
    omega
  rw [hroom] at hlast
  have hlt := lt_size_of_deepest ⟨hbefore, hlast⟩
  exact hlast (hsize.of_le hlt)

/-- The number of nodes stands in for a missing limit: it cuts off what has no answer without a
limit, and nothing else. -/
theorem answers_none_iff (g : Graph) (vars : Variables) (q : Request)
    (r : Except ProcessorError Value) :
    g.Answers vars none 0 q r ↔ g.answer vars none q = r ∧ ¬Cut r := by
  rw [answer_none]
  constructor
  · intro h
    have hnot : ¬Cut (g.answerAt vars g.nodes.size 0 q) := by
      cases q with
      | value i port =>
        rintro ⟨id, L', hcut⟩
        obtain ⟨-, j, -, hj, -⟩ := (answerAt_eq_deep_iff rfl).1 hcut
        exact not_goesDown_of_answers h (GoesDown.of_le ⟨j, hj⟩ (Nat.le_succ _))
      | input i port =>
        cases h with
        | unknownNode hi =>
          rw [answerAt_unknownNode hi]
          nofun
        | unconnected hi hs =>
          rw [answerAt_unconnected hi hs]
          nofun
        | fed hi hs h =>
          rw [answerAt_fed hi hs]
          rintro ⟨id, L', hcut⟩
          obtain ⟨-, j, -, hj, -⟩ :=
            (answerAt_eq_deep_iff (Nat.add_sub_add_right g.nodes.size 1 0)).1 hcut
          exact not_goesDown_of_answers h ⟨j, hj⟩
    exact ⟨(answers_none_of_not_cut hnot 0).unique h, h.not_cut⟩
  · rintro ⟨rfl, hnot⟩
    exact answers_none_of_not_cut hnot 0

/-! ## Processors that form no circle -/

/-- The positions of the processors. -/
def processors (g : Graph) : Finset Nat :=
  (Finset.range g.nodes.size).filter fun i => (g.node? i).any fun n => n.kind.isProcessor

/-- Whether one processor is what feeds an input of another. -/
def Uses (g : Graph) (i j : Nat) : Prop :=
  ∃ (n : Node) (k : Nat) (s : PortRef), g.node? i = some n ∧ k < n.layout.inputs
    ∧ g.source? i k = some s ∧ s.node = j ∧ i ∈ g.processors ∧ j ∈ g.processors

theorem mem_processors (hi : g.node? i = some n) (hkind : n.kind.isProcessor = true) :
    i ∈ g.processors := by
  rw [processors, Finset.mem_filter, Finset.mem_range, hi]
  exact ⟨(Array.getElem?_eq_some_iff.1 hi).1, hkind⟩

/-- Every level but the last is a processor that the one above uses. -/
theorem exists_way_of_comesTo (h : g.ComesTo vars (room + 1) i j) :
    ∃ p : Nat → Nat, p 0 = i ∧ (∀ t ≤ room, p t ∈ g.processors)
      ∧ ∀ t < room, g.Uses (p t) (p (t + 1)) := by
  induction room generalizing i with
  | zero =>
    obtain ⟨n, _, _, hi, hkind, -⟩ := h
    exact ⟨fun _ => i, rfl, fun _ _ => mem_processors hi hkind, nofun⟩
  | succ room ih =>
    obtain ⟨n, k, s, hi, hkind, hk, hs, hj, -⟩ := h
    obtain ⟨p, hp, hmem, huses⟩ := ih hj
    have hhere := mem_processors hi hkind
    refine ⟨fun t => t.casesOn i p, rfl, fun t ht => ?_, fun t ht => ?_⟩
    · cases t with
      | zero => exact hhere
      | succ t => exact hmem t (by omega)
    · cases t with
      | zero => exact ⟨n, k, s, hi, hk, hs, hp.symm, hhere, hmem 0 (Nat.zero_le room)⟩
      | succ t => exact huses t (by omega)

theorem lt_card_of_comesTo (hacyclic : Acyclic g.Uses) (h : g.ComesTo vars (room + 1) i j) :
    room < g.processors.card := by
  obtain ⟨p, -, hmem, huses⟩ := exists_way_of_comesTo h
  exact lt_card_of_acyclic hacyclic huses hmem

/-- A limit above the number of processors cuts nothing off, if they form no circle. -/
theorem not_cut_of_acyclic (hacyclic : Acyclic g.Uses) (hL : g.processors.card < L) (q : Request) :
    ¬Cut (g.answer vars (some L) q) := by
  rintro ⟨id, L', hcut⟩
  obtain ⟨-, j, -, hj, -⟩ := (answer_eq_deep_iff g vars q L id L').1 hcut
  cases q with
  | value i port =>
    have := lt_card_of_comesTo hacyclic hj
    omega
  | input i port =>
    obtain ⟨n, s, d, -, -, hd, hj⟩ := hj
    cases d with
    | zero => omega
    | succ d =>
      have := lt_card_of_comesTo hacyclic hj
      omega

/-! ## All together -/

/-- Pulling a value is strict evaluation from left to right, cut off at the limit and nowhere else.

Under a limit every request has exactly one answer, the one of the rules that heed it; without one,
the answer is that of the rules that know no limit wherever these have one. What a limit does not
cut off is that answer, and the answer under every larger limit. It cuts off, and names itself and
the node, exactly where evaluation comes to a node one level below it. If the processors form no
circle, a limit above their number cuts nothing off. -/
theorem answers_strictly (g : Graph) (vars : Variables) (q : Request) (L : Nat) :
    (∀ r, g.Answers vars (some L) 0 q r ↔ g.answer vars (some L) q = r)
      ∧ (∀ r, g.Answers vars none 0 q r ↔ g.answer vars none q = r ∧ ¬Cut r)
      ∧ (Cut (g.answer vars (some L) q)
          ∨ g.Answers vars none 0 q (g.answer vars (some L) q)
            ∧ ∀ L' ≥ L, g.answer vars (some L') q = g.answer vars (some L) q)
      ∧ (∀ id L', g.answer vars (some L) q = .error (.depthExceeded id L')
          ↔ L' = L ∧ ∃ j n, g.Arrives vars q (L + 1) j ∧ g.node? j = some n ∧ n.id = id)
      ∧ (Acyclic g.Uses → g.processors.card < L → ¬Cut (g.answer vars (some L) q)) := by
  refine ⟨fun r => ?_, answers_none_iff g vars q, ?_, answer_eq_deep_iff g vars q L,
    fun hacyclic hL => not_cut_of_acyclic hacyclic hL q⟩
  · rw [answer_some, answers_iff]
  · rw [answer_some]
    by_cases hcut : Cut (g.answerAt vars L 0 q)
    · exact .inl hcut
    · refine .inr ⟨answers_none_of_not_cut hcut 0, fun L' hL => ?_⟩
      have hmore := (answers_answerAt g vars L 0 q).mono hcut
        (fun k hk => allows_some.2 (Nat.le_trans (allows_some.1 hk) hL))
      rw [answer_some, hmore.eq_answerAt]

end Graph

end BranchingDialogue
