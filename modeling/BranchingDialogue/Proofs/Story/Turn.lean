import BranchingDialogue.Proofs.Story.Passing
import BranchingDialogue.Story.Walk

/-!
# Turns of a walk

At each node a walk fails, moves on to a further node, or comes to rest. `turn` says which, and
`Walker.stretch_succ` that a stretch is nothing but turns in a row. What is proved of stretches is
proved by induction on the room they have, with one case a kind of turn; what is proved of runs, by
`Walker.run_induction`, for the first stretch and for each that is resumed.
-/

namespace BranchingDialogue

variable {α : Type}

/-- What a walk does where it has come to. -/
inductive Turn (α : Type) where
  | fails (e : WalkError α)
  /-- Goes on to a further node. -/
  | moves (clip : Option (Clip α)) (next : Nat) (s : Situation α)
  /-- The flow has ended, or a choice has to be made. -/
  | rests (clip : Option (Clip α)) (outcome : Outcome α) (s : Situation α)

/-- Where a turn leads, but for when; nowhere if it is the last one. -/
def Turn.place? : Turn α → Option (Nat × Variables)
  | .moves _ next s => some (next, s.variables)
  | _ => none

theorem outcome_of_suspension? {walk : Walk α} {waiting : Suspension α}
    (h : walk.suspension? = some waiting) : walk.outcome = .suspended waiting := by
  obtain ⟨clips, outcome, seed⟩ := walk
  cases outcome with
  | finished => cases h
  | suspended other =>
    cases h
    rfl

variable [Scalar α]

/-- What a walk does at the node it has come to. -/
def turn (r : Runtime α) (g : Graph) (index : Nat) (s : Situation α) : Turn α :=
  match g.node? index with
  | none => .fails (.unknownNode index)
  | some n =>
    match n.pass r g index s with
    | .error e => .fails e
    | .ok p =>
      match p.onward with
      | .along output =>
        match g.follow? index output with
        | some next => .moves p.clip next p.situation
        | none => .rests p.clip .finished p.situation
      | .choose [] => .rests p.clip .finished p.situation
      | .choose options =>
        let waiting : Suspension α :=
          ⟨index, n.id, n.kind, options, p.situation.moment, p.situation.variables⟩
        .rests p.clip (.suspended waiting) p.situation

variable {r : Runtime α} {g : Graph} {index : Nat} {s : Situation α}

/-- A walk moves on along the edge of the output by which it leaves the node. -/
theorem turn_eq_moves_iff {clip : Option (Clip α)} {next : Nat} {s' : Situation α} :
    turn r g index s = .moves clip next s'
      ↔ ∃ n p output, g.node? index = some n ∧ n.Passes r g index s p ∧ p.onward = .along output
          ∧ g.follow? index output = some next ∧ p.clip = clip ∧ p.situation = s' := by
  constructor
  · intro h
    rw [turn] at h
    split at h
    · cases h
    · next n hn =>
      split at h
      · cases h
      · next p hpass =>
        split at h
        · next output honward =>
          split at h
          · next next hnext =>
            cases h
            exact ⟨n, p, output, hn, Node.pass_eq_ok_iff.1 hpass, honward, hnext, rfl, rfl⟩
          · cases h
        · cases h
        · cases h
  · rintro ⟨n, p, output, hn, hpass, honward, hnext, rfl, rfl⟩
    simp only [turn, hn, hpass.pass_eq, honward, hnext]

/-- Where a walk comes to rest, it has passed the node it had come to. -/
theorem exists_passes_of_rests {clip : Option (Clip α)} {outcome : Outcome α} {s' : Situation α}
    (h : turn r g index s = .rests clip outcome s') :
    ∃ n p, g.node? index = some n ∧ n.Passes r g index s p ∧ p.clip = clip ∧ p.situation = s' := by
  rw [turn] at h
  split at h
  · cases h
  · next n hn =>
    split at h
    · cases h
    · next p hpass =>
      refine ⟨n, p, hn, Node.pass_eq_ok_iff.1 hpass, ?_⟩
      split at h
      · split at h
        · cases h
        · cases h
          exact ⟨rfl, rfl⟩
      · cases h
        exact ⟨rfl, rfl⟩
      · cases h
        exact ⟨rfl, rfl⟩

/-- Where a walk rests for a choice, it can be gone on with: the suspension holds the node it has
come to and the situation it is in. -/
theorem suspension_of_turn {clip : Option (Clip α)} {waiting : Suspension α} {s' : Situation α}
    (h : turn r g index s = .rests clip (.suspended waiting) s') :
    waiting.node = index ∧ (g.node? index).map (·.id) = some waiting.nodeId
      ∧ waiting.moment = s'.moment ∧ waiting.variables = s'.variables := by
  rw [turn] at h
  split at h
  · cases h
  · next n hn =>
    split at h
    · cases h
    · split at h
      · split at h <;> cases h
      · cases h
      · cases h
        exact ⟨rfl, by rw [hn, Option.map_some], rfl, rfl⟩

/-- Turns do not fail for the length of the walk. -/
theorem turn_ne_depthExceeded {id : NodeId} {limit : Nat} :
    turn r g index s ≠ .fails (.depthExceeded id limit) := by
  intro h
  rw [turn] at h
  split at h
  · cases h
  · split at h
    · next he =>
      cases h
      exact Node.pass_ne_depthExceeded he
    · split at h
      · split at h <;> cases h
      · cases h
      · cases h

theorem node?_of_turn {place : Nat × Variables} (h : (turn r g index s).place? = some place) :
    ∃ n, g.node? index = some n := by
  cases hturn : turn r g index s with
  | moves clip next s' =>
    obtain ⟨n, -, -, hn, -⟩ := turn_eq_moves_iff.1 hturn
    exact ⟨n, hn⟩
  | _ =>
    rw [hturn] at h
    cases h

theorem place?_turn_of_eq {place : Nat × Variables} (m : Moment α)
    (h : (turn r g index s).place? = some place) :
    (turn r g index ⟨m, s.variables⟩).place? = some place := by
  cases hturn : turn r g index s with
  | moves clip next s' =>
    obtain ⟨n, p, output, hn, hpass, honward, hnext, -, rfl⟩ := turn_eq_moves_iff.1 hturn
    obtain ⟨q, hq, hcontrol⟩ := hpass.exists_control_eq m
    rw [Passage.control, Passage.control, Prod.mk.injEq, honward] at hcontrol
    rw [hturn] at h
    rw [turn_eq_moves_iff.2 ⟨n, q, output, hn, hq, hcontrol.1, hnext, rfl, rfl⟩, ← h, Turn.place?,
      Turn.place?, hcontrol.2]
  | _ =>
    rw [hturn] at h
    cases h

/-- **Where a turn leads does not depend on when it is taken.** -/
theorem place?_turn (s : Situation α) (m : Moment α) :
    (turn r g index s).place? = (turn r g index ⟨m, s.variables⟩).place? := by
  apply Option.ext
  intro place
  exact ⟨place?_turn_of_eq m, place?_turn_of_eq (s := ⟨m, s.variables⟩) s.moment⟩

namespace Walker

variable {w : Walker α} {limit : Nat} {clips : Array (Clip α)}

theorem stretch_zero :
    w.stretch limit 0 index s clips
      = match w.graph.node? index with
        | none => .error (.unknownNode index)
        | some n => .error (.depthExceeded n.id limit) := by
  unfold stretch
  rfl

/-- A stretch with room takes a turn and goes on from where it leads. -/
theorem stretch_succ (room : Nat) :
    w.stretch limit (room + 1) index s clips
      = match turn w.runtime w.graph index s with
        | .fails e => .error e
        | .moves clip next s => w.stretch limit room next s (clips ++ clip.toArray)
        | .rests clip outcome s => .ok ⟨(clips ++ clip.toArray).toList, outcome, s.variables⟩ := by
  rw [stretch, turn]
  cases w.graph.node? index with
  | none => rfl
  | some n =>
    simp only
    cases n.pass w.runtime w.graph index s with
    | error e => rfl
    | ok p =>
      obtain ⟨situation, clip, onward⟩ := p
      cases onward with
      | along output =>
        simp only
        cases w.graph.follow? index output <;> cases clip <;> simp
      | choose options => cases options <;> cases clip <;> simp

theorem answer_induction {P : Walk α → Prop}
    (hresume : ∀ walk waiting option next, P walk → walk.outcome = .suspended waiting →
      w.resume waiting option = .ok next → P (walk.append next))
    {options : List Nat} {walk walk' : Walk α} (hwalk : P walk)
    (h : w.answer walk options = .ok walk') : P walk' := by
  induction options generalizing walk with
  | nil =>
    cases h
    exact hwalk
  | cons option options ih =>
    rw [answer] at h
    cases hs : walk.suspension? with
    | none =>
      rw [hs] at h
      cases h
      exact hwalk
    | some waiting =>
      rw [hs] at h
      simp only at h
      split at h
      · cases h
      · next next hnext =>
        exact ih (hresume walk waiting option next hwalk (outcome_of_suspension? hs) hnext) h

/-- What holds of the first stretch, and goes on to hold when one more is added, holds of a run. -/
theorem run_induction {P : Walk α → Prop} {entry : String} {options : List Nat} {walk : Walk α}
    (hstart : ∀ walk, w.start entry = .ok walk → P walk)
    (hresume : ∀ walk waiting option next, P walk → walk.outcome = .suspended waiting →
      w.resume waiting option = .ok next → P (walk.append next))
    (h : w.run entry options = .ok walk) : P walk := by
  rw [run] at h
  split at h
  · cases h
  · next walk hwalk => exact answer_induction hresume (hstart walk hwalk) h

end Walker

end BranchingDialogue
