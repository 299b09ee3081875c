import BranchingDialogue.Proofs.Story.Bound

/-!
# Walks in one loop

`oneLoop` walks a graph from beginning to end: it knows all picks beforehand, so at a choice it
goes straight on, with the moment and the variables it has. Nothing is saved and nothing restored,
no stretch is counted. `Walker.run` instead ends a stretch at every choice, saves where it is, and
starts anew. Both give the same clips, outcome, variables and errors.

Main results:
- `returns_iff_of_stretch`: one stretch of the walker is a part of the loop.
- `goesOn_iff_answer`: so are all of them, one after the other.
- `run_eq_oneLoop`: a run that no limit stops gives what the loop gives; and without a limit, the
  loop returns exactly when the run ends.
-/

namespace BranchingDialogue

variable {α : Type} [Scalar α]

/-- Walks from a node with all picks at hand; nothing if there is not enough fuel to come to an
end. -/
def oneLoop (r : Runtime α) (g : Graph) :
    Nat → List Nat → Nat → Situation α → List (Clip α) → Option (Except (WalkError α) (Walk α))
  | 0, _, _, _, _ => none
  | fuel + 1, options, index, s, clips =>
    match g.node? index with
    | none => some (.error (.unknownNode index))
    | some n =>
      match n.pass r g index s with
      | .error e => some (.error e)
      | .ok p =>
        let clips := clips ++ p.clip.toList
        let ended : Walk α := ⟨clips, .finished, p.situation.variables⟩
        match p.onward, options with
        | .along output, options =>
          match g.follow? index output with
          | some next => oneLoop r g fuel options next p.situation clips
          | none => some (.ok ended)
        | .choose [], _ => some (.ok ended)
        | .choose offered, [] =>
          let waiting : Suspension α :=
            ⟨index, n.id, n.kind, offered, p.situation.moment, p.situation.variables⟩
          some (.ok ⟨clips, .suspended waiting, p.situation.variables⟩)
        | .choose offered, option :: options =>
          if offered.length ≤ option then some (.error (.invalidOption n.id option offered.length))
          else
            match g.follow? index option with
            | some next => oneLoop r g fuel options next p.situation clips
            | none => some (.ok ended)

/-- What the loop comes to, if it ends. -/
def Returns (r : Runtime α) (g : Graph) (options : List Nat) (index : Nat) (s : Situation α)
    (clips : List (Clip α)) (result : Except (WalkError α) (Walk α)) : Prop :=
  ∃ fuel, oneLoop r g fuel options index s clips = some result

/-- What the loop comes to from an entry, if it ends. -/
def Tells (r : Runtime α) (g : Graph) (seed : Variables) (entry : String) (options : List Nat)
    (result : Except (WalkError α) (Walk α)) : Prop :=
  match g.entry? entry with
  | none => result = .error (.missingEntry entry)
  | some index => Returns r g options index ⟨.origin, seed⟩ [] result

/-- The walk was stopped because a stretch was too long. -/
def TooLong (result : Except (WalkError α) (Walk α)) : Prop :=
  ∃ id limit, result = .error (.depthExceeded id limit)

/-- How the loop goes on where a stretch has ended. -/
def GoesOn (r : Runtime α) (g : Graph) (options : List Nat) (walk : Walk α)
    (result : Except (WalkError α) (Walk α)) : Prop :=
  match walk.outcome, options with
  | .suspended s, option :: options =>
    if s.options.length ≤ option then
      result = .error (.invalidOption s.nodeId option s.options.length)
    else
      match g.follow? s.node option with
      | some next => Returns r g options next ⟨s.moment, s.variables⟩ walk.clips result
      | none => result = .ok ⟨walk.clips, .finished, s.variables⟩
  | _, _ => result = .ok walk

/-! ## One stretch -/

variable {r : Runtime α} {g : Graph} {options : List Nat} {index : Nat} {s : Situation α}
  {clips : List (Clip α)} {result : Except (WalkError α) (Walk α)}

theorem returns_iff_succ :
    Returns r g options index s clips result
      ↔ ∃ fuel, oneLoop r g (fuel + 1) options index s clips = some result := by
  constructor
  · rintro ⟨fuel, h⟩
    cases fuel with
    | zero => cases h
    | succ fuel => exact ⟨fuel, h⟩
  · rintro ⟨fuel, h⟩
    exact ⟨fuel + 1, h⟩

/-- The loop takes a turn and goes on from where it leads. -/
theorem returns_iff_turn :
    Returns r g options index s clips result
      ↔ match turn r g index s with
        | .fails e => result = .error e
        | .moves clip next s => Returns r g options next s (clips ++ clip.toList) result
        | .rests clip outcome s =>
          GoesOn r g options ⟨clips ++ clip.toList, outcome, s.variables⟩ result := by
  rw [returns_iff_succ, turn]
  cases hn : g.node? index with
  | none =>
    simp only [oneLoop, hn, Option.some.injEq, exists_const]
    exact eq_comm
  | some n =>
    cases hpass : n.pass r g index s with
    | error e =>
      simp only [oneLoop, hn, hpass, Option.some.injEq, exists_const]
      exact eq_comm
    | ok p =>
      cases honward : p.onward with
      | along output =>
        cases hnext : g.follow? index output with
        | some next =>
          simp only [oneLoop, hn, hpass, honward, hnext]
          exact Iff.rfl
        | none =>
          simp only [oneLoop, hn, hpass, honward, hnext, Option.some.injEq, exists_const, GoesOn]
          exact eq_comm
      | choose offered =>
        -- The picks matter only where there is something to pick from.
        cases offered with
        | nil =>
          simp only [oneLoop, hn, hpass, honward, Option.some.injEq, exists_const, GoesOn]
          exact eq_comm
        | cons text texts =>
          cases options with
          | nil =>
            simp only [oneLoop, hn, hpass, honward, Option.some.injEq, exists_const, GoesOn]
            exact eq_comm
          | cons option options =>
            simp only [oneLoop, hn, hpass, honward, GoesOn]
            split
            · simp only [Option.some.injEq, exists_const]
              exact eq_comm
            · cases g.follow? index option with
              | some next => exact Iff.rfl
              | none =>
                simp only [Option.some.injEq, exists_const]
                exact eq_comm

/-- One stretch of a walker is a part of the loop. -/
theorem returns_iff_of_stretch {w : Walker α} {limit room : Nat} {clips : Array (Clip α)}
    (h : ¬TooLong (w.stretch limit room index s clips)) :
    Returns w.runtime w.graph options index s clips.toList result
      ↔ match w.stretch limit room index s clips with
        | .error e => result = .error e
        | .ok walk => GoesOn w.runtime w.graph options walk result := by
  induction room generalizing index s clips with
  | zero =>
    rw [Walker.stretch_zero] at h ⊢
    cases hn : w.graph.node? index with
    | none =>
      rw [returns_iff_turn, turn]
      simp only [hn]
    | some n =>
      rw [hn] at h
      exact absurd ⟨n.id, limit, rfl⟩ h
  | succ room ih =>
    rw [Walker.stretch_succ] at h ⊢
    rw [returns_iff_turn]
    cases hturn : turn w.runtime w.graph index s with
    | fails e => exact Iff.rfl
    | moves clip next s' =>
      rw [hturn] at h
      simp only
      rw [← ih h, Array.toList_append, Option.toList_toArray]
    | rests clip outcome s' =>
      simp only
      rw [Array.toList_append, Option.toList_toArray]

theorem oneLoop_of_moves {clip : Option (Clip α)} {next : Nat} {s' : Situation α}
    (h : turn r g index s = .moves clip next s') (fuel : Nat) :
    oneLoop r g (fuel + 1) options index s clips
      = oneLoop r g fuel options next s' (clips ++ clip.toList) := by
  obtain ⟨n, p, output, hn, hpass, honward, hnext, rfl, rfl⟩ := turn_eq_moves_iff.1 h
  simp only [oneLoop, hn, hpass.pass_eq, honward, hnext]

/-- The loop does not end where turns go on for ever. -/
theorem not_returns_of_total
    (h : ∀ k, (orbit (g.advance? r) (index, s.variables) k).isSome = true) :
    ¬Returns r g options index s clips result := by
  -- Every turn moves on, so any fuel is used up.
  have hnone : ∀ fuel, oneLoop r g fuel options index s clips = none := by
    intro fuel
    induction fuel generalizing index s clips with
    | zero => rfl
    | succ fuel ih =>
      have hfirst := h 1
      rw [orbit_succ', Graph.advance?_eq] at hfirst
      cases hturn : turn r g index s with
      | moves clip next s' =>
        rw [oneLoop_of_moves hturn]
        refine ih fun k => ?_
        have hlater := h (k + 1)
        rw [orbit_succ', Graph.advance?_eq, hturn] at hlater
        exact hlater
      | _ =>
        rw [hturn] at hfirst
        cases hfirst
  rintro ⟨fuel, hfuel⟩
  rw [hnone fuel] at hfuel
  cases hfuel

/-- Without a limit, a stretch that is too long is one that never ends. -/
theorem not_returns_of_tooLong {w : Walker α} (hoff : w.runtime.settings.walkDepth = none)
    (h : TooLong (w.walkFrom index s)) :
    ¬Returns w.runtime w.graph options index s clips result := by
  obtain ⟨id, limit, h⟩ := h
  rw [Walker.walkFrom, Walker.stretchLimit, hoff, Option.getD_none] at h
  obtain ⟨-, place, n, hplace, hn, -⟩ := Walker.stretch_eq_depthExceeded_iff.1 h
  exact not_returns_of_total (Graph.orbit_total_of_bound (Nat.le_refl _) hplace hn)

/-! ## Stretches in a row -/

/-- Clips given before a stretch only stand before those it gives. -/
theorem stretch_append (w : Walker α) (limit room index : Nat) (s : Situation α)
    (before clips : Array (Clip α)) :
    w.stretch limit room index s (before ++ clips)
      = (w.stretch limit room index s clips).map fun walk =>
          { walk with clips := before.toList ++ walk.clips } := by
  induction room generalizing index s clips with
  | zero =>
    rw [Walker.stretch_zero, Walker.stretch_zero]
    cases w.graph.node? index with
    | none => rfl
    | some n => rfl
  | succ room ih =>
    rw [Walker.stretch_succ, Walker.stretch_succ]
    cases turn w.runtime w.graph index s with
    | fails e => rfl
    | moves clip next s' =>
      simp only
      rw [Array.append_assoc, ih]
    | rests clip outcome s' =>
      simp only [Except.map, Array.append_assoc, Array.toList_append]

/-- A stretch waits at a node of the graph. -/
theorem nodeId_of_stretch {w : Walker α} {limit room : Nat} {clips : Array (Clip α)} {walk : Walk α}
    {waiting : Suspension α} (h : w.stretch limit room index s clips = .ok walk)
    (hwaiting : walk.outcome = .suspended waiting) :
    (w.graph.node? waiting.node).map (·.id) = some waiting.nodeId := by
  induction room generalizing index s clips with
  | zero =>
    rw [Walker.stretch_zero] at h
    split at h <;> cases h
  | succ room ih =>
    rw [Walker.stretch_succ] at h
    cases hturn : turn w.runtime w.graph index s with
    | fails e =>
      rw [hturn] at h
      cases h
    | moves clip next s' =>
      rw [hturn] at h
      exact ih h
    | rests clip outcome s' =>
      rw [hturn] at h
      cases h
      simp only at hwaiting
      subst hwaiting
      obtain ⟨rfl, hid, -⟩ := suspension_of_turn hturn
      exact hid

omit [Scalar α] in
theorem not_tooLong_ok {walk : Walk α} : ¬TooLong (.ok walk) := by
  rintro ⟨id, limit, ⟨⟩⟩

theorem goesOn_finished {walk : Walk α} (h : walk.suspension? = none) :
    GoesOn r g options walk result ↔ result = .ok walk := by
  obtain ⟨clips, outcome, seed⟩ := walk
  cases outcome with
  | finished => simp only [GoesOn]
  | suspended waiting => cases h

theorem goesOn_nil {walk : Walk α} : GoesOn r g [] walk result ↔ result = .ok walk := by
  obtain ⟨clips, outcome, seed⟩ := walk
  cases outcome <;> simp only [GoesOn]

/-- A walk that waits, waits at a node of the graph. -/
def WaitsIn (g : Graph) (walk : Walk α) : Prop :=
  ∀ waiting, walk.outcome = .suspended waiting →
    (g.node? waiting.node).map (·.id) = some waiting.nodeId

/-- What the loop comes to where one more stretch follows a walk. A stretch that is too long is none
from which the loop comes to an end. -/
def Joins (r : Runtime α) (g : Graph) (options : List Nat) (walk : Walk α)
    (stretch result : Except (WalkError α) (Walk α)) : Prop :=
  match stretch with
  | .error e => result = .error e ∧ ¬TooLong result
  | .ok next => GoesOn r g options (walk.append next) result

theorem joins_of_tooLong {walk : Walk α} {stretch : Except (WalkError α) (Walk α)}
    (h : TooLong stretch) : ¬Joins r g options walk stretch result := by
  obtain ⟨id, limit, rfl⟩ := h
  rintro ⟨rfl, hshort⟩
  exact hshort ⟨id, limit, rfl⟩

/-- From where a stretch begins, the loop does what the stretch does, and then goes on. -/
theorem returns_iff_of_walkFrom {w : Walker α} (walk : Walk α)
    (h : TooLong (w.walkFrom index s) → w.runtime.settings.walkDepth = none) :
    Returns w.runtime w.graph options index s walk.clips result
      ↔ Joins w.runtime w.graph options walk (w.walkFrom index s) result := by
  by_cases hlong : TooLong (w.walkFrom index s)
  · exact ⟨fun hreturns => absurd hreturns (not_returns_of_tooLong (h hlong) hlong),
      fun hjoins => absurd hjoins (joins_of_tooLong hlong)⟩
  · -- The stretch begins without clips; those of the walk are put in front of what it gives.
    have happend := stretch_append w (w.stretchLimit s.variables) (w.stretchLimit s.variables)
      index s walk.clips.toArray #[]
    have hclips : walk.clips = (walk.clips.toArray ++ #[]).toList := by simp
    rw [Walker.walkFrom] at hlong ⊢
    cases hs : w.stretch (w.stretchLimit s.variables) (w.stretchLimit s.variables) index s #[] with
    | error e =>
      rw [hs] at happend hlong
      rw [hclips, returns_iff_of_stretch (by rwa [happend]), happend]
      refine ⟨fun heq => ⟨heq, by rwa [heq]⟩, fun hjoins => hjoins.1⟩
    | ok next =>
      rw [hs] at happend
      rw [hclips, returns_iff_of_stretch (by rw [happend]; exact not_tooLong_ok), happend]
      exact Iff.rfl

theorem resume_eq {w : Walker α} {waiting : Suspension α}
    (hnode : (w.graph.node? waiting.node).map (·.id) = some waiting.nodeId) (option : Nat) :
    w.resume waiting option
      = if waiting.options.length ≤ option then
          .error (.invalidOption waiting.nodeId option waiting.options.length)
        else
          match w.graph.follow? waiting.node option with
          | some next => w.walkFrom next ⟨waiting.moment, waiting.variables⟩
          | none => .ok ⟨[], .finished, waiting.variables⟩ := by
  unfold Walker.resume
  exact if_neg fun hne => hne hnode

/-- **Resuming a waiting walk does what the loop does at its choice.** -/
theorem goesOn_iff_resume {w : Walker α} {walk : Walk α} {waiting : Suspension α}
    (hwaiting : walk.outcome = .suspended waiting) (hwalk : WaitsIn w.graph walk) {option : Nat}
    (h : TooLong (w.resume waiting option) → w.runtime.settings.walkDepth = none) :
    GoesOn w.runtime w.graph (option :: options) walk result
      ↔ Joins w.runtime w.graph options walk (w.resume waiting option) result := by
  rw [resume_eq (hwalk waiting hwaiting)] at h ⊢
  simp only [GoesOn, hwaiting]
  split
  · refine ⟨fun heq => ⟨heq, ?_⟩, fun hjoins => hjoins.1⟩
    rw [heq]
    rintro ⟨id, limit, ⟨⟩⟩
  · next hoption =>
    rw [if_neg hoption] at h
    cases hnext : w.graph.follow? waiting.node option with
    | none => simp [Joins, GoesOn, Walk.append]
    | some next =>
      rw [hnext] at h
      exact returns_iff_of_walkFrom walk h

theorem waitsIn_of_walkFrom {w : Walker α} (walk : Walk α) {next : Walk α}
    (h : w.walkFrom index s = .ok next) : WaitsIn w.graph (walk.append next) :=
  fun _ hwaiting => nodeId_of_stretch h hwaiting

theorem waitsIn_of_resume {w : Walker α} {waiting : Suspension α} {option : Nat}
    {walk next : Walk α} (h : w.resume waiting option = .ok next) :
    WaitsIn w.graph (walk.append next) := by
  rw [Walker.resume] at h
  split at h
  · cases h
  · split at h
    · cases h
    · split at h
      · exact waitsIn_of_walkFrom walk h
      · cases h
        intro _ hwaiting
        cases hwaiting

/-! ## A whole run -/

/-- All stretches together are the loop. -/
theorem goesOn_iff_answer {w : Walker α} {walk : Walk α} (hwalk : WaitsIn w.graph walk)
    (h : TooLong (w.answer walk options) → w.runtime.settings.walkDepth = none) :
    GoesOn w.runtime w.graph options walk result
      ↔ w.answer walk options = result ∧ ¬TooLong result := by
  have hend : ∀ {walk : Walk α},
      (result = .ok walk ↔ Except.ok walk = result ∧ ¬TooLong result) := by
    refine ⟨fun heq => ⟨heq.symm, ?_⟩, fun heq => heq.1.symm⟩
    rw [heq]
    exact not_tooLong_ok
  induction options generalizing walk with
  | nil =>
    rw [goesOn_nil, Walker.answer]
    exact hend
  | cons option options ih =>
    rw [Walker.answer] at h ⊢
    cases hs : walk.suspension? with
    | none =>
      rw [goesOn_finished hs]
      exact hend
    | some waiting =>
      rw [hs] at h
      simp only at h ⊢
      cases hresume : w.resume waiting option with
      | error e =>
        rw [hresume] at h
        rw [goesOn_iff_resume (outcome_of_suspension? hs) hwalk (by rwa [hresume]), hresume, Joins,
          eq_comm]
      | ok next =>
        -- One pick is used up, and the longer walk waits in the graph again.
        rw [hresume] at h
        rw [goesOn_iff_resume (outcome_of_suspension? hs) hwalk
          (by rw [hresume]; exact fun hlong => absurd hlong not_tooLong_ok), hresume]
        exact ih (waitsIn_of_resume hresume) h

/-! ### Resuming elsewhere -/

theorem stretch_eq_of_same (r : Runtime α) (g : Graph) (seed seed' : Variables)
    (limit room : Nat) (clips : Array (Clip α)) :
    (⟨r, g, seed⟩ : Walker α).stretch limit room index s clips
      = (⟨r, g, seed'⟩ : Walker α).stretch limit room index s clips := by
  induction room generalizing index s clips with
  | zero => rw [Walker.stretch_zero, Walker.stretch_zero]
  | succ room ih =>
    rw [Walker.stretch_succ, Walker.stretch_succ]
    cases turn r g index s with
    | moves clip next s' => exact ih _
    | _ => rfl

/-- A walker's own variables have no influence on how a suspension is resumed. -/
theorem resume_eq_of_same (r : Runtime α) (g : Graph) (seed seed' : Variables)
    (waiting : Suspension α) (option : Nat) :
    (⟨r, g, seed⟩ : Walker α).resume waiting option
      = (⟨r, g, seed'⟩ : Walker α).resume waiting option := by
  rw [Walker.resume, Walker.resume]
  simp only [Walker.walkFrom, Walker.stretchLimit]
  split
  · rfl
  · split
    · rfl
    · split
      · exact stretch_eq_of_same r g seed seed' _ _ _
      · rfl

/-- **Suspending and resuming is invisible.** Where there is no limit on the length of a stretch,
or where it is never reached, a run gives the result of the one loop that knows all picks
beforehand: the same clips, outcome and variables, or the same error; and it fails to give a result
of its own exactly when the loop does not end. Resuming depends on the runtime, the graph, the
suspension and the option alone. -/
theorem run_eq_oneLoop (w : Walker α) (entry : String) (options : List Nat) :
    (w.runtime.settings.walkDepth = none ∨ ¬TooLong (w.run entry options) →
        ∀ result, Tells w.runtime w.graph w.variables entry options result
          ↔ w.run entry options = result ∧ ¬TooLong result)
      ∧ ∀ (seed : Variables) (waiting : Suspension α) (option : Nat),
          (⟨w.runtime, w.graph, seed⟩ : Walker α).resume waiting option
            = w.resume waiting option := by
  refine ⟨fun hguard result => ?_, fun seed waiting option =>
    resume_eq_of_same w.runtime w.graph seed w.variables waiting option⟩
  have hoff : TooLong (w.run entry options) → w.runtime.settings.walkDepth = none :=
    fun hlong => hguard.resolve_right fun hshort => hshort hlong
  rw [Walker.run, Walker.start] at hoff ⊢
  rw [Tells]
  cases hentry : w.graph.entry? entry with
  | none =>
    refine ⟨fun heq => ⟨heq.symm, ?_⟩, fun heq => heq.1.symm⟩
    rw [heq]
    rintro ⟨id, limit, ⟨⟩⟩
  | some index =>
    rw [hentry] at hoff
    simp only at hoff ⊢
    have hstart (h : TooLong (w.walkFrom index ⟨.origin, w.variables⟩) →
          w.runtime.settings.walkDepth = none) :
        Returns w.runtime w.graph options index ⟨.origin, w.variables⟩ [] result
          ↔ Joins w.runtime w.graph options ⟨[], .finished, w.variables⟩
              (w.walkFrom index ⟨.origin, w.variables⟩) result :=
      returns_iff_of_walkFrom ⟨[], .finished, w.variables⟩ h
    cases hwalk : w.walkFrom index ⟨.origin, w.variables⟩ with
    | error e =>
      rw [hwalk] at hstart hoff
      rw [hstart hoff, Joins, eq_comm]
    | ok walk =>
      rw [hwalk] at hstart hoff
      rw [hstart fun hlong => absurd hlong not_tooLong_ok]
      exact goesOn_iff_answer (waitsIn_of_walkFrom ⟨[], .finished, w.variables⟩ hwalk) hoff

end BranchingDialogue
