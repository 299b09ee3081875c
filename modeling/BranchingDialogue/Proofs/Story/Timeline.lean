import BranchingDialogue.Proofs.Exact
import BranchingDialogue.Proofs.Story.Turn
import BranchingDialogue.Runtime
import Mathlib.Data.List.Induction
import Mathlib.Tactic.Linarith

/-!
# The time line of a walk

Of all the clips it has given a walk keeps a single moment. Over exact numbers that is enough: the
moment starts where the last clip with a place of its own starts, and it ends where the latest of
all clips ends (`Timeline`). Neither markers nor actions disturb this, in whatever order they come,
and neither do suspensions, which carry the moment over to the next stretch.

Main results:
- `Node.Passes.timeline`: passing a node keeps the time line;
- `timeline_of_stretch`, `timeline_of_answer`: so do stretches, and stretches in a row;
- `timeline_of_run`: what that says of the clips of a run.
-/

namespace BranchingDialogue

/-! ## Where clips belong -/

/-- Whether clips of a kind have a place of their own: what is said, offered or blended. A marker
takes no time, and an action runs beside another clip. -/
def ClipKind.isLead : ClipKind → Bool
  | .dialogue | .choice | .blend => true
  | .action | .marker => false

/-- When the last of some clips that have a place of their own starts; zero if there is none. -/
def Clip.lastLead (clips : List (Clip ℚ)) : ℚ :=
  (((clips.filter fun c => c.kind.isLead).getLast?).map (·.startTime)).getD 0

/-- How long after the clip it runs beside an action starts. -/
def Node.delay (n : Node) : ℚ := durationOr Scalar.zero (n.payload.scalar? "delay")

/-- A clip has its place after the clips before it: it starts when the latest of them ends, or, if
it is an action, after its delay beside the last of them that has a place of its own. -/
structure Clip.Follows (g : Graph) (before : List (Clip ℚ)) (c : Clip ℚ) : Prop where
  duration_nonneg : 0 ≤ c.duration
  duration_marker : c.kind = .marker → c.duration = 0
  start_eq : c.kind ≠ .action → c.startTime = Clip.lastEnd before
  action_start_eq : c.kind = .action →
    ∃ n ∈ g.nodes, n.id = c.node ∧ 0 ≤ n.delay ∧ c.startTime = Clip.lastLead before + n.delay

/-- Clips, each in its place, and the moment after them. -/
structure Timeline (g : Graph) (clips : List (Clip ℚ)) (m : Moment ℚ) : Prop where
  follows : ∀ before c after, clips = before ++ c :: after → c.Follows g before
  moment_eq : m = clips.foldl Moment.advance .origin
  start_eq : m.startTime = Clip.lastLead clips
  end_eq : m.endTime = Clip.lastEnd clips

/-! ## Exact times -/

/-- No duration is negative, whatever takes the place of one that is missing. -/
theorem durationOr_nonneg (fallback : ℚ) (x : Option ℚ) : 0 ≤ durationOr fallback x := by
  rw [durationOr, max_exact, zero_exact]
  exact le_max_right _ _

theorem Node.blendDuration_nonneg {r : Runtime ℚ} {g : Graph} {index : Nat} {n : Node}
    {vars : Variables} {duration : ℚ} (h : n.blendDuration r g index vars = .ok duration) :
    0 ≤ duration := by
  rw [blendDuration] at h
  split at h
  · split at h
    · cases h
    · split at h
      · cases h
        exact durationOr_nonneg _ _
      · cases h
  · cases h
    exact durationOr_nonneg _ _

namespace Clip

variable (clips : List (Clip ℚ)) (c : Clip ℚ)

theorem lastEnd_concat : lastEnd (clips ++ [c]) = max (lastEnd clips) c.endTime := by
  rw [lastEnd, List.foldl_append, List.foldl_cons, List.foldl_nil, max_exact, lastEnd]

/-- The last end is the least time from zero on by which all clips have ended. -/
theorem lastEnd_le_iff (time : ℚ) :
    lastEnd clips ≤ time ↔ 0 ≤ time ∧ ∀ c ∈ clips, c.endTime ≤ time := by
  induction clips using List.reverseRecOn with
  | nil => simp [lastEnd]
  | append_singleton clips c ih =>
    rw [lastEnd_concat, max_le_iff, ih, and_assoc]
    simp [or_imp, forall_and]

theorem lastLead_concat :
    lastLead (clips ++ [c]) = if c.kind.isLead then c.startTime else lastLead clips := by
  rw [lastLead, List.filter_append]
  cases h : c.kind.isLead with
  | true => simp [h]
  | false => simp [h, lastLead]

end Clip

/-! ## One node -/

namespace Timeline

variable {g : Graph} {clips : List (Clip ℚ)} {m : Moment ℚ} {c : Clip ℚ}

theorem origin (g : Graph) : Timeline g [] .origin where
  follows before c after h := by simp at h
  moment_eq := rfl
  start_eq := zero_exact
  end_eq := by simp [Moment.endTime, Moment.origin, Clip.lastEnd]

theorem follows_concat (h : Timeline g clips m) (hc : c.Follows g clips) :
    ∀ before d after, clips ++ [c] = before ++ d :: after → d.Follows g before := by
  intro before d after heq
  rcases List.eq_nil_or_concat after with rfl | ⟨after, last, rfl⟩
  · obtain ⟨rfl, hd⟩ := List.append_inj' heq rfl
    cases hd
    exact hc
  · rw [List.concat_eq_append, ← List.cons_append, ← List.append_assoc] at heq
    obtain ⟨rfl, -⟩ := List.append_inj' heq rfl
    exact h.follows _ _ _ rfl

/-- A clip in its place goes on with the time line. -/
theorem concat (h : Timeline g clips m) (hc : c.Follows g clips) :
    Timeline g (clips ++ [c]) (m.advance c) where
  follows := h.follows_concat hc
  moment_eq := by rw [List.foldl_append, ← h.moment_eq, List.foldl_cons, List.foldl_nil]
  start_eq := by
    rw [Clip.lastLead_concat]
    cases hk : c.kind with
    | action =>
      obtain ⟨n, -, -, hdelay, hstart⟩ := hc.action_start_eq hk
      rw [Moment.advance, hk]
      simp only [min_exact, ClipKind.isLead, Bool.false_eq_true, if_false]
      rw [min_eq_left (by rw [hstart, h.start_eq]; linarith), h.start_eq]
    | marker => simpa [Moment.advance, hk, ClipKind.isLead] using h.start_eq
    | _ => simp [Moment.advance, hk, ClipKind.isLead]
  end_eq := by
    rw [Clip.lastEnd_concat, ← h.end_eq]
    -- But for actions, a clip ends no earlier than all before it, since it starts when they end.
    have hlate (hk : c.kind ≠ .action) : m.endTime ≤ c.endTime := by
      have hstart := hc.start_eq hk
      rw [← h.end_eq] at hstart
      rw [Clip.endTime, hstart]
      exact le_add_of_nonneg_right hc.duration_nonneg
    cases hk : c.kind with
    | action => simp [Moment.advance, hk, Moment.endTime, min_exact, max_exact]
    | marker =>
      have hstart := hc.start_eq (by rw [hk]; nofun)
      rw [Clip.endTime, hc.duration_marker hk, hstart, ← h.end_eq, add_zero, max_self,
        Moment.advance, hk]
    | _ =>
      rw [max_eq_right (hlate (by rw [hk]; nofun)), Moment.advance, hk]
      rfl

/-- Clips that are all in their places determine the moment after them. -/
theorem of_follows (h : ∀ before c after, clips = before ++ c :: after → c.Follows g before) :
    Timeline g clips (clips.foldl Moment.advance .origin) := by
  induction clips using List.reverseRecOn with
  | nil => exact .origin g
  | append_singleton clips c ih =>
    rw [List.foldl_append, List.foldl_cons, List.foldl_nil]
    refine (ih fun before d after heq => h before d (after ++ [c]) ?_).concat (h clips c [] rfl)
    rw [heq, List.append_assoc, List.cons_append]

end Timeline

variable {r : Runtime ℚ} {g : Graph} {index : Nat} {n : Node} {s : Situation ℚ} {p : Passage ℚ}
  {clips : List (Clip ℚ)}

theorem Node.Passes.timeline (h : n.Passes r g index s p) (hn : n ∈ g.nodes)
    (ht : Timeline g clips s.moment) :
    Timeline g (clips ++ p.clip.toList) p.situation.moment := by
  cases h with
  | input | set | condition =>
    rw [Option.toList_none, List.append_nil]
    exact ht
  | action kind offered =>
    refine ht.concat ⟨durationOr_nonneg _ _, nofun, fun hk => absurd rfl hk, fun _ => ?_⟩
    exact ⟨n, hn, rfl, durationOr_nonneg _ _, congrArg (· + n.delay) ht.start_eq⟩
  | marker kind => exact ht.concat ⟨zero_exact.ge, fun _ => zero_exact, fun _ => ht.end_eq, nofun⟩
  | blend kind lasts =>
    exact ht.concat ⟨Node.blendDuration_nonneg lasts, nofun, fun _ => ht.end_eq, nofun⟩
  | dialogue | choice =>
    exact ht.concat ⟨durationOr_nonneg _ _, nofun, fun _ => ht.end_eq, nofun⟩

/-! ## Turns and stretches -/

theorem Timeline.of_moves {clip : Option (Clip ℚ)} {next : Nat} {s' : Situation ℚ}
    (ht : Timeline g clips s.moment) (h : turn r g index s = .moves clip next s') :
    Timeline g (clips ++ clip.toList) s'.moment := by
  obtain ⟨n, p, output, hn, hpass, -, -, rfl, rfl⟩ := turn_eq_moves_iff.1 h
  exact hpass.timeline (Array.mem_of_getElem? hn) ht

theorem Timeline.of_rests {clip : Option (Clip ℚ)} {outcome : Outcome ℚ} {s' : Situation ℚ}
    (ht : Timeline g clips s.moment) (h : turn r g index s = .rests clip outcome s') :
    Timeline g (clips ++ clip.toList) s'.moment := by
  obtain ⟨n, p, hn, hpass, rfl, rfl⟩ := exists_passes_of_rests h
  exact hpass.timeline (Array.mem_of_getElem? hn) ht

/-- A walk that goes on from some clips keeps the time line: all clips are in their places, and if
it is suspended, the suspension has the moment after them. -/
def Walk.InTime (g : Graph) (before : List (Clip ℚ)) (walk : Walk ℚ) : Prop :=
  ∃ m, Timeline g (before ++ walk.clips) m ∧ ∀ s, walk.outcome = .suspended s → s.moment = m

namespace Walker

variable {w : Walker ℚ} {before : List (Clip ℚ)} {walk : Walk ℚ}

theorem inTime_of_stretch {limit room : Nat} {clips : Array (Clip ℚ)}
    (ht : Timeline w.graph (before ++ clips.toList) s.moment)
    (h : w.stretch limit room index s clips = .ok walk) : walk.InTime w.graph before := by
  induction room generalizing index s clips with
  | zero =>
    rw [stretch_zero] at h
    split at h <;> cases h
  | succ room ih =>
    rw [stretch_succ] at h
    cases hturn : turn w.runtime w.graph index s with
    | fails e =>
      rw [hturn] at h
      cases h
    | moves clip next s' =>
      rw [hturn] at h
      refine ih ?_ h
      rw [Array.toList_append, Option.toList_toArray, ← List.append_assoc]
      exact ht.of_moves hturn
    | rests clip outcome s' =>
      rw [hturn] at h
      cases h
      refine ⟨s'.moment, ?_, ?_⟩
      · rw [Array.toList_append, Option.toList_toArray, ← List.append_assoc]
        exact ht.of_rests hturn
      · rintro waiting rfl
        exact (suspension_of_turn hturn).2.2.1

theorem inTime_of_walkFrom (ht : Timeline w.graph before s.moment)
    (h : w.walkFrom index s = .ok walk) : walk.InTime w.graph before :=
  inTime_of_stretch (by rwa [List.append_nil]) h

/-- A suspension is resumed at the moment at which it was made. -/
theorem inTime_of_resume {waiting : Suspension ℚ} {option : Nat}
    (ht : Timeline w.graph before waiting.moment) (h : w.resume waiting option = .ok walk) :
    walk.InTime w.graph before := by
  rw [resume] at h
  split at h
  · cases h
  · split at h
    · cases h
    · split at h
      · exact inTime_of_walkFrom (s := ⟨_, _⟩) ht h
      · cases h
        refine ⟨waiting.moment, ?_, ?_⟩
        · rw [List.append_nil]
          exact ht
        · intro s houtcome
          cases houtcome

/-- **The time line has no gaps, and no line is said over an earlier clip.** In every run every clip
has its place after the clips before it, and what the walk remembers of them, a single moment, ends
when the latest of them ends; this is the moment with which a suspended walk is resumed. -/
theorem timeline_of_run (w : Walker ℚ) (entry : String) (options : List Nat) (walk : Walk ℚ)
    (h : w.run entry options = .ok walk) :
    (∀ before c after, walk.clips = before ++ c :: after → c.Follows w.graph before)
      ∧ (∀ before after, walk.clips = before ++ after →
          (before.foldl Moment.advance .origin).endTime = Clip.lastEnd before)
      ∧ ∀ waiting, walk.outcome = .suspended waiting →
          waiting.moment = walk.clips.foldl Moment.advance .origin
            ∧ waiting.moment.endTime = Clip.lastEnd walk.clips := by
  have hwalk : walk.InTime w.graph [] := by
    refine run_induction ?_ ?_ h
    · intro walk hstart
      rw [start] at hstart
      split at hstart
      · cases hstart
      · exact inTime_of_walkFrom (s := ⟨_, _⟩) (.origin w.graph) hstart
    · rintro walk waiting option next ⟨m, ht, hm⟩ houtcome hresume
      obtain rfl := hm waiting houtcome
      have hnext : next.InTime w.graph walk.clips := inTime_of_resume ht hresume
      exact hnext
  obtain ⟨m, ht, hm⟩ := hwalk
  refine ⟨ht.follows, ?_, ?_⟩
  · intro before after heq
    exact (Timeline.of_follows fun before' c after' heq' =>
      ht.follows before' c (after' ++ after) (by simp [heq, heq'])).end_eq
  · intro waiting houtcome
    obtain rfl := hm waiting houtcome
    exact ⟨ht.moment_eq, ht.end_eq⟩

/-- A line, beside which an action is offered that begins later than the line ends and that leads
back to the line. -/
def refrain : Document where
  version := 1
  objectId := "00000000-0000-0000-0000-000000000000"
  properties := []
  nodes :=
    [⟨"aaaaaaaaaaaaaaaaaaaaaaaaaaaaaaaa", "InputNode", "Input"⟩,
      ⟨"bbbbbbbbbbbbbbbbbbbbbbbbbbbbbbbb", "DialogueNode", "Dialogue"⟩,
      ⟨"cccccccccccccccccccccccccccccccc", "ActionNode", "Action"⟩]
  edges :=
    [⟨⟨"aaaaaaaaaaaaaaaaaaaaaaaaaaaaaaaa", 0⟩, ⟨"bbbbbbbbbbbbbbbbbbbbbbbbbbbbbbbb", 0⟩⟩,
      ⟨⟨"bbbbbbbbbbbbbbbbbbbbbbbbbbbbbbbb", 0⟩, ⟨"cccccccccccccccccccccccccccccccc", 0⟩⟩,
      ⟨⟨"cccccccccccccccccccccccccccccccc", 0⟩, ⟨"bbbbbbbbbbbbbbbbbbbbbbbbbbbbbbbb", 0⟩⟩]
  positions := []
  data :=
    [.object [("inputName", .text "start")], .object [("text", .text "Well?")],
      .object [("actions", .array [.text "Go on"]), ("delay", .integer ⟨4, by decide⟩)]]

theorem timeline_of_run_refrain :
    ∃ g walk, Graph.ofDocument .builtin refrain = .ok g
      ∧ (Walker.new (.new .default) g : Walker ℚ).run "start" [0] = .ok walk
      ∧ walk.clips.map (·.kind) = [.dialogue, .action, .dialogue, .action]
      ∧ ∀ before c after, walk.clips = before ++ c :: after → c.Follows g before := by
  have hkinds :
      (Graph.ofDocument .builtin refrain).toOption.bind (fun g =>
          ((Walker.new (.new .default) g : Walker ℚ).run "start" [0]).toOption.map fun walk =>
            walk.clips.map (·.kind))
        = some [.dialogue, .action, .dialogue, .action] := by decide +kernel
  cases hg : Graph.ofDocument .builtin refrain with
  | error e =>
    rw [hg] at hkinds
    cases hkinds
  | ok g =>
    cases hwalk : (Walker.new (.new .default) g : Walker ℚ).run "start" [0] with
    | error e => simp [hg, hwalk, Except.toOption] at hkinds
    | ok walk =>
      refine ⟨g, walk, rfl, hwalk, ?_, (timeline_of_run _ _ _ _ hwalk).1⟩
      simpa [hg, hwalk, Except.toOption] using hkinds

end Walker

end BranchingDialogue
