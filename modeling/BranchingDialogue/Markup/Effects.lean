import BranchingDialogue.Decimal.Numeral
import BranchingDialogue.Markup.Color
import BranchingDialogue.Markup.Strip

/-!
# Effects of tags

What the tags of a text do: pauses in its reveal and colors on its characters. The tags of hosts do
nothing here.
-/

namespace BranchingDialogue

/-- A pause before the character at a place, as many being visible then. -/
structure Pause (α : Type) where
  index : Nat
  seconds : α
  deriving DecidableEq, Repr

/-- The effects of a text's tags, each kind in the order of the tags. -/
structure TextEffects (α : Type) where
  pauses : List (Pause α)
  gradients : List Gradient
  deriving DecidableEq, Repr

namespace TextEffects

variable {α : Type}

/-- No effects. -/
def empty : TextEffects α := ⟨[], []⟩

/-- Whether there are no effects. -/
def isEmpty (e : TextEffects α) : Bool := e.pauses.isEmpty && e.gradients.isEmpty

/-- The color of a character: of several gradients over it, the one that begins last counts. -/
def colorAt? (α : Type) [Scalar α] (e : TextEffects α) (index : Nat) : Option Color :=
  e.gradients.reverse.findSome? fun g => g.colorAt? α index

/-- Effects in a report. -/
def report (e : TextEffects Float32) : Report :=
  .record <|
    Report.omitIf e.pauses.isEmpty "waits"
      (.list (e.pauses.map fun p => .record [("index", .nat p.index), ("seconds", .single p.seconds)]))
    ++ Report.omitIf e.gradients.isEmpty "gradients" (.list (e.gradients.map Gradient.report))

variable [Scalar α]

/-- How long all pauses last. -/
def totalPause (e : TextEffects α) : α := Scalar.sum (e.pauses.map (·.seconds))

end TextEffects

namespace PlacedTag

variable {α : Type} [Scalar α]

/-- A complaint about a parameter of a tag. -/
def invalid (t : PlacedTag) (parameter reason : String) : MarkupError :=
  .invalidParameter t.name parameter reason

/-- The number of seconds that a parameter says: a number with any number of `s` after it, and with
white space around. -/
def secondsOf? (text : String) : Option Numeral :=
  Numeral.read? (trimEnd (· == 's') (trimSpace text.toList))

/-- How long the pause of a tag lasts. -/
def pauseSeconds (t : PlacedTag) : Except MarkupError α :=
  match t.parameter <|> t.attribute? "seconds" with
  | none => .error (t.invalid "" "missing duration")
  | some text =>
    match secondsOf? text with
    | none => .error (t.invalid text "expected a number of seconds")
    | some (.number negative m e) =>
      let magnitude : α := Scalar.ofDecimal m e
      let seconds := if negative then -magnitude else magnitude
      if Scalar.isFinite seconds ∧ ¬ seconds < Scalar.zero then .ok seconds
      else .error (t.invalid text "duration must be finite and non-negative")
    | some _ => .error (t.invalid text "duration must be finite and non-negative")

/-- A text around its first comma. -/
def splitComma? (s : String) : Option (String × String) :=
  match s.toList.span (· != ',') with
  | (before, _ :: after) => some (String.ofList before, String.ofList after)
  | (_, []) => none

/-- What a tag says about the ends of its gradient. -/
def colorTexts (t : PlacedTag) : Except MarkupError (String × String) :=
  match t.parameter with
  | some text =>
    match splitComma? text with
    | some ends => .ok ends
    | none => .error (t.invalid text "expected `from,to` colors")
  | none =>
    match t.attribute? "from", t.attribute? "to" with
    | some first, some last => .ok (first, last)
    | none, _ => .error (t.invalid "" "missing `from` color")
    | some _, none => .error (t.invalid "" "missing `to` color")

/-- A color that a tag says. -/
def colorOf (t : PlacedTag) (text : String) : Except MarkupError Color :=
  match Color.parse? text with
  | some c => .ok c
  | none => .error (t.invalid text "expected a #hex color")

/-- The gradient of a tag. -/
def gradient (t : PlacedTag) : Except MarkupError Gradient :=
  match t.colorTexts with
  | .error e => .error e
  | .ok (first, last) =>
    match t.colorOf first with
    | .error e => .error e
    | .ok a => (t.colorOf last).map fun b => ⟨t.start, t.length, a, b⟩

/-- Adds the effect of a tag. -/
def addEffect (effects : TextEffects α) (t : PlacedTag) : Except MarkupError (TextEffects α) :=
  match t.behavior with
  | .wait =>
    t.pauseSeconds.map fun seconds =>
      { effects with pauses := effects.pauses ++ [⟨t.start, seconds⟩] }
  | .gradient => t.gradient.map fun g => { effects with gradients := effects.gradients ++ [g] }
  | .host => .ok effects

end PlacedTag

/-- The effects of tags; the first parameter that does not make sense is an error. -/
def TextEffects.ofTags {α : Type} [Scalar α] (tags : List PlacedTag) :
    Except MarkupError (TextEffects α) :=
  tags.foldlM PlacedTag.addEffect TextEffects.empty

end BranchingDialogue
