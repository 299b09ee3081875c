import BranchingDialogue.Decimal.Layout
import BranchingDialogue.Report.Basic
import BranchingDialogue.Scalar

/-!
# Settings

What a dialogue runtime can be told: default durations and offsets, how finely reveals are sampled,
and the limits that keep documents, texts, walks and pulls in bounds. `Settings.flaw?` finds what no
reader of a settings file can know to be wrong.
-/

namespace BranchingDialogue

/-- Limits on what is loaded. -/
structure Limits where
  /-- The largest document, in bytes. -/
  documentBytes : Nat
  /-- The longest text of a line of dialogue, in bytes. -/
  textLength : Nat
  deriving DecidableEq, Repr

/-- Four mebibytes for documents and eight kibibytes for texts. -/
def Limits.default : Limits := ⟨4 * 1024 * 1024, 8 * 1024⟩

/-- Settings of a runtime. -/
structure Settings (α : Type) where
  /-- How many samples a second are taken of a reveal. -/
  frameRate : Nat
  /-- How long a line of dialogue lasts that does not say so. -/
  dialogueDuration : α
  /-- How long a choice or an action lasts that does not say so. -/
  choiceDuration : α
  /-- The offset before a reveal that does not say so. -/
  startOffset : α
  /-- The offset after a reveal that does not say so. -/
  endOffset : α
  /-- How many nodes are visited without a choice; no limit if absent. -/
  walkDepth : Option Nat
  /-- How deep processors feed one another; no limit if absent. -/
  processorDepth : Option Nat
  limits : Limits
  deriving DecidableEq, Repr

/-- A duration or an offset among the settings. -/
inductive TimeSetting where
  | dialogueDuration
  | choiceDuration
  | startOffset
  | endOffset
  deriving DecidableEq, Repr

namespace TimeSetting

/-- All of them, in the order in which they are checked. -/
def all : List TimeSetting := [.dialogueDuration, .choiceDuration, .startOffset, .endOffset]

/-- The key in a settings file. -/
def key : TimeSetting → String
  | .dialogueDuration => "default_dialogue_duration"
  | .choiceDuration => "default_choice_duration"
  | .startOffset => "default_start_offset"
  | .endOffset => "default_end_offset"

/-- The value among settings. -/
def get {α : Type} (s : Settings α) : TimeSetting → α
  | .dialogueDuration => s.dialogueDuration
  | .choiceDuration => s.choiceDuration
  | .startOffset => s.startOffset
  | .endOffset => s.endOffset

end TimeSetting

/-- What is wrong with settings that can be read. -/
inductive SettingsFlaw (α : Type) where
  /-- There has to be a sample a second. -/
  | zeroFrameRate
  /-- A duration or an offset is negative, infinite or undefined. -/
  | badTime (setting : TimeSetting) (value : α)
  deriving DecidableEq, Repr

namespace Settings

variable {α : Type} [Scalar α]

/-- The settings in force where nothing is said. -/
def default : Settings α where
  frameRate := 60
  dialogueDuration := Scalar.ofNat 3
  choiceDuration := Scalar.ofNat 5
  startOffset := Scalar.zero
  endOffset := Scalar.zero
  walkDepth := some 512
  processorDepth := some 64
  limits := .default

/-- The first thing that is wrong, if any. -/
def flaw? (s : Settings α) : Option (SettingsFlaw α) :=
  if s.frameRate = 0 then some .zeroFrameRate
  else
    TimeSetting.all.findSome? fun t =>
      let value := t.get s
      if !Scalar.isFinite value || value < Scalar.zero then some (.badTime t value) else none

/-- The time between two samples of a reveal. -/
def frameStep (s : Settings α) : α := Scalar.one / Scalar.ofNat (Nat.max s.frameRate 1)

/-- Settings in a report. -/
def report (s : Settings Float32) : Report :=
  .record
    [("frame_rate", .nat s.frameRate), ("default_dialogue_duration", .single s.dialogueDuration),
      ("default_choice_duration", .single s.choiceDuration),
      ("default_start_offset", .single s.startOffset),
      ("default_end_offset", .single s.endOffset),
      ("max_walk_depth", .option .nat s.walkDepth),
      ("max_processor_depth", .option .nat s.processorDepth),
      ("limits", .record
        [("max_document_bytes", .nat s.limits.documentBytes),
          ("max_text_length", .nat s.limits.textLength)])]

end Settings

namespace SettingsFlaw

/-- The key of what is wrong. -/
def key {α : Type} : SettingsFlaw α → String
  | .zeroFrameRate => "frame_rate"
  | .badTime t _ => t.key

/-- Why it is wrong. -/
def reason : SettingsFlaw Float32 → String
  | .zeroFrameRate => "must be at least 1"
  | .badTime _ value => "expected a finite non-negative number, found " ++ singleText value

/-- The message of a flaw. -/
def message (f : SettingsFlaw Float32) : String :=
  "invalid config value `" ++ f.key ++ "`: " ++ f.reason

end SettingsFlaw

end BranchingDialogue
