import BranchingDialogue.Files.Basic
import BranchingDialogue.Scalar.Binary32
import BranchingDialogue.Settings.Basic
import BranchingDialogue.Toml.Read

/-!
# Reading settings

Settings are a TOML file. All of them may be left out; keys that are not known are refused. The first
fault in the order of the file counts, and only a file without faults is looked at for flaws.
-/

namespace BranchingDialogue

/-- What is wrong with a settings file. -/
inductive SettingsFault where
  /-- It is no TOML. -/
  | grammar
  /-- A key is not known. -/
  | unknownField (name : String) (known : List String)
  /-- A value is of the wrong kind. -/
  | wrongType (found : Toml) (expected : String)
  /-- A whole number is too small or too large. -/
  | outOfRange (found : Int) (expected : String)

namespace SettingsFault

/-- Names to choose from, as they stand in messages. -/
def oneOf : List String → String
  | [a] => "`" ++ a ++ "`"
  | [a, b] => "`" ++ a ++ "` or `" ++ b ++ "`"
  | names => "one of " ++ String.intercalate ", " (names.map fun n => "`" ++ n ++ "`")

/-- The message of a fault; what is wrong with the grammar is not said. -/
def message? : SettingsFault → Option String
  | .grammar => none
  | .unknownField name known => some ("unknown field `" ++ name ++ "`, expected " ++ oneOf known)
  | .wrongType found expected =>
    some ("invalid type: " ++ found.describe ++ ", expected " ++ expected)
  | .outOfRange found expected =>
    some ("invalid value: integer `" ++ toString found ++ "`, expected " ++ expected)

end SettingsFault

/-- Why there are no settings. -/
inductive SettingsError where
  /-- There is no such file. -/
  | notFound (path : String)
  /-- The file cannot be read as text. -/
  | unreadable (reason : FileError)
  /-- The text is not that of settings. -/
  | malformed (fault : SettingsFault)
  /-- The settings make no sense. -/
  | invalid (flaw : SettingsFlaw Float32)

namespace SettingsError

/-- The code of an error in diagnostics. -/
def code : SettingsError → String
  | .notFound _ => "ds::config::not_found"
  | .unreadable _ => "ds::config::io_error"
  | .malformed _ => "ds::config::parse_error"
  | .invalid _ => "ds::config::invalid"

/-- What can be said of an error. -/
def message? : SettingsError → Option String
  | .notFound path => some ("config file not found at " ++ path)
  | .unreadable _ => none
  | .malformed fault => fault.message?
  | .invalid flaw => some flaw.message

end SettingsError

namespace Settings

variable {α : Type} [Scalar α]

/-- A whole number up to a bound. -/
def wholeOf (bound : Nat) (expected : String) : Toml → Except SettingsFault Nat
  | .integer n =>
    if 0 ≤ n ∧ n < bound then .ok n.toNat else .error (.outOfRange n expected)
  | v => .error (.wrongType v expected)

/-- A count. -/
def countOf : Toml → Except SettingsFault Nat := wholeOf 0x10000000000000000 "usize"

/-- A number. -/
def scalarOf : Toml → Except SettingsFault α
  | .integer n => .ok (if 0 ≤ n then Scalar.ofNat n.toNat else -Scalar.ofNat (-n).toNat)
  | .float x => .ok (Scalar.ofDouble x)
  | v => .error (.wrongType v "f32")

/-- The keys of limits. -/
def limitKeys : List String := ["max_document_bytes", "max_text_length"]

/-- Sets a limit. -/
def setLimit (l : Limits) (key : String) (v : Toml) : Except SettingsFault Limits :=
  if key = "max_document_bytes" then
    (countOf v).map fun n => { l with documentBytes := n }
  else if key = "max_text_length" then
    (countOf v).map fun n => { l with textLength := n }
  else .error (.unknownField key limitKeys)

/-- Limits from a table, or from an array in the order of the keys. -/
def limitsOf : Toml → Except SettingsFault Limits
  | .table members => members.foldlM (fun l (key, v) => setLimit l key v) .default
  | .array items =>
    (limitKeys.zip items).foldlM (fun l (key, v) => setLimit l key v) .default
  | .date => .error (.unknownField "$__toml_private_datetime" limitKeys)
  | v => .error (.wrongType v "struct Limits")

/-- The keys of settings. -/
def keys : List String :=
  ["frame_rate", "default_dialogue_duration", "default_choice_duration", "default_start_offset",
    "default_end_offset", "max_walk_depth", "max_processor_depth", "limits"]

/-- Sets a setting. -/
def set (s : Settings α) (key : String) (v : Toml) : Except SettingsFault (Settings α) :=
  match key with
  | "frame_rate" => (wholeOf 0x100000000 "u32" v).map fun n => { s with frameRate := n }
  | "default_dialogue_duration" => (scalarOf v).map fun x => { s with dialogueDuration := x }
  | "default_choice_duration" => (scalarOf v).map fun x => { s with choiceDuration := x }
  | "default_start_offset" => (scalarOf v).map fun x => { s with startOffset := x }
  | "default_end_offset" => (scalarOf v).map fun x => { s with endOffset := x }
  | "max_walk_depth" => (countOf v).map fun n => { s with walkDepth := some n }
  | "max_processor_depth" => (countOf v).map fun n => { s with processorDepth := some n }
  | "limits" => (limitsOf v).map fun l => { s with limits := l }
  | key => .error (.unknownField key keys)

/-- Settings from a table. -/
def ofMembers (members : List (String × Toml)) : Except SettingsFault (Settings α) :=
  members.foldlM (fun s (key, v) => s.set key v) .default

/-- Reads settings. -/
def parse (text : String) : Except SettingsError (Settings Float32) :=
  match Toml.parse? text with
  | none => .error (.malformed .grammar)
  | some members =>
    match ofMembers members with
    | .error fault => .error (.malformed fault)
    | .ok s =>
      match s.flaw? with
      | some flaw => .error (.invalid flaw)
      | none => .ok s

/-- Reads a settings file, if there is one. -/
def ofFile (path : String) :
    Option (Except FileError ByteArray) → Except SettingsError (Settings Float32)
  | none => .error (.notFound path)
  | some content =>
    match content.bind FileError.decode with
    | .error e => .error (.unreadable e)
    | .ok text => parse text

end Settings

end BranchingDialogue
