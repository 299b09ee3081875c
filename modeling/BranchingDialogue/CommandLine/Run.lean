import BranchingDialogue.CommandLine.Arguments
import BranchingDialogue.Document.Save
import BranchingDialogue.Document.Schema
import BranchingDialogue.Files.Basic
import BranchingDialogue.Graph.Dot
import BranchingDialogue.Report.Yaml
import BranchingDialogue.Settings.Read
import BranchingDialogue.Story.Walk

/-!
# Commands

What each command does, over any file system: what it prints, and the failure it ends with, if any. A
failure is told with what lies behind it, from the command down to the cause.
-/

namespace BranchingDialogue

/-- A failure: what went wrong, and why, and why that. -/
structure Failure where
  message : String
  causes : List String
  deriving DecidableEq, Repr

namespace Failure

/-- A failure behind which there is nothing. -/
def of (message : String) : Failure := ⟨message, []⟩

/-- A failure seen from further away. -/
def within (context : String) (f : Failure) : Failure := ⟨context, f.message :: f.causes⟩

/-- A failure in one line. -/
def line (f : Failure) : String := String.intercalate ": " (f.message :: f.causes)

/-- A cause, its lines after the first one indented. -/
def indented (start indent cause : String) : String :=
  start ++ String.intercalate ("\n" ++ indent) (cause.splitOn "\n")

/-- A failure as it ends a command; several causes are numbered. -/
def text (f : Failure) : String :=
  "Error: " ++ f.message ++
    (match f.causes with
    | [] => ""
    | [cause] => "\n\nCaused by:\n" ++ indented "    " "    " cause
    | causes =>
      "\n\nCaused by:\n" ++ String.intercalate "\n"
        (causes.mapIdx fun i cause => indented ("    " ++ toString i ++ ": ") "       " cause))
    ++ "\n"

end Failure

/-- What a command printed, and how it ended. -/
structure Ending where
  output : String
  failure : Option Failure
  deriving DecidableEq, Repr

/-- What a program leaves: its exit code and what it printed on both ways out. -/
structure Result where
  code : Nat
  output : String
  complaint : String
  deriving DecidableEq, Repr

namespace Ending

/-- A command that failed before it printed anything. -/
def failed (f : Failure) : Ending := ⟨"", some f⟩

/-- A command that printed something. -/
def printed (output : String) : Ending := ⟨output, none⟩

/-- What remains of a command. -/
def result (e : Ending) : Result :=
  match e.failure with
  | none => ⟨0, e.output, ""⟩
  | some f => ⟨1, e.output, f.text⟩

end Ending

namespace Command

/-- The failure of an error of settings. -/
def settingsFailure : SettingsError → Failure
  | .unreadable e => ⟨"io error: " ++ e.message, [e.message]⟩
  | .malformed fault =>
    let message := fault.message?.getD "TOML parse error"
    ⟨"failed to parse config: " ++ message, [message]⟩
  | e => .of (e.message?.getD "")

/-- The failure of an error of a walk. -/
def walkFailure (e : WalkError Float32) : Failure :=
  ⟨e.message, (e.cause?.map WalkCause.message).toList⟩

/-- A report in some form, with a line break after it. -/
def render (r : Report) : OutputForm → String
  | .json => r.json ++ "\n"
  | .yaml => r.yaml ++ "\n"

/-- The report on a walk. -/
def walkReport (entry : String) (w : Walk Float32) : Report :=
  .record <|
    [("entry", .text entry), ("finished", .bool w.isFinished),
      ("clips", .list (w.clips.map Clip.report))]
    ++ (match w.suspension? with | some s => [("suspended", s.report)] | none => [])
    ++ [("variables", Payload.report w.variables)]

/-- The report on the tags of a text. -/
def tagsReport (s : StrippedText) (effects : TextEffects Float32) : Report :=
  .record (s.fields ++ [("characters", .nat s.charCount), ("effects", effects.report)])

/-- Prints the tags of a text. -/
def runTags (r : Runtime Float32) (text : String) (form : OutputForm) : Ending :=
  match r.tags.strip text with
  | .error e => .failed (.of e.message)
  | .ok s =>
    match TextEffects.ofTags s.tags with
    | .error e => .failed (.of e.message)
    | .ok effects => .printed (render (tagsReport s effects) form)

variable {m : Type → Type} [Monad m]

/-- The runtime for an invocation. -/
def loadRuntime (files : FileOps m) : Option String → m (Except Failure (Runtime Float32))
  | none => return .ok (.new .default)
  | some path => do
    let content ← if ← files.present path then some <$> files.read path else pure none
    match Settings.ofFile path content with
    | .ok s => return .ok (.new s)
    | .error e => return .error ((settingsFailure e).within ("load config " ++ path))

/-- The graph of a document file. -/
def loadGraph (files : FileOps m) (r : Runtime Float32) (path : String) :
    m (Except Failure Graph) := do
  match (← files.read path).bind FileError.decode with
  | .error e => return .error (.within ("read " ++ path) (.of e.message))
  | .ok text =>
    match r.loadText text with
    | .error e => return .error (.within ("deserialize " ++ path) (.of e.message))
    | .ok g => return .ok g

/-- The line printed for a document that was checked. -/
def validationLine (path : String) : Except Failure Graph → String
  | .ok g =>
    let s := g.stats
    "ok " ++ path ++ " (" ++ toString s.totalNodes ++ " nodes, " ++ toString s.edgeCount
      ++ " edges, " ++ toString s.entryCount ++ " entries)\n"
  | .error f => "error " ++ path ++ ": " ++ f.line ++ "\n"

/-- Checks a document, or all documents in a folder. -/
def runValidate (files : FileOps m) (r : Runtime Float32) (path : String) : m Ending := do
  let documents ←
    if ← files.isFolder path then
      List.filter (fun p => isDocumentName (fileName p)) <$> files.filesBelow path
    else pure [path]
  if documents.isEmpty then
    return .failed (.of ("no graph documents found under " ++ path))
  let results ← documents.mapM fun p => do return (p, ← loadGraph files r p)
  let failures := results.countP fun (_, result) => !result.isOk
  let output := String.join (results.map fun (p, result) => validationLine p result)
  if failures = 0 then return .printed output
  return ⟨output, some (.of (toString failures ++ " of " ++ toString documents.length
    ++ " documents failed validation"))⟩

/-- Walks a graph and prints the clips. -/
def runWalk (files : FileOps m) (r : Runtime Float32) (path entry : String) (choices : List Nat)
    (form : OutputForm) : m Ending := do
  match ← loadGraph files r path with
  | .error f => return .failed f
  | .ok g =>
    match (Walker.new r g).run entry choices with
    | .error e =>
      return .failed ((walkFailure e).within ("walk " ++ path ++ " from `" ++ entry ++ "`"))
    | .ok w => return .printed (render (walkReport entry w) form)

/-- Draws a graph, into a file if one is named. -/
def runDot (files : FileOps m) (r : Runtime Float32) (path : String) (output : Option String) :
    m Ending := do
  match ← loadGraph files r path with
  | .error f => return .failed f
  | .ok g =>
    match output with
    | none => return .printed g.dot
    | some output =>
      let folders ←
        match parentPath? output with
        | some folder => files.createFolders folder
        | none => pure (.ok ())
      match folders with
      | .error e => return .failed (.of e.message)
      | .ok () =>
        match ← files.write output g.dot with
        | .error e => return .failed (.within ("write " ++ output) (.of e.message))
        | .ok () => return .printed ""

/-- Does what a command asks for. -/
def run (files : FileOps m) (r : Runtime Float32) : Command → m Ending
  | .validate path => runValidate files r path
  | .walk document entry choices form => runWalk files r document entry choices form
  | .tags text form => return runTags r text form
  | .schema => return .printed (Schema.report.json ++ "\n")
  | .dot document output => runDot files r document output

end Command

/-- How the program is used. -/
def usage : String :=
  "usage: dsgraph [--config FILE] [-v] (validate PATH | walk FILE [--entry NAME] [--choose N,..] "
    ++ "[--format json|yaml] | tags TEXT [--format json|yaml] | schema | dot FILE [-o FILE])\n"

/-- Runs the program with some arguments. -/
def runProgram {m : Type → Type} [Monad m] (files : FileOps m) (args : List String) : m Result := do
  match Arguments.read args with
  | .error .misused => return ⟨2, "", "error: " ++ usage⟩
  | .error .help => return ⟨0, usage, ""⟩
  | .error .version => return ⟨0, "dialogue_graph_cli 0.1.0\n", ""⟩
  | .ok invocation =>
    match ← Command.loadRuntime files invocation.settings with
    | .error f => return (Ending.failed f).result
    | .ok r => return (← invocation.command.run files r).result

end BranchingDialogue
