/-!
# Arguments

What is asked for on the command line: a command with its options. Some options belong to every
command and may stand in front of it; an option with a value takes the next argument or what stands
after `=`. After `--` there are no options.
-/

namespace BranchingDialogue

/-- In which form a report is printed. -/
inductive OutputForm where
  | json
  | yaml
  deriving DecidableEq, Repr

/-- What is to be done. -/
inductive Command where
  /-- Check a document, or all documents in a folder. -/
  | validate (path : String)
  /-- Walk a graph and print the clips. -/
  | walk (document entry : String) (choices : List Nat) (form : OutputForm)
  /-- Print the tags of a text. -/
  | tags (text : String) (form : OutputForm)
  /-- Print the schema of documents. -/
  | schema
  /-- Draw a graph. -/
  | dot (document : String) (output : Option String)
  deriving DecidableEq, Repr

/-- A command and the file with its settings. -/
structure Invocation where
  settings : Option String
  command : Command
  deriving DecidableEq, Repr

/-- What arguments lead to if not to a command. -/
inductive Refusal where
  /-- They make no sense. -/
  | misused
  /-- They ask for help. -/
  | help
  /-- They ask for the version. -/
  | version
  deriving DecidableEq, Repr

namespace Arguments

/-- How often an option may be given and what its values are. -/
inductive OptionKind where
  /-- Any number of times, without a value. -/
  | flag
  /-- Once, with a value. -/
  | single
  /-- Any number of times, with values between commas. -/
  | many
  deriving DecidableEq, Repr

/-- An option. -/
structure OptionSpec where
  long : String
  short : Option Char
  kind : OptionKind
  /-- Whether a text can be a value. -/
  accepts : String → Bool

/-- A command's arguments: its options and what its other arguments may be, in order. -/
structure Level where
  options : List OptionSpec
  operands : List (String → Bool)
  /-- The commands to choose from, where one has to be chosen. -/
  commands : List String
  /-- Whether the version can be asked for. -/
  hasVersion : Bool

/-- Arguments as far as read. -/
structure Gathered where
  /-- Names of options with their values. -/
  options : List (String × String)
  operands : List String
  deriving DecidableEq, Repr

namespace Gathered

/-- The values of an option. -/
def values (g : Gathered) (name : String) : List String :=
  (g.options.filter fun o => o.1 = name).map (·.2)

end Gathered

/-- Whether a text names a place for a file. -/
def isPath (s : String) : Bool := !s.isEmpty

/-- The number that a text is. -/
def count? (s : String) : Option Nat :=
  let digits := match s.toList with | '+' :: cs => cs | cs => cs
  if digits.isEmpty || !digits.all Char.isDigit then none
  else
    let n := digits.foldl (fun n c => 10 * n + (c.toNat - '0'.toNat)) 0
    if n < 0x10000000000000000 then some n else none

/-- The form with a name. -/
def form? : String → Option OutputForm
  | "json" => some .json
  | "yaml" => some .yaml
  | _ => none

/-- Options of every command. -/
def commonOptions : List OptionSpec :=
  [⟨"config", none, .single, isPath⟩, ⟨"verbose", some 'v', .flag, fun _ => true⟩]

/-- The option for the form of the output. -/
def formOption : OptionSpec := ⟨"format", none, .single, fun s => (form? s).isSome⟩

/-- The arguments in front of the command. -/
def top : Level where
  options := commonOptions
  operands := []
  commands := ["validate", "walk", "tags", "schema", "dot", "help"]
  hasVersion := true

/-- The arguments after a command that takes some options and operands. -/
def after (options : List OptionSpec) (operands : List (String → Bool)) : Level :=
  ⟨options ++ commonOptions, operands, [], false⟩

/-- The arguments of a command. -/
def level : String → Level
  | "validate" => after [] [isPath]
  | "walk" =>
    after
      [⟨"entry", none, .single, fun _ => true⟩, ⟨"choose", none, .many, fun s => (count? s).isSome⟩,
        formOption]
      [isPath]
  | "tags" => after [formOption] [fun _ => true]
  | "dot" => after [⟨"output", some 'o', .single, isPath⟩] [isPath]
  | _ => after [] []

/-- Takes a value of an option. -/
def take (g : Gathered) (o : OptionSpec) (value : String) : Except Refusal Gathered :=
  let pieces := if o.kind = .many then value.splitOn "," else [value]
  if o.kind = .single ∧ !(g.values o.long).isEmpty then .error .misused
  else if pieces.all o.accepts then
    .ok { g with options := g.options ++ pieces.map fun piece => (o.long, piece) }
  else .error .misused

/-- Takes an operand. -/
def takeOperand (l : Level) (g : Gathered) (value : String) : Except Refusal Gathered :=
  match l.operands[g.operands.length]? with
  | none => .error .misused
  | some accepts =>
    if accepts value then .ok { g with operands := g.operands ++ [value] } else .error .misused

/-- Splits at the first `=`. -/
def splitEqual (cs : List Char) : List Char × Option String :=
  match cs.span (· != '=') with
  | (name, _ :: value) => (name, some (String.ofList value))
  | (name, []) => (name, none)

/-- Takes a long option, without its hyphens. An option that still wants a value is given back. -/
def takeLong (l : Level) (g : Gathered) (cs : List Char) :
    Except Refusal (Gathered × Option OptionSpec) :=
  let (name, value) := splitEqual cs
  let name := String.ofList name
  match l.options.find? fun o => o.long = name with
  | some o =>
    match o.kind, value with
    | .flag, none => .ok (g, none)
    | .flag, some _ => .error .misused
    | _, some value => (take g o value).map (·, none)
    | _, none => .ok (g, some o)
  | none =>
    if value.isSome then .error .misused
    else if name = "help" then .error .help
    else if name = "version" ∧ l.hasVersion then .error .version
    else .error .misused

/-- Takes short options, without their hyphen. An option that still wants a value is given back. -/
def takeShort (l : Level) (g : Gathered) : List Char → Except Refusal (Gathered × Option OptionSpec)
  | [] => .ok (g, none)
  | c :: cs =>
    match l.options.find? fun o => o.short = some c with
    | some o =>
      if o.kind = .flag then takeShort l g cs
      else
        match cs with
        | [] => .ok (g, some o)
        | '=' :: value => (take g o (String.ofList value)).map (·, none)
        | value => (take g o (String.ofList value)).map (·, none)
    | none =>
      if c = 'h' then .error .help
      else if c = 'V' ∧ l.hasVersion then .error .version
      else .error .misused

/-- Reads arguments up to a command, if one has to be chosen, or to the end. `plain` says that there are
no more options, and `pending` is an option that wants a value. -/
def scan (l : Level) (g : Gathered) (plain : Bool) (pending : Option OptionSpec) :
    List String → Except Refusal (Gathered × List String)
  | [] => if pending.isSome then .error .misused else .ok (g, [])
  | arg :: rest =>
    let goOn (r : Except Refusal (Gathered × Option OptionSpec)) :
        Except Refusal (Gathered × List String) :=
      match r with
      | .error e => .error e
      | .ok (g, pending) => scan l g plain pending rest
    let operand : Except Refusal (Gathered × List String) :=
      match takeOperand l g arg with
      | .error e => .error e
      | .ok g => scan l g plain none rest
    if plain then operand
    else
      match arg.toList with
      | ['-', '-'] => if pending.isSome then .error .misused else scan l g true none rest
      | '-' :: '-' :: name => if pending.isSome then .error .misused else goOn (takeLong l g name)
      | '-' :: c :: cs => if pending.isSome then .error .misused else goOn (takeShort l g (c :: cs))
      | _ =>
        match pending with
        | some o => goOn ((take g o arg).map (·, none))
        | none =>
          if l.commands.isEmpty then operand
          else if l.commands.contains arg then .ok (g, arg :: rest)
          else .error .misused

/-- The form asked for. -/
def formOf (g : Gathered) : OutputForm := ((g.values "format").head?.bind form?).getD .json

/-- The command of a name with its arguments. -/
def command? (name : String) (g : Gathered) : Option Command :=
  match name, g.operands with
  | "validate", [path] => some (.validate path)
  | "walk", [document] =>
    some (.walk document ((g.values "entry").head?.getD "start")
      ((g.values "choose").filterMap count?) (formOf g))
  | "tags", [text] => some (.tags text (formOf g))
  | "schema", [] => some .schema
  | "dot", [document] => some (.dot document (g.values "output").head?)
  | _, _ => none

/-- Reads the arguments. Settings named after the command count before those named in front of it. -/
def read (args : List String) : Except Refusal Invocation :=
  match scan top ⟨[], []⟩ false none args with
  | .error e => .error e
  | .ok (_, []) => .error .misused
  | .ok (before, name :: rest) =>
    if name = "help" then
      if rest.all (top.commands.contains ·) then .error .help else .error .misused
    else
      match scan (level name) ⟨[], []⟩ false none rest with
      | .error e => .error e
      | .ok (g, _) =>
        match command? name g with
        | none => .error .misused
        | some command =>
          .ok ⟨(g.values "config").head? <|> (before.values "config").head?, command⟩

end Arguments

end BranchingDialogue
