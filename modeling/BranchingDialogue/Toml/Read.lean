import BranchingDialogue.Toml.Scalar
import BranchingDialogue.Toml.Text

/-!
# Reading TOML

A file is a list of lines, each a key with a value, the header of a table or blank. A table may be
opened once by a header; a key may be set once. Keys with dots open tables as well, but only new ones
or such that other keys with dots have opened.
-/

namespace BranchingDialogue.Toml

/-! ## Tables under construction -/

/-- How a table came into being. -/
inductive Origin where
  /-- By its own header. -/
  | header
  /-- By a longer header. -/
  | implied
  /-- By a key with dots. -/
  | dotted
  deriving DecidableEq, Repr

/-- What a key of a file stands for. -/
inductive Item where
  | value (v : Toml)
  | table (origin : Origin) (members : List (String × Item))
  /-- A list of tables, each with a header of its own. -/
  | tables (items : List (List (String × Item)))

/-- The members of a table. -/
abbrev Members := List (String × Item)

/-- Changes what a key stands for, in place or at the end. -/
def alter (key : String) (f : Option Item → Option Item) : Members → Option Members
  | [] => (f none).map fun item => [(key, item)]
  | (k, item) :: rest =>
    if k = key then (f (some item)).map fun item => (k, item) :: rest
    else (alter key f rest).map ((k, item) :: ·)

/-- What a key stands for. -/
def find? (key : String) (members : Members) : Option Item :=
  (members.find? fun m => decide (m.1 = key)).map (·.2)

/-- Sets a key with the parts before it. -/
def setKey : String → List String → Toml → Members → Option Members
  | key, [], v, members =>
    alter key (fun | none => some (.value v) | some _ => none) members
  | key, next :: rest, v, members =>
    alter key
      (fun
        | none => (setKey next rest v []).map (.table .dotted)
        | some (.table origin inner) =>
          if origin = .header ∨ (rest = [] ∧ origin ≠ .dotted) then none
          else (setKey next rest v inner).map (.table origin)
        | some _ => none)
      members

/-- Changes the table at a path of headers; tables on the way are implied where they are missing. In
a list of tables the last one is meant. -/
def within (f : Members → Option Members) : List String → Members → Option Members
  | [], members => f members
  | key :: rest, members =>
    alter key
      (fun
        | none => (within f rest []).map (.table .implied)
        | some (.table origin inner) => (within f rest inner).map (.table origin)
        | some (.tables items) =>
          match items.getLast? with
          | none => none
          | some last => (within f rest last).map fun last => .tables (items.dropLast ++ [last])
        | some (.value _) => none)
      members

/-- Opens a table by its header. A table that was implied moves to the place of its header. -/
def openTable (key : String) (members : Members) : Option Members :=
  match find? key members with
  | none => some (members ++ [(key, .table .header [])])
  | some (.table .implied inner) =>
    some (members.filter (fun m => m.1 ≠ key) ++ [(key, .table .header inner)])
  | some _ => none

/-- Adds a table to a list of tables by its header. -/
def openListed (key : String) (members : Members) : Option Members :=
  alter key
    (fun
      | none => some (.tables [[]])
      | some (.tables items) => some (.tables (items ++ [[]]))
      | some _ => none)
    members

mutual

/-- The value of an item. -/
def Item.toToml : Item → Toml
  | .value v => v
  | .table _ members => .table (membersToToml members)
  | .tables items => .array (tablesToToml items)

/-- The members of a table as values. -/
def membersToToml : List (String × Item) → List (String × Toml)
  | [] => []
  | (key, item) :: rest => (key, item.toToml) :: membersToToml rest

/-- The tables of a list as values. -/
def tablesToToml : List (List (String × Item)) → List Toml
  | [] => []
  | members :: rest => .table (membersToToml members) :: tablesToToml rest

end

/-! ## Values -/

/-- How deep arrays and inline tables may lie in one another. -/
def depthLimit : Nat := 79

/-- Drops white space, line breaks and comments from the front. -/
def skipLines : Nat → List Char → List Char
  | 0, cs => cs
  | fuel + 1, cs =>
    let rest := skipComment (skipGap cs)
    match newline? rest with
    | some rest => skipLines fuel rest
    | none => rest

/-- Reads the elements of an array up to its end, at most `fuel` of them. -/
def readElements (item : List Char → Reading Toml) : Nat → List Char → Reading (List Toml)
  | 0, _ => none
  | fuel + 1, cs =>
    match skipLines (cs.length + 1) cs with
    | ']' :: rest => some ([], rest)
    | rest =>
      (item rest).bind fun (v, rest) =>
        match skipLines (rest.length + 1) rest with
        | ',' :: rest => (readElements item fuel rest).map fun (vs, rest) => (v :: vs, rest)
        | ']' :: rest => some ([v], rest)
        | _ => none

/-- Reads a key and its value. -/
def readMember (item : List Char → Reading Toml) (cs : List Char) :
    Reading ((String × List String) × Toml) :=
  (readKey cs).bind fun (key, rest) =>
    match rest with
    | '=' :: rest => (item (skipGap rest)).map fun (v, rest) => ((key, v), rest)
    | _ => none

/-- Reads the members of an inline table after its first one, at most `fuel` of them. -/
def readInline (item : List Char → Reading Toml) : Nat → Members → List Char → Reading Members
  | 0, _, _ => none
  | fuel + 1, members, cs =>
    (readMember item cs).bind fun (((key, parts), v), rest) =>
      (setKey key parts v members).bind fun members =>
        match skipGap rest with
        | ',' :: rest => readInline item fuel members rest
        | '\x7d' :: rest => some (members, rest)
        | _ => none

/-- Reads a value in which arrays and inline tables lie at most `depth` deep in one another. -/
def readValue : Nat → List Char → Reading Toml
  | depth, cs =>
    match cs with
    | [] => none
    | c :: rest =>
      if c == '"' || c == '\'' then (readText cs).map fun (s, rest) => (.text s, rest)
      else if c == '[' then
        match depth with
        | 0 => none
        | depth + 1 =>
          (readElements (readValue depth) (rest.length + 1) rest).map fun (vs, rest) =>
            (.array vs, rest)
      else if c == '\x7b' then
        match depth with
        | 0 => none
        | depth + 1 =>
          match skipGap rest with
          | '\x7d' :: rest => some (.table [], rest)
          | rest =>
            (readInline (readValue depth) (rest.length + 1) [] rest).map fun (members, rest) =>
              (.table (membersToToml members), rest)
      else readToken cs

/-! ## Files -/

/-- A file as far as read: its members, and the path of the table that is open. -/
structure FileDraft where
  members : Members
  path : List String

/-- Reads a header after its opening bracket. -/
def readHeader (d : FileDraft) (cs : List Char) : Reading FileDraft :=
  let listed := cs.head? = some '['
  (readKey (if listed then cs.tail else cs)).bind fun ((first, parts), rest) =>
    let path := first :: parts
    let key := path.getLast?.getD first
    let opened := within (if listed then openListed key else openTable key) path.dropLast d.members
    let closed : Option (List Char) :=
      match rest with
      | ']' :: rest =>
        if listed then match rest with | ']' :: rest => some rest | _ => none else some rest
      | _ => none
    match opened, closed with
    | some members, some rest => some (⟨members, path⟩, rest)
    | _, _ => none

/-- Reads a line that is not blank. -/
def readLine (d : FileDraft) (cs : List Char) : Reading FileDraft :=
  match cs with
  | '[' :: rest => readHeader d rest
  | cs =>
    (readMember (readValue depthLimit) cs).bind fun (((key, parts), v), rest) =>
      (within (setKey key parts v) d.path d.members).map fun members =>
        ({ d with members }, rest)

/-- Reads lines up to the end, at most `fuel` of them. -/
def readLines : Nat → FileDraft → List Char → Option FileDraft
  | 0, _, _ => none
  | fuel + 1, d, cs =>
    match skipLines (cs.length + 1) cs with
    | [] => some d
    | rest =>
      (readLine d rest).bind fun (d, rest) =>
        (endLine? rest).bind fun rest => readLines fuel d rest

/-- Reads a file; a mark of the byte order at its beginning does not count. -/
def parse? (text : String) : Option (List (String × Toml)) :=
  let cs := match text.toList with | '\ufeff' :: cs => cs | cs => cs
  (readLines (cs.length + 1) ⟨[], []⟩ cs).map fun d => membersToToml d.members

end BranchingDialogue.Toml
