import BranchingDialogue.Json.Skip

/-!
# Reading records

Readers for values of a known shape: texts, 32-bit whole numbers, lists and records. A record is
read from an object by the names of its fields, or from an array by their order. A fault that
belongs to the record as a whole is placed after it if it is closed properly.
-/

namespace BranchingDialogue.Json

/-- The fault of a value that is not of the expected shape. The value is read first, so that a
fault inside it comes before its being of the wrong kind; brackets are not entered. -/
def unexpected (expected : String) (cs : List Char) : Fault :=
  let refuse (found : Found) (rest : List Char) : Fault :=
    .here (.invalidType found expected) rest
  let refuseNumber (r : Reading Number) : Fault :=
    match r with
    | .error fault => fault
    | .ok (.integer n, rest) => refuse (.integer n.1) rest
    | .ok (.float x, rest) => refuse (.float x.1) rest
  let refuseWord (found : Found) (r : Except Fault (List Char)) : Fault :=
    match r with
    | .error fault => fault
    | .ok rest => refuse found rest
  match cs with
  | [] => .next .eofInValue []
  | c :: rest =>
    if c = 'n' then refuseWord .null (readWord ['u', 'l', 'l'] rest)
    else if c = 't' then refuseWord (.bool true) (readWord ['r', 'u', 'e'] rest)
    else if c = 'f' then refuseWord (.bool false) (readWord ['a', 'l', 's', 'e'] rest)
    else if c = '-' then refuseNumber (readNumber true rest)
    else if c.isDigit then refuseNumber (readNumber false (c :: rest))
    else if c = '"' then
      match readText rest with
      | .error fault => fault
      | .ok (s, rest) => refuse (.text s) rest
    else if c = '[' then refuse .sequence (c :: rest)
    else if c = '\x7b' then refuse .map (c :: rest)
    else .next .expectedValue (c :: rest)

/-- Reads a text. -/
def textValue (cs : List Char) : Reading String :=
  match skipSpace cs with
  | '"' :: rest => readText rest
  | cs => .error (unexpected "a string" cs)

/-- Reads a whole number of 32 bits. -/
def int32Value (cs : List Char) : Reading Int :=
  let accept (r : Reading Number) : Reading Int :=
    match r with
    | .error fault => .error fault
    | .ok (.integer n, rest) =>
      if -0x80000000 ≤ n.1 ∧ n.1 < 0x80000000 then .ok (n.1, rest)
      else .error (.here (.invalidValue (.integer n.1) "i32") rest)
    | .ok (.float x, rest) => .error (.here (.invalidType (.float x.1) "i32") rest)
  match skipSpace cs with
  | [] => .error (.next .eofInValue [])
  | c :: rest =>
    if c = '-' then accept (readNumber true rest)
    else if c.isDigit then accept (readNumber false (c :: rest))
    else .error (unexpected "i32" (c :: rest))

/-- Reads an array of values, each by `item`. -/
def listValue {α : Type} (item : List Char → Reading α) (cs : List Char) : Reading (List α) :=
  match skipSpace cs with
  | '[' :: rest => readList item rest
  | cs => .error (unexpected "a sequence" cs)

/-- A field of a record under construction: its name, whether it may be missing, whether it is
there already, and how to read it into what has been gathered. -/
structure Field (δ : Type) where
  name : String
  optional : Bool
  present : δ → Bool
  read : List Char → δ → Reading δ

/-- A kind of record: the name it has in messages, its fields in order, and the record made of what
has been gathered once no field is missing. -/
structure RecordKind (δ ρ : Type) where
  name : String
  fields : List (Field δ)
  start : δ
  finish : δ → Option ρ

namespace RecordKind

variable {δ ρ : Type}

/-- A field that has to be there, kept as an option until then. -/
def required (name : String) {α : Type} (get : δ → Option α) (set : δ → α → δ)
    (item : List Char → Reading α) : Field δ where
  name := name
  optional := false
  present d := (get d).isSome
  read cs d := (item cs).map fun (x, rest) => (set d x, rest)

/-- A field that may be missing. -/
def defaulted (name : String) {α : Type} (get : δ → Option α) (set : δ → α → δ)
    (item : List Char → Reading α) : Field δ :=
  { required name get set item with optional := true }

/-- How the record is called in messages. -/
def described (k : RecordKind δ ρ) : String := "struct " ++ k.name

/-- The record of what has been gathered, or the first field that is missing. -/
def complete (k : RecordKind δ ρ) (d : δ) : Except Cause ρ :=
  match k.fields.find? (fun f => !f.optional && !f.present d), k.finish d with
  | some f, _ => .error (.missingField f.name)
  | none, some r => .ok r
  | none, none => .error (.missingField k.name)

/-- Reads one member into what has been gathered: a member that is no field is skipped. -/
def readMember (k : RecordKind δ ρ) (d : δ) (name : String) (cs : List Char) : Reading δ :=
  match k.fields.find? (fun f => decide (f.name = name)) with
  | none =>
    match colon cs with
    | .error fault => .error fault
    | .ok rest => (skipValue rest).map fun rest => (d, rest)
  | some f =>
    if f.present d then
      .error (.here (.duplicateField name) (match skipSpace cs with | '\x7d' :: rest => rest | rest => rest))
    else
      match colon cs with
      | .error fault => .error fault
      | .ok rest => f.read rest d

/-- Reads the fields from the elements of an array, those before `place` being done. At the end of the
array only optional fields may be left. -/
def readOrdered (k : RecordKind δ ρ) : List (Field δ) → Nat → δ → List Char → Reading δ
  | [], _, d, cs => .ok (d, cs)
  | f :: fs, place, d, cs =>
    match nextElement (place == 0) cs with
    | .error fault => .error fault
    | .ok none =>
      if f.optional then readOrdered k fs (place + 1) d cs
      else
        let after := match skipSpace cs with | ']' :: rest => rest | rest => rest
        .error (.here (.invalidLength place
          (k.described ++ " with " ++ toString k.fields.length ++ " elements")) after)
    | .ok (some rest) =>
      match f.read rest d with
      | .error fault => .error fault
      | .ok (d, rest) => readOrdered k fs (place + 1) d rest

/-- Reads a record from an object or an array. -/
def read (k : RecordKind δ ρ) (cs : List Char) : Reading ρ :=
  match skipSpace cs with
  | '\x7b' :: rest =>
    match readMembers k.readMember ('\x7b' :: rest) true k.start rest with
    | .error fault => .error fault
    | .ok (d, rest) =>
      match k.complete d, closeObject rest with
      | .error cause, .ok rest => .error (.here cause rest)
      | .error cause, .error _ => .error (.here cause (skipSpace rest))
      | .ok _, .error fault => .error fault
      | .ok r, .ok rest => .ok (r, rest)
  | '[' :: rest =>
    match k.readOrdered k.fields 0 k.start rest with
    | .error fault => .error fault
    | .ok (d, rest) =>
      match k.complete d, closeList rest with
      | .error cause, .ok rest => .error (.here cause rest)
      | .error cause, .error _ => .error (.here cause (skipSpace rest))
      | .ok _, .error fault => .error fault
      | .ok r, .ok rest => .ok (r, rest)
  | cs => .error (unexpected k.described cs)

end RecordKind

end BranchingDialogue.Json
