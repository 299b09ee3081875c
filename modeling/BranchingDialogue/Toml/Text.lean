import BranchingDialogue.Json.Text
import BranchingDialogue.Toml.Basic

/-!
# TOML texts and keys

Texts stand in double quotes, with escapes, or in single quotes, without. Three quotes begin a text of
several lines; a line break right after them does not count.
-/

namespace BranchingDialogue.Toml

/-- The character with a code, written by hexadecimal digits. -/
def codePoint? (digits : List Char) : Option Char :=
  (digits.mapM Json.hexValue?).bind fun ds =>
    let n := ds.foldl (fun n d => 16 * n + d) 0
    if h : n.isValidChar then some (Char.ofNatAux n h) else none

/-- The character that an escape stands for, and how many characters the escape takes after its
backslash. -/
def escape? : List Char → Option (Char × Nat)
  | 'b' :: _ => some ('\x08', 1)
  | 't' :: _ => some ('\t', 1)
  | 'n' :: _ => some ('\n', 1)
  | 'f' :: _ => some ('\x0c', 1)
  | 'r' :: _ => some ('\r', 1)
  | '"' :: _ => some ('"', 1)
  | '\\' :: _ => some ('\\', 1)
  | 'u' :: cs => if cs.length < 4 then none else (codePoint? (cs.take 4)).map (·, 5)
  | 'U' :: cs => if cs.length < 8 then none else (codePoint? (cs.take 8)).map (·, 9)
  | _ => none

/-- The end of a text of several lines at some quotes: up to two of them belong to the text. Without
three quotes in a row there is no end. -/
def longEnd? (quote : Char) (cs : List Char) : Option (List Char × List Char) :=
  let run := (cs.takeWhile (· == quote)).length
  if run < 3 then none
  else
    let inner := Nat.min (run - 3) 2
    some (List.replicate inner quote, cs.drop (inner + 3))

/-- How many characters a backslash at the end of a line takes away: all white space up to the next
character that shows. -/
def lineJoin? (cs : List Char) : Option Nat :=
  (newline? (skipGap cs)).map fun _ =>
    (cs.takeWhile fun c => isGap c || c == '\n' || c == '\r').length

/-- Reads the characters of a text up to its end. `long` texts may have several lines, `escapes` begin
with a backslash, and the first `skip` characters belong to an escape already read. -/
def textBody (quote : Char) (long escapes : Bool) (skip : Nat) : List Char → Reading (List Char)
  | [] => none
  | c :: cs =>
    match skip with
    | skip + 1 => textBody quote long escapes skip cs
    | 0 =>
      let next (shown : List Char) (skip : Nat) : Reading (List Char) :=
        (textBody quote long escapes skip cs).map fun (after, rest) => (shown ++ after, rest)
      if c = quote then
        if long then
          match longEnd? quote (c :: cs) with
          | some result => some result
          | none => next [c] 0
        else some ([], cs)
      else if escapes && c == '\\' then
        match if long then lineJoin? cs else none with
        | some n => next [] n
        | none => (escape? cs).bind fun (shown, n) => next [shown] n
      else if isPlain c then next [c] 0
      else if long && c == '\n' then next [c] 0
      else if long && c == '\r' && cs.head? == some '\n' then next [] 0
      else none

/-- The characters after the line break that a long text may begin with. -/
def skipFirstBreak (cs : List Char) : List Char := (newline? cs).getD cs

/-- Reads a text of one line. -/
def readShortText (cs : List Char) : Reading String :=
  match cs with
  | '"' :: rest => (textBody '"' false true 0 rest).map fun (s, rest) => (String.ofList s, rest)
  | '\'' :: rest => (textBody '\'' false false 0 rest).map fun (s, rest) => (String.ofList s, rest)
  | _ => none

/-- Reads a text. -/
def readText (cs : List Char) : Reading String :=
  match cs with
  | '"' :: '"' :: '"' :: rest =>
    (textBody '"' true true 0 (skipFirstBreak rest)).map fun (s, rest) => (String.ofList s, rest)
  | '\'' :: '\'' :: '\'' :: rest =>
    (textBody '\'' true false 0 (skipFirstBreak rest)).map fun (s, rest) => (String.ofList s, rest)
  | cs => readShortText cs

/-- Characters of a key without quotes. -/
def isKeyChar (c : Char) : Bool := c.isAlphanum || c == '_' || c == '-'

/-- Reads a part of a key. -/
def readKeyPart (cs : List Char) : Reading String :=
  match cs with
  | [] => none
  | c :: _ =>
    if c == '"' || c == '\'' then readShortText cs
    else
      match cs.takeWhile isKeyChar with
      | [] => none
      | part => some (String.ofList part, cs.dropWhile isKeyChar)

/-- Reads the parts of a key after the first one, at most `fuel` of them. -/
def readKeyTail : Nat → List Char → Reading (List String)
  | 0, _ => none
  | fuel + 1, cs =>
    match skipGap cs with
    | '.' :: rest =>
      (readKeyPart (skipGap rest)).bind fun (part, rest) =>
        (readKeyTail fuel rest).map fun (parts, rest) => (part :: parts, rest)
    | rest => some ([], rest)

/-- Reads a key: parts with dots between them, and spaces around both. -/
def readKey (cs : List Char) : Reading (String × List String) :=
  (readKeyPart (skipGap cs)).bind fun (part, rest) =>
    (readKeyTail (rest.length + 1) rest).map fun (parts, rest) => ((part, parts), rest)

end BranchingDialogue.Toml
