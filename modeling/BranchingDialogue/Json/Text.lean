import BranchingDialogue.Decimal.Numeral
import BranchingDialogue.Json.Fault

/-!
# JSON strings

Reading a string after its opening quote, with its escapes, and writing one.
-/

namespace BranchingDialogue.Json

/-- The value of a hexadecimal digit. -/
def hexValue? (c : Char) : Option Nat :=
  if c.isDigit then some (c.toNat - '0'.toNat)
  else if 'a' ≤ c ∧ c ≤ 'f' then some (c.toNat - 'a'.toNat + 10)
  else if 'A' ≤ c ∧ c ≤ 'F' then some (c.toNat - 'A'.toNat + 10)
  else none

/-- The value of four hexadecimal digits. -/
def hexUnit? (a b c d : Char) : Option Nat := do
  return ((← hexValue? a) * 16 + (← hexValue? b)) * 256 + ((← hexValue? c) * 16 + (← hexValue? d))

/-- The fault of an escape without its four digits. Four bytes are taken whatever they are. -/
def hexFault (cs : List Char) : Fault :=
  if utf8Length cs < 4 then ⟨.eofInString, 0⟩ else ⟨.invalidEscape, utf8Length cs - 4⟩

/-- Reads the four hexadecimal digits of an escape. -/
def hexUnit (cs : List Char) : Reading Nat :=
  match cs with
  | a :: b :: c :: d :: rest =>
    match hexUnit? a b c d with
    | some n => .ok (n, rest)
    | none => .error (hexFault cs)
  | _ => .error (hexFault cs)

/-- Whether a UTF-16 unit opens a pair. -/
def isLeading (n : Nat) : Bool := 0xd800 ≤ n && n ≤ 0xdbff

/-- Whether a UTF-16 unit closes a pair. -/
def isTrailing (n : Nat) : Bool := 0xdc00 ≤ n && n ≤ 0xdfff

/-- Reads the second half of a pair of escapes, after the first half `leading`. -/
def trailingUnit (leading : Nat) (cs : List Char) : Reading Char :=
  match cs with
  | [] => .error (.here .eofInString [])
  | '\\' :: rest =>
    match rest with
    | [] => .error (.here .eofInString [])
    | 'u' :: rest =>
      match hexUnit rest with
      | .error fault => .error fault
      | .ok (n, rest) =>
        if isTrailing n then
          .ok (Char.ofNat ((leading - 0xd800) * 0x400 + (n - 0xdc00) + 0x10000), rest)
        else .error (.here .loneSurrogate rest)
    | _ => .error (.next .unfinishedSurrogate rest)
  | _ => .error (.next .unfinishedSurrogate cs)

/-- The character of an escape by a single letter. -/
def shortEscape? (c : Char) : Option Char :=
  match c with
  | '"' => some '"'
  | '\\' => some '\\'
  | '/' => some '/'
  | 'b' => some '\x08'
  | 'f' => some '\x0c'
  | 'n' => some '\n'
  | 'r' => some '\r'
  | 't' => some '\t'
  | _ => none

/-- Reads an escape, after its backslash. -/
def escaped (cs : List Char) : Reading Char :=
  match cs with
  | [] => .error (.here .eofInString [])
  | 'u' :: rest =>
    match hexUnit rest with
    | .error fault => .error fault
    | .ok (n, rest) =>
      if isTrailing n then .error (.here .loneSurrogate rest)
      else if isLeading n then trailingUnit n rest
      else .ok (Char.ofNat n, rest)
  | c :: rest =>
    match shortEscape? c with
    | some d => .ok (d, rest)
    | none => .error (.next .invalidEscape (c :: rest))

/-- Reads an escape without taking the character; halves of pairs pass. -/
def skipEscaped (cs : List Char) : Except Fault (List Char) :=
  match cs with
  | [] => .error (.here .eofInString [])
  | 'u' :: rest => (hexUnit rest).map (·.2)
  | c :: rest =>
    if (shortEscape? c).isSome then .ok rest else .error (.next .invalidEscape (c :: rest))

/-- Reads the characters of a string up to its closing quote, at most as many as the first list is
long; `read` holds those before, the last one first. -/
def textChars : List Char → List Char → List Char → Reading String
  | [], _, cs => .error (.here .eofInString cs)
  | _ :: bound, read, cs =>
    match cs with
    | [] => .error (.here .eofInString [])
    | '"' :: rest => .ok (String.ofList read.reverse, rest)
    | '\\' :: rest =>
      match escaped rest with
      | .error fault => .error fault
      | .ok (c, rest) => textChars bound (c :: read) rest
    | c :: rest =>
      if c.toNat < 0x20 then .error (.here .controlCharacter rest)
      else textChars bound (c :: read) rest

/-- Reads a string, after its opening quote. -/
def readText (cs : List Char) : Reading String := textChars ('"' :: cs) [] cs

/-- Reads a string without taking it, at most as many characters as the first list is long. -/
def skipTextChars : List Char → List Char → Except Fault (List Char)
  | [], cs => .error (.here .eofInString cs)
  | _ :: bound, cs =>
    match cs with
    | [] => .error (.here .eofInString [])
    | '"' :: rest => .ok rest
    | '\\' :: rest =>
      match skipEscaped rest with
      | .error fault => .error fault
      | .ok rest => skipTextChars bound rest
    | c :: rest =>
      if c.toNat < 0x20 then .error (.here .controlCharacter (c :: rest))
      else skipTextChars bound rest

/-- Skips a string, after its opening quote. -/
def skipText (cs : List Char) : Except Fault (List Char) := skipTextChars ('"' :: cs) cs

/-- A character as it stands inside a written string. -/
def writtenChar (c : Char) : List Char :=
  if c == '"' then ['\\', '"']
  else if c == '\\' then ['\\', '\\']
  else if c == '\x08' then ['\\', 'b']
  else if c == '\x0c' then ['\\', 'f']
  else if c == '\n' then ['\\', 'n']
  else if c == '\r' then ['\\', 'r']
  else if c == '\t' then ['\\', 't']
  else if c.toNat < 0x20 then
    ['\\', 'u', '0', '0', Nat.digitChar (c.toNat / 16), Nat.digitChar (c.toNat % 16)]
  else [c]

/-- A text as a JSON string. -/
def writtenText (s : String) : String :=
  String.ofList ('"' :: s.toList.flatMap writtenChar ++ ['"'])

end BranchingDialogue.Json
