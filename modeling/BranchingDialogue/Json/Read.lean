import BranchingDialogue.Json.Number
import BranchingDialogue.Json.Text

/-!
# Reading JSON values

`Json.parse` reads a text that is one JSON value. The steps it is made of also serve readers that
want a value of a certain shape: each takes the characters that are left and gives a value with the
characters after it, or the first fault.
-/

namespace BranchingDialogue.Json

/-- How deep arrays and objects may lie in one another. -/
def depthLimit : Nat := 127

/-- Reads the rest of a word such as `null`, after its first letter. -/
def readWord : List Char → List Char → Except Fault (List Char)
  | [], cs => .ok cs
  | _ :: _, [] => .error (.here .eofInValue [])
  | w :: ws, c :: cs => if c = w then readWord ws cs else .error (.next .expectedIdent (c :: cs))

/-- Moves to the next element of an array, which is at its first one or not; none at its end. -/
def nextElement (first : Bool) (cs : List Char) : Except Fault (Option (List Char)) :=
  match skipSpace cs with
  | [] => .error (.next .eofInList [])
  | ']' :: _ => .ok none
  | c :: rest =>
    if first then .ok (some (c :: rest))
    else if c = ',' then
      match skipSpace rest with
      | [] => .error (.next .eofInValue [])
      | ']' :: rest => .error (.next .trailingComma (']' :: rest))
      | rest => .ok (some rest)
    else .error (.next .expectedListCommaOrEnd (c :: rest))

/-- Leaves an array. -/
def closeList (cs : List Char) : Except Fault (List Char) :=
  match skipSpace cs with
  | [] => .error (.next .eofInList [])
  | ']' :: rest => .ok rest
  | ',' :: rest =>
    match skipSpace rest with
    | ']' :: rest => .error (.next .trailingComma (']' :: rest))
    | rest => .error (.next .trailingCharacters rest)
  | rest => .error (.next .trailingCharacters rest)

/-- Reads the elements of an array up to its end, each by `item`. Every element takes a character, so
the characters from the bracket on bound the number of steps. -/
def readElements {α : Type} (item : List Char → Reading α) :
    List Char → Bool → List Char → Reading (List α)
  | [], _, cs => .ok ([], cs)
  | _ :: bound, first, cs =>
    match nextElement first cs with
    | .error fault => .error fault
    | .ok none => .ok ([], cs)
    | .ok (some rest) =>
      match item rest with
      | .error fault => .error fault
      | .ok (x, rest) =>
        match readElements item bound false rest with
        | .error fault => .error fault
        | .ok (xs, rest) => .ok (x :: xs, rest)

/-- Reads an array after its bracket. -/
def readList {α : Type} (item : List Char → Reading α) (cs : List Char) : Reading (List α) :=
  match readElements item ('[' :: cs) true cs with
  | .error fault => .error fault
  | .ok (xs, rest) =>
    match closeList rest with
    | .error fault => .error fault
    | .ok rest => .ok (xs, rest)

/-- Moves to the name of the next member of an object, after its opening quote; none at the end. -/
def nextMember (first : Bool) (cs : List Char) : Except Fault (Option (List Char)) :=
  match skipSpace cs with
  | [] => .error (.next .eofInObject [])
  | '\x7d' :: _ => .ok none
  | c :: rest =>
    if first then
      if c = '"' then .ok (some rest) else .error (.next .keyNotText (c :: rest))
    else if c = ',' then
      match skipSpace rest with
      | [] => .error (.next .eofInValue [])
      | '"' :: rest => .ok (some rest)
      | '\x7d' :: rest => .error (.next .trailingComma ('\x7d' :: rest))
      | rest => .error (.next .keyNotText rest)
    else .error (.next .expectedObjectCommaOrEnd (c :: rest))

/-- Moves past the colon between a name and its value. -/
def colon (cs : List Char) : Except Fault (List Char) :=
  match skipSpace cs with
  | [] => .error (.next .eofInObject [])
  | ':' :: rest => .ok rest
  | rest => .error (.next .expectedColon rest)

/-- Leaves an object. -/
def closeObject (cs : List Char) : Except Fault (List Char) :=
  match skipSpace cs with
  | [] => .error (.next .eofInObject [])
  | '\x7d' :: rest => .ok rest
  | ',' :: rest => .error (.next .trailingComma (',' :: rest))
  | rest => .error (.next .trailingCharacters rest)

/-- Reads the members of an object up to its end. `member` takes a name and reads the rest of the
member, from the colon on, into what has been gathered. The characters from the bracket on bound the
number of steps. -/
def readMembers {σ : Type} (member : σ → String → List Char → Reading σ) :
    List Char → Bool → σ → List Char → Reading σ
  | [], _, s, cs => .ok (s, cs)
  | _ :: bound, first, s, cs =>
    match nextMember first cs with
    | .error fault => .error fault
    | .ok none => .ok (s, cs)
    | .ok (some rest) =>
      match readText rest with
      | .error fault => .error fault
      | .ok (name, rest) =>
        match member s name rest with
        | .error fault => .error fault
        | .ok (s, rest) => readMembers member bound false s rest

/-- A number as a JSON value. -/
def Number.toJson : Number → Json
  | .integer n => .integer n
  | .float x => .float x

/-- Reads any value whose arrays and objects lie at most `depth` deep in one another. -/
def readValue : Nat → List Char → Reading Json
  | depth, cs =>
    match skipSpace cs with
    | [] => .error (.next .eofInValue [])
    | c :: rest =>
      if c = 'n' then (readWord ['u', 'l', 'l'] rest).map fun rest => (.null, rest)
      else if c = 't' then (readWord ['r', 'u', 'e'] rest).map fun rest => (.bool true, rest)
      else if c = 'f' then (readWord ['a', 'l', 's', 'e'] rest).map fun rest => (.bool false, rest)
      else if c = '-' then (readNumber true rest).map fun (n, rest) => (n.toJson, rest)
      else if c.isDigit then (readNumber false (c :: rest)).map fun (n, rest) => (n.toJson, rest)
      else if c = '"' then (readText rest).map fun (s, rest) => (.text s, rest)
      else if c = '[' then
        match depth with
        | 0 => .error (.next .tooDeep (c :: rest))
        | depth + 1 => (readList (readValue depth) rest).map fun (xs, rest) => (.array xs, rest)
      else if c = '\x7b' then
        match depth with
        | 0 => .error (.next .tooDeep (c :: rest))
        | depth + 1 =>
          let member (ms : List (String × Json)) (name : String) (cs : List Char) :
              Reading (List (String × Json)) :=
            match colon cs with
            | .error fault => .error fault
            | .ok rest => (readValue depth rest).map fun (v, rest) => (insertMember name v ms, rest)
          match readMembers member (c :: rest) true [] rest with
          | .error fault => .error fault
          | .ok (ms, rest) => (closeObject rest).map fun rest => (.object ms, rest)
      else .error (.next .expectedValue (c :: rest))

/-- Reads a whole text: one value, and nothing but white space after it. -/
def whole {α : Type} (reader : List Char → Reading α) (s : String) : Except Fault α :=
  match reader s.toList with
  | .error fault => .error fault
  | .ok (x, rest) =>
    match skipSpace rest with
    | [] => .ok x
    | rest => .error (.next .trailingCharacters rest)

/-- Reads a text that is one JSON value. -/
def parse (s : String) : Except Fault Json := whole (readValue depthLimit) s

end BranchingDialogue.Json
