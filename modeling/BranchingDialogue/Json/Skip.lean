import BranchingDialogue.Json.Read

/-!
# Skipping JSON values

The value of a member that nobody asks for is passed over. It has to be well formed, but less is
asked of it than of a value that is read: its depth is free, its numbers have no range, and halves
of surrogate pairs pass.
-/

namespace BranchingDialogue.Json

/-- Skips the digits of an exponent, after its letter. -/
def skipExponent (cs : List Char) : Except Fault (List Char) :=
  let rest := match cs with
    | '+' :: rest => rest
    | '-' :: rest => rest
    | rest => rest
  match rest with
  | [] => .error (.here .invalidNumber [])
  | c :: rest =>
    if c.isDigit then .ok (rest.dropWhile Char.isDigit)
    else .error (.next .invalidNumber (c :: rest))

/-- Skips an exponent if there is one. -/
def skipExponentPart (cs : List Char) : Except Fault (List Char) :=
  match cs with
  | c :: rest => if c == 'e' || c == 'E' then skipExponent rest else .ok cs
  | [] => .ok []

/-- Skips a number after its sign. -/
def skipNumber (cs : List Char) : Except Fault (List Char) :=
  match cs with
  | [] => .error (.here .invalidNumber [])
  | c :: rest =>
    if !c.isDigit then .error (.next .invalidNumber (c :: rest))
    else if c == '0' && (match rest with | d :: _ => d.isDigit | [] => false) then
      .error (.next .invalidNumber rest)
    else
      match rest.dropWhile Char.isDigit with
      | '.' :: rest =>
        match rest with
        | d :: rest =>
          if d.isDigit then skipExponentPart (rest.dropWhile Char.isDigit)
          else .error (.next .invalidNumber (d :: rest))
        | [] => .error (.next .invalidNumber [])
      | rest => skipExponentPart rest

/-- The brackets that enclose a skipped value. -/
inductive Bracket where
  | list
  | object
  deriving DecidableEq

/-- The fault of a text that ends inside a bracket. -/
def Bracket.eof : Bracket → Cause
  | .list => .eofInList
  | .object => .eofInObject

/-- The fault of a bracket that goes on without a comma. -/
def Bracket.unseparated : Bracket → Cause
  | .list => .expectedListCommaOrEnd
  | .object => .expectedObjectCommaOrEnd

/-- The character that closes a bracket. -/
def Bracket.closing : Bracket → Char
  | .list => ']'
  | .object => '\x7d'

/-- Skips the name of a member of an object, and its colon. -/
def skipName (cs : List Char) : Except Fault (List Char) :=
  match skipSpace cs with
  | [] => .error (.next .eofInObject [])
  | '"' :: rest =>
    match skipText rest with
    | .error fault => .error fault
    | .ok rest => colon rest
  | rest => .error (.next .keyNotText rest)

/-- Skips a value without parts of its own; nothing if it opens a bracket. -/
def skipLeaf (cs : List Char) : Except Fault (Option (List Char)) :=
  match cs with
  | [] => .error (.next .eofInValue [])
  | c :: rest =>
    if c = 'n' then (readWord ['u', 'l', 'l'] rest).map some
    else if c = 't' then (readWord ['r', 'u', 'e'] rest).map some
    else if c = 'f' then (readWord ['a', 'l', 's', 'e'] rest).map some
    else if c = '-' then (skipNumber rest).map some
    else if c.isDigit then (skipNumber (c :: rest)).map some
    else if c = '"' then (skipText rest).map some
    else if c = '[' || c = '\x7b' then .ok none
    else .error (.next .expectedValue (c :: rest))

/-- What comes after a skipped value or an opened bracket: the next value to skip, with the brackets
around it, or the end of the outermost value. -/
inductive Onward where
  | value (enclosing : List Bracket) (rest : List Char)
  | done (rest : List Char)

/-- Closes brackets until a next value is due. `separated` tells whether a value was just skipped,
so that a comma may follow. -/
def onward : List Bracket → Bool → List Char → Except Fault Onward
  | [], _, cs => .ok (.done cs)
  | b :: outer, separated, cs =>
    let enter (rest : List Char) : Except Fault Onward :=
      match b with
      | .list => .ok (.value (b :: outer) rest)
      | .object => (skipName rest).map (.value (b :: outer))
    match skipSpace cs with
    | [] => .error (.next b.eof [])
    | c :: rest =>
      if separated && c = ',' then enter rest
      else if c = b.closing then onward outer true rest
      else if separated then .error (.next b.unseparated (c :: rest))
      else enter (c :: rest)

/-- Skips values inside the given brackets until all of these are closed, in at most as many steps as
the first list is long. -/
def skipWithin : List Char → List Bracket → List Char → Except Fault (List Char)
  | [], _, cs => .ok cs
  | _ :: bound, enclosing, cs =>
    let cs := skipSpace cs
    let step : Except Fault Onward :=
      match skipLeaf cs with
      | .error fault => .error fault
      | .ok (some rest) => onward enclosing true rest
      | .ok none =>
        match cs with
        | '[' :: rest => onward (.list :: enclosing) false rest
        | _ :: rest => onward (.object :: enclosing) false rest
        | [] => .ok (.done [])
    match step with
    | .error fault => .error fault
    | .ok (.done rest) => .ok rest
    | .ok (.value enclosing rest) => skipWithin bound enclosing rest

/-- Skips one value. Every step takes a character, but for the one that finds none. -/
def skipValue (cs : List Char) : Except Fault (List Char) := skipWithin (' ' :: cs) [] cs

end BranchingDialogue.Json
