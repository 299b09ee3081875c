import BranchingDialogue.Json.Fault

/-!
# Excerpts

The part of a text around a fault, with the place of the fault in it. Offsets count bytes; the cuts
fall between characters.
-/

namespace BranchingDialogue

/-- A part of a text with one place in it marked. -/
structure Excerpt where
  text : String
  /-- The byte position of the mark in the excerpt. -/
  offset : Nat
  /-- The length of the mark: one byte, or nothing past the end. -/
  length : Nat
  deriving DecidableEq, Repr

namespace Excerpt

/-- The lines of a text, each with the line feed that ends it. -/
def lines : List Char → List (List Char)
  | [] => []
  | c :: cs =>
    if c = '\n' then [c] :: lines cs
    else
      match lines cs with
      | [] => [[c]]
      | line :: rest => (c :: line) :: rest

/-- The byte position of a place in a text: as many characters into its line as the column says, or at
the line's last byte. Past the last line it is the text's last byte. -/
def offsetOf (p : Json.Place) (cs : List Char) : Nat :=
  if p.line = 0 ∨ p.column = 0 then 0
  else
    match (lines cs)[p.line - 1]? with
    | none => utf8Length cs - 1
    | some line =>
      let before := utf8Length ((lines cs).take (p.line - 1)).flatten
      if p.column - 1 < line.length then before + utf8Length (line.take (p.column - 1))
      else before + (utf8Length line - 1)

/-- How many bytes an excerpt reaches to either side of its mark, before it is widened to whole
characters. -/
def reach : Nat := 120

/-- How many characters lie within the first `n` bytes. -/
def charsWithin : Nat → List Char → Nat
  | _, [] => 0
  | n, c :: cs => if c.utf8Size ≤ n then charsWithin (n - c.utf8Size) cs + 1 else 0

/-- How many characters cover the first `n` bytes. -/
def charsCovering : Nat → List Char → Nat
  | _, [] => 0
  | n, c :: cs => if n = 0 then 0 else charsCovering (n - c.utf8Size) cs + 1

/-- The excerpt around a byte position. -/
def around (cs : List Char) (offset : Nat) : Excerpt :=
  let first := charsWithin (offset - reach) cs
  let window := (cs.take (charsCovering (offset + 1 + reach) cs)).drop first
  let mark := offset - utf8Length (cs.take first)
  { text := String.ofList window, offset := mark,
    length := if mark < utf8Length window then 1 else 0 }

/-- The excerpt of a text around a fault. -/
def ofFault (f : Json.Fault) (text : String) : Excerpt :=
  around text.toList (offsetOf (f.place text) text.toList)

end Excerpt

end BranchingDialogue
