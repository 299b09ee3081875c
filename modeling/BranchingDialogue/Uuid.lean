import BranchingDialogue.Json.Text

/-!
# Identifiers

Nodes and properties are identified by 128 bits. They are written as 32 hexadecimal digits; a
property may also use the forms with hyphens, braces or a URN in front.
-/

namespace BranchingDialogue

/-- An identifier of 128 bits. -/
structure Uuid where
  bits : BitVec 128
  deriving DecidableEq, Repr

/-- Nodes have identifiers of their own. -/
abbrev NodeId := Uuid

namespace Uuid

instance : Inhabited Uuid := ⟨⟨0⟩⟩

/-- The number written by hexadecimal digits after what has been read; none if a character is no
digit. -/
def hexNat? : Nat → List Char → Option Nat
  | n, [] => some n
  | n, c :: cs =>
    match Json.hexValue? c with
    | none => none
    | some d => hexNat? (16 * n + d) cs

/-- The last `count` hexadecimal digits of a number. -/
def hexFixed : Nat → Nat → List Char
  | 0, _ => []
  | count + 1, n => hexFixed count (n / 16) ++ [Nat.digitChar (n % 16)]

/-- Reads 32 hexadecimal digits. -/
def ofDigits? (cs : List Char) : Option Uuid :=
  if cs.length = 32 then (hexNat? 0 cs).map fun n => ⟨BitVec.ofNat 128 n⟩ else none

/-- Removes the hyphens of the form with 8, 4, 4, 4 and 12 digits. -/
def dehyphenate? (cs : List Char) : Option (List Char) :=
  if cs.length = 36 ∧ cs[8]? = some '-' ∧ cs[13]? = some '-' ∧ cs[18]? = some '-'
      ∧ cs[23]? = some '-' then
    some (cs.take 8 ++ (cs.drop 9).take 4 ++ (cs.drop 14).take 4 ++ (cs.drop 19).take 4
      ++ cs.drop 24)
  else none

/-- Reads any of the accepted forms: 32 digits, the form with hyphens, and the latter in braces or
after `urn:uuid:` in letters of either case. -/
def parse? (s : String) : Option Uuid :=
  let cs := s.toList
  if cs.length = 32 then ofDigits? cs
  else
    let inner? : Option (List Char) :=
      match cs with
      | '\x7b' :: rest =>
        if rest.getLast? = some '\x7d' then some rest.dropLast else none
      | cs => if (cs.take 9).map Char.toLower = "urn:uuid:".toList then some (cs.drop 9) else some cs
    inner?.bind dehyphenate? |>.bind ofDigits?

/-- The form of 32 lower-case digits. -/
def simple (u : Uuid) : String := String.ofList (hexFixed 32 u.bits.toNat)

/-- The form with hyphens. -/
def hyphenated (u : Uuid) : String :=
  let cs := hexFixed 32 u.bits.toNat
  String.ofList <|
    cs.take 8 ++ '-' :: (cs.drop 8).take 4 ++ '-' :: (cs.drop 12).take 4 ++
      '-' :: (cs.drop 16).take 4 ++ '-' :: cs.drop 20

end Uuid

namespace NodeId

/-- Reads a node's identifier, which has the form of 32 digits and no other. -/
def parse? (s : String) : Option NodeId := Uuid.ofDigits? s.toList

/-- The message for a text that is no identifier of a node. -/
def malformed (s : String) : String := "`" ++ s ++ "` is not a 32-digit hex id"

end NodeId

end BranchingDialogue
