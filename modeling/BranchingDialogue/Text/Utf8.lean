/-!
# Byte positions

Texts are lists of characters here; positions in messages count the bytes of their UTF-8 form.
-/

namespace BranchingDialogue

/-- The number of bytes of the UTF-8 form of some characters. -/
def utf8Length : List Char → Nat
  | [] => 0
  | c :: cs => c.utf8Size + utf8Length cs

/-- The characters from a byte position on; none if the position lies inside a character or past
the end. -/
def dropBytes? : Nat → List Char → Option (List Char)
  | 0, cs => some cs
  | _ + 1, [] => none
  | n + 1, c :: cs => if c.utf8Size ≤ n + 1 then dropBytes? (n + 1 - c.utf8Size) cs else none
  termination_by _ cs => cs.length

/-- Whether two names are the same without regard to the case of ASCII letters. -/
def sameName (a b : String) : Bool := a.toList.map Char.toLower == b.toList.map Char.toLower

end BranchingDialogue
