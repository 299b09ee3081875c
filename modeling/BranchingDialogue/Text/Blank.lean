/-!
# Blank characters

Two classes of white space: the blanks that separate attributes inside a tag, which are ASCII, and
the white space trimmed from the ends of a parameter, which is the Unicode property.
-/

namespace BranchingDialogue

/-- The blanks between attributes: space, tab, line feed, form feed and carriage return. -/
def isBlank (c : Char) : Bool :=
  c == ' ' || c == '\t' || c == '\n' || c == '\x0c' || c == '\r'

/-- Whether a character has the Unicode property `White_Space`. -/
def isSpace (c : Char) : Bool :=
  let n := c.toNat
  (9 ≤ n && n ≤ 13) || n == 0x20 || n == 0x85 || n == 0xa0 || n == 0x1680 ||
    (0x2000 ≤ n && n ≤ 0x200a) || n == 0x2028 || n == 0x2029 || n == 0x202f || n == 0x205f ||
    n == 0x3000

/-- Drops the characters of a class from the end. -/
def trimEnd (p : Char → Bool) (cs : List Char) : List Char := (cs.reverse.dropWhile p).reverse

/-- Drops white space from both ends. -/
def trimSpace (cs : List Char) : List Char := trimEnd isSpace (cs.dropWhile isSpace)

end BranchingDialogue
