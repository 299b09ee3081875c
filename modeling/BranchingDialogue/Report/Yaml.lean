import BranchingDialogue.Decimal.Numeral
import BranchingDialogue.Json.Text
import BranchingDialogue.Report.Basic
import BranchingDialogue.Text.Utf8

/-!
# Reports as YAML

Records and lists in block form, two spaces further in at each level; lists stand under their field
without going further in. A text is written without quotes where nothing else could be read from it,
in blocks if it has several lines, and in quotes otherwise.
-/

namespace BranchingDialogue.Report

/-! ## Texts that look like something else -/

/-- Drops a plus sign, which may not be followed by another sign. -/
def dropPlus? : List Char → Option (List Char)
  | '+' :: '+' :: _ => none
  | '+' :: '-' :: _ => none
  | '+' :: cs => some cs
  | cs => some cs

/-- The number written by digits of a base; none without digits. -/
def digitsOf? (base : Nat) (cs : List Char) : Option Nat :=
  if cs.isEmpty then none
  else
    cs.foldlM (fun n c => ((Json.hexValue? c).filter (· < base)).map (base * n + ·)) 0

/-- Whether a text is a whole number in one of the bases that have a mark. -/
def looksBased (cs : List Char) : Bool :=
  let (negative, rest) :=
    match cs with
    | '-' :: rest => (true, rest)
    | '+' :: rest => (false, rest)
    | rest => (false, rest)
  let fits (n : Nat) : Bool := if negative then n ≤ Nat.pow 2 127 else n < Nat.pow 2 128
  match rest with
  | '0' :: 'x' :: ds => (digitsOf? 16 ds).any fits
  | '0' :: 'o' :: ds => (digitsOf? 8 ds).any fits
  | '0' :: 'b' :: ds => (digitsOf? 2 ds).any fits
  | _ => false

/-- Whether a text is a decimal number that a double can hold. -/
def looksDecimal (cs : List Char) : Bool :=
  match (dropPlus? cs).bind Numeral.read? with
  | some (.number _ m e) => (Numeral.toDouble m e).isFinite
  | _ => false

/-- Whether a text is digits with a needless zero in front, which some readers take for a number. -/
def looksPadded (cs : List Char) : Bool :=
  let digits := match cs with | '-' :: ds => ds | '+' :: ds => ds | ds => ds
  match digits with
  | '0' :: d :: ds => (d :: ds).all Char.isDigit
  | _ => false

/-- The words that are not read as texts. -/
def reservedWords : List String :=
  ["", "~", "null", "Null", "NULL", "true", "True", "TRUE", "false", "False", "FALSE", ".inf",
    ".Inf", ".INF", "+.inf", "+.Inf", "+.INF", "-.inf", "-.Inf", "-.INF", ".nan", ".NaN", ".NAN"]

/-- Whether a text without quotes would be read as something else. -/
def looksTyped (cs : List Char) : Bool :=
  reservedWords.contains (String.ofList cs) || looksBased cs || looksDecimal cs || looksPadded cs

/-! ## Styles of texts -/

/-- Line breaks, of which some are more than a line feed. -/
def isBreak (c : Char) : Bool :=
  c == '\n' || c == '\r' || c == '\u0085' || c == '\u2028' || c == '\u2029'

/-- White space between words and the null character. -/
def isSeparator (c : Char) : Bool := c == ' ' || c == '\t' || c == '\x00' || isBreak c

/-- Characters that stand for themselves outside of escapes. -/
def isPrintable (c : Char) : Bool :=
  let n := c.toNat
  n == 10 || (0x20 ≤ n && n ≤ 0x7e) || (0xa0 ≤ n && n ≤ 0xd7ff) ||
    (0xe000 ≤ n && n ≤ 0xfffd && n != 0xfeff)

/-- Whether two neighbours satisfy a test; the end of the text counts as a neighbour. -/
def anyPair (p : Char → Option Char → Bool) : List Char → Bool
  | [] => false
  | [c] => p c none
  | c :: d :: rest => p c (some d) || anyPair p (d :: rest)

/-- Characters with which a plain text does not begin. -/
def indicators : List Char :=
  ['#', ',', '[', ']', '\x7b', '\x7d', '&', '*', '!', '|', '>', '\'', '"', '%', '@', '\x60']

/-- Whether a text has marks of its own meaning. -/
def hasIndicators (cs : List Char) : Bool :=
  let apart (next : Option Char) : Bool := next.all isSeparator
  cs.take 3 == ['-', '-', '-'] || cs.take 3 == ['.', '.', '.']
    || cs.head?.any indicators.contains
    || (cs.head?.any fun c => c == '?' || c == '-') && apart cs.tail.head?
    || anyPair (fun c next => c == ':' && apart next) cs
    || anyPair (fun c next => isSeparator c && next == some '#') cs

/-- Whether a text has characters, or white space at the end of a line, that need escapes. -/
def needsEscapes (cs : List Char) : Bool :=
  !cs.all isPrintable || anyPair (fun c next => c == ' ' && next.any isBreak) cs

/-- Whether a line after the first begins with a space. -/
def hasIndentedLine (cs : List Char) : Bool :=
  anyPair (fun c next => isBreak c && next == some ' ') cs

/-- Whether a text can stand without quotes. -/
def allowsPlain (cs : List Char) : Bool :=
  !(needsEscapes cs || cs.any isBreak || hasIndicators cs || cs.head? == some ' '
    || cs.getLast? == some ' ')

/-- Whether a text can stand in single quotes. -/
def allowsSingle (cs : List Char) : Bool := !(needsEscapes cs || hasIndentedLine cs)

/-- Whether a text can stand in a block. -/
def allowsBlock (cs : List Char) : Bool := !(needsEscapes cs || cs.getLast? == some ' ')

/-! ## Writing texts -/

/-- The start of a line at some depth. -/
def pad (indent : Nat) : String := String.ofList (List.replicate indent ' ')

/-- A number as hexadecimal digits in capitals. -/
def hexUpper : Nat → Nat → List Char
  | 0, _ => []
  | width + 1, n => hexUpper width (n / 16) ++ [(Nat.digitChar (n % 16)).toUpper]

/-- A character as it stands in double quotes. -/
def escapedChar (c : Char) : List Char :=
  if c == '"' then ['\\', '"']
  else if c == '\\' then ['\\', '\\']
  else if isPrintable c && !isBreak c then [c]
  else
    match c.toNat with
    | 0 => ['\\', '0']
    | 7 => ['\\', 'a']
    | 8 => ['\\', 'b']
    | 9 => ['\\', 't']
    | 10 => ['\\', 'n']
    | 11 => ['\\', 'v']
    | 12 => ['\\', 'f']
    | 13 => ['\\', 'r']
    | 27 => ['\\', 'e']
    | 0x85 => ['\\', 'N']
    | 0x2028 => ['\\', 'L']
    | 0x2029 => ['\\', 'P']
    | n =>
      if n ≤ 0xff then '\\' :: 'x' :: hexUpper 2 n
      else if n ≤ 0xffff then '\\' :: 'u' :: hexUpper 4 n
      else '\\' :: 'U' :: hexUpper 8 n

/-- A text in double quotes. -/
def doubleQuoted (cs : List Char) : String :=
  String.ofList ('"' :: cs.flatMap escapedChar ++ ['"'])

/-- The characters of a text, with the indentation of the next line after every break. -/
def indentBreaks (indent : Nat) (broken : Bool) : List Char → List Char
  | [] => []
  | c :: cs =>
    let here := if broken && !isBreak c then List.replicate indent ' ' else []
    here ++ c :: indentBreaks indent (isBreak c) cs

/-- A text in single quotes; the closing one is indented as well if it comes after a break. -/
def singleQuoted (indent : Nat) (cs : List Char) : String :=
  let doubled := cs.flatMap fun c => if c == '\'' then ['\'', '\''] else [c]
  String.ofList ('\'' :: indentBreaks indent false (doubled ++ ['\'']))

/-- The marks after the bar of a block: the depth if the text begins with white space, and what becomes
of the line breaks at its end. -/
def blockMarks (cs : List Char) : String :=
  let depth := if cs.head?.any fun c => c == ' ' || isBreak c then "2" else ""
  let ending :=
    match cs.reverse with
    | [] => "-"
    | [c] => if isBreak c then "+" else "-"
    | c :: d :: _ => if !isBreak c then "-" else if isBreak d then "+" else ""
  depth ++ ending

/-- The lines of a text in a block, its characters already indented. -/
def blockLines (cs : List Char) : List String :=
  match (String.ofList cs).splitOn "\n" with
  | lines => if cs.getLast? == some '\n' then lines.dropLast else lines

/-- The lines of a text at some depth, the first one without its indentation. -/
def textLines (indent : Nat) (s : String) : List String :=
  let cs := s.toList
  if cs.contains '\n' then
    if allowsBlock cs then
      ("|" ++ blockMarks cs) :: blockLines (indentBreaks indent true cs)
    else [doubleQuoted cs]
  else if !looksTyped cs && allowsPlain cs then [s]
  else if allowsSingle cs then [singleQuoted indent cs]
  else [doubleQuoted cs]

/-- A number with a point, or the word for one that is none. -/
def floatText (x : WrittenFloat) (datum : Option String) : String :=
  match x with
  | .undefined => ".nan"
  | .infinite negative => if negative then "-.inf" else ".inf"
  | _ => datum.getD ".nan"

/-! ## Writing reports -/

/-- Puts something in front of the first line. -/
def prepend (start : String) : List String → List String
  | [] => [start]
  | line :: lines => (start ++ line) :: lines

/-- Whether a key can stand in front of its colon. -/
def isSimpleKey (key : String) : Bool := key.utf8ByteSize ≤ 128 && !key.toList.any isBreak

mutual

/-- The lines of a report at some depth, the first one without its indentation. -/
def yamlLines (indent : Nat) : Report → List String
  | .null => ["null"]
  | .bool b => [if b then "true" else "false"]
  | .integer n => [toString n]
  | .single x => [floatText (.ofSingle x) (singleDatum? .bare x)]
  | .double x => [floatText (.ofDouble x) (doubleDatum? .bare x)]
  | .text s => textLines indent s
  | .list items => if items.isEmpty then ["[]"] else yamlItems indent items
  | .record fields => if fields.isEmpty then ["\x7b\x7d"] else yamlFields indent fields

/-- The lines of the elements of a list. -/
def yamlItems (indent : Nat) : List Report → List String
  | [] => []
  | [x] => prepend "- " (yamlLines (indent + 2) x)
  | x :: y :: rest =>
    prepend "- " (yamlLines (indent + 2) x) ++ prepend (pad indent) (yamlItems indent (y :: rest))

/-- The lines of the fields of a record. -/
def yamlFields (indent : Nat) : List (String × Report) → List String
  | [] => []
  | [(key, x)] => yamlField indent key x
  | (key, x) :: y :: rest =>
    yamlField indent key x ++ prepend (pad indent) (yamlFields indent (y :: rest))

/-- The lines of a field. A key that is long or has several lines is marked as such. -/
def yamlField (indent : Nat) (key : String) (x : Report) : List String :=
  if isSimpleKey key then
    let label := String.join (textLines (indent + 2) key) ++ ":"
    match x with
    | .list (y :: items) => label :: prepend (pad indent) (yamlItems indent (y :: items))
    | .record (y :: fields) =>
      label :: prepend (pad (indent + 2)) (yamlFields (indent + 2) (y :: fields))
    | x => prepend (label ++ " ") (yamlLines (indent + 2) x)
  else
    prepend "? " (textLines (indent + 2) key)
      ++ prepend (pad indent ++ ": ") (yamlLines (indent + 2) x)

end

/-- A report as YAML. -/
def yaml (r : Report) : String := String.join ((yamlLines 0 r).map (· ++ "\n"))

end BranchingDialogue.Report
