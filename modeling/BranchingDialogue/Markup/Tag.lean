import BranchingDialogue.Markup.Error
import BranchingDialogue.Text.Blank
import BranchingDialogue.Text.Utf8

/-!
# Tags in a text

A tag is `<`, an optional `/`, a name of letters and hyphens, a body and `>`. The body is empty or
begins with `=`, `/` or a blank; it consists of quoted runs, which may hold any character but their
quote, and of other characters except `<` and `>`. A tag that has a `/` both in front of its name and
at the end of its body is none.
-/

namespace BranchingDialogue

/-- What a tag does to the text around it. -/
inductive Boundary where
  /-- `<tag>` begins something. -/
  | start
  /-- `</tag>` ends something. -/
  | stop
  /-- `<tag/>` stands for itself. -/
  | marker
  deriving DecidableEq, Repr

/-- A tag as it stands in a text. -/
structure Tag where
  boundary : Boundary
  name : String
  /-- What stands between the name and the closing `>` or `/>`. -/
  body : String
  /-- The byte position of the `<`. -/
  start : Nat
  /-- The byte position after the `>`. -/
  stop : Nat
  /-- The byte position of the body. -/
  bodyStart : Nat
  /-- The tag's own characters. -/
  source : String
  deriving DecidableEq, Repr

/-- What begins at a `<`. -/
inductive Scan where
  /-- A tag. -/
  | tag (t : Tag)
  /-- No tag. -/
  | notATag
  /-- What would be a tag if a quote in it were closed; the position is that of the quote. -/
  | unterminatedQuote (name : String) (offset : Nat)
  deriving DecidableEq, Repr

/-- Whether a character may stand in a name. -/
def isNameChar (c : Char) : Bool := c.isAlpha || c == '-'

/-- Whether a character opens or closes a quoted run. -/
def isQuote (c : Char) : Bool := c == '"' || c == '\''

/-- Whether a character may follow a tag's name. -/
def opensBody (c : Char) : Bool := c == '>' || c == '=' || c == '/' || isBlank c

namespace Scan

/-- How the body of a tag ends. -/
inductive BodyEnd where
  /-- At a `>`; with the body's characters. -/
  | closed (body : List Char)
  /-- Not at all. -/
  | broken
  /-- At the end of the text, in the quoted run that begins at a position. -/
  | openQuote (offset : Nat)
  deriving DecidableEq, Repr

/-- Finds the end of a tag's body. `quote` is the quote that is open and its position, `position`
that of the next character and `read` what has been read, last character first. -/
def bodyEnd (quote : Option (Char × Nat)) (position : Nat) (read : List Char) :
    List Char → BodyEnd
  | [] =>
    match quote with
    | some (_, offset) => .openQuote offset
    | none => .broken
  | c :: cs =>
    match quote with
    | some (q, _) =>
      bodyEnd (if c = q then none else quote) (position + c.utf8Size) (c :: read) cs
    | none =>
      if isQuote c then bodyEnd (some (c, position)) (position + c.utf8Size) (c :: read) cs
      else if c = '<' then .broken
      else if c = '>' then .closed read.reverse
      else bodyEnd none (position + c.utf8Size) (c :: read) cs

/-- The tag with a name and a body; none if it has a `/` at both ends. -/
def assemble (start : Nat) (closing : Bool) (name body : List Char) : Scan :=
  let bodyStart := start + 1 + (if closing then 1 else 0) + utf8Length name
  let marker := body.getLast? = some '/'
  if closing && marker then .notATag
  else
    .tag
      { boundary := if closing then .stop else if marker then .marker else .start
        name := String.ofList name
        body := String.ofList (if marker then body.dropLast else body)
        start
        stop := bodyStart + utf8Length body + 1
        bodyStart
        source := String.ofList ('<' :: (if closing then ['/'] else []) ++ name ++ body ++ ['>']) }

/-- Scans the characters after a `<` at a byte position. -/
def afterOpening (start : Nat) (cs : List Char) : Scan :=
  let closing := cs.head? = some '/'
  let rest := if closing then cs.tail else cs
  let name := rest.takeWhile isNameChar
  let body := rest.dropWhile isNameChar
  if name.isEmpty || !body.head?.any opensBody then .notATag
  else
    match bodyEnd none (start + 1 + (if closing then 1 else 0) + utf8Length name) [] body with
    | .closed body => assemble start closing name body
    | .broken => .notATag
    | .openQuote offset => .unterminatedQuote (String.ofList name) offset

/-- Scans the characters from a byte position on. -/
def fromList (start : Nat) : List Char → Scan
  | '<' :: cs => afterOpening start cs
  | _ => .notATag

/-- Scans a text at a byte position; inside a character and past the end there is no tag. -/
def ofText (text : String) (start : Nat) : Scan :=
  match dropBytes? start text.toList with
  | some cs => fromList start cs
  | none => .notATag

end Scan

/-- A piece of a text: a tag, a `<` before a quote that is never closed, or a character. -/
inductive Token where
  | tag (t : Tag)
  | openQuote (name : String) (offset : Nat)
  | char (c : Char)
  deriving DecidableEq, Repr

namespace Token

/-- Cuts characters into tokens, the first `skip` of them being part of a tag already cut. -/
def cutFrom (skip position : Nat) : List Char → List Token
  | [] => []
  | c :: cs =>
    match skip with
    | skip + 1 => cutFrom skip (position + c.utf8Size) cs
    | 0 =>
      match Scan.fromList position (c :: cs) with
      | .tag t => .tag t :: cutFrom (t.source.length - 1) (position + c.utf8Size) cs
      | .unterminatedQuote name offset =>
        .openQuote name offset :: cutFrom 0 (position + c.utf8Size) cs
      | .notATag => .char c :: cutFrom 0 (position + c.utf8Size) cs

/-- Cuts a text into tokens, from left to right. -/
def cut (text : String) : List Token := cutFrom 0 0 text.toList

/-- The characters of a token. -/
def source : Token → List Char
  | .tag t => t.source.toList
  | .openQuote _ _ => ['<']
  | .char c => [c]

end Token

end BranchingDialogue
