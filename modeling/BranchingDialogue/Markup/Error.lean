/-!
# Errors of markup

What is wrong with the tags in a text. Offsets count bytes from the start of the text.
-/

namespace BranchingDialogue

/-- How a tag of the library's own is written. -/
inductive TagShape where
  /-- In pairs around the text it covers. -/
  | span
  /-- Alone, between two characters. -/
  | single
  deriving DecidableEq, Repr

/-- The name of a shape. -/
def TagShape.name : TagShape → String
  | .span => "span"
  | .single => "single"

/-- What is wrong with the markup of a text. -/
inductive MarkupError where
  /-- A quote in a tag is never closed. -/
  | unterminatedQuote (tag : String) (offset : Nat)
  /-- An attribute's name has a character that is neither a letter nor a hyphen, or has none. -/
  | invalidAttributeName (tag : String) (name : String) (offset : Nat)
  /-- An attribute has no value. -/
  | emptyAttributeValue (tag : String) (offset : Nat)
  /-- A closing tag closes nothing. -/
  | unmatchedEnd (tag : String) (offset : Nat)
  /-- A tag is not written in its shape. -/
  | shapeMismatch (tag : String) (expected : TagShape) (offset : Nat)
  /-- A parameter does not make sense. -/
  | invalidParameter (tag : String) (parameter : String) (reason : String)
  /-- A tag cannot be registered under a name of the text renderer. -/
  | reservedName (tag : String)
  deriving DecidableEq, Repr

namespace MarkupError

/-- The code of an error in diagnostics. -/
def code : MarkupError → String
  | .unterminatedQuote _ _ => "ds::tag::unterminated_quote"
  | .invalidAttributeName _ _ _ => "ds::tag::attribute_name"
  | .emptyAttributeValue _ _ => "ds::tag::empty_value"
  | .unmatchedEnd _ _ => "ds::tag::unmatched_end"
  | .shapeMismatch _ _ _ => "ds::tag::shape"
  | .invalidParameter _ _ _ => "ds::tag::parameter"
  | .reservedName _ => "ds::tag::reserved_name"

/-- The message of an error. -/
def message : MarkupError → String
  | .unterminatedQuote tag offset =>
    "unterminated quoted value in tag `" ++ tag ++ "` at byte " ++ toString offset
  | .invalidAttributeName tag name offset =>
    "invalid attribute name `" ++ name ++ "` in tag `" ++ tag ++ "` at byte "
      ++ toString offset
  | .emptyAttributeValue tag offset =>
    "empty attribute value in tag `" ++ tag ++ "` at byte " ++ toString offset
  | .unmatchedEnd tag offset =>
    "closing tag `" ++ tag ++ "` at byte " ++ toString offset ++ " has no matching opening tag"
  | .shapeMismatch tag expected offset =>
    "tag `" ++ tag ++ "` at byte " ++ toString offset ++ " must be written as a "
      ++ expected.name ++ " tag"
  | .invalidParameter tag parameter reason =>
    "invalid parameter `" ++ parameter ++ "` for tag `" ++ tag ++ "`: " ++ reason
  | .reservedName tag => "tag name `" ++ tag ++ "` is reserved by the text renderer"

/-- Advice on an error, if there is any. -/
def help? : MarkupError → Option String
  | .unterminatedQuote _ _ => some "Close the quote before the tag's `>`"
  | .invalidAttributeName _ _ _ => some "Attribute names may only contain letters and `-`"
  | .shapeMismatch _ _ _ => some "Span tags use <tag>..</tag>, single tags use <tag/>"
  | _ => none

end MarkupError

end BranchingDialogue
