import Highlight.Byte
import Highlight.Palette

/-!
The display categories of Scala.
-/

namespace Highlight.Scala

/-- The categories of Scala. -/
inductive Category where
  | plain
  | lineComment
  | blockComment
  /-- A block comment that begins with two stars. -/
  | docComment
  /-- A tag such as `@param` in a documentation comment. -/
  | commentTag
  | operator
  /-- The punctuation of holes and of markup. -/
  | punctuation
  /-- A doubled plus or minus. -/
  | postfixOperator
  | number
  | identifier
  | keyword
  | annotationName
  | className
  | traitName
  | enumName
  | functionDefinition
  | function
  | symbol
  /-- A name in backquotes. -/
  | backquoted
  | character
  | string
  | interpolated
  | tripleString
  | tripleInterpolated
  | escape
  /-- The brackets and the name of a tag. -/
  | tag
  | attributeName
  /-- What stands between tags. -/
  | markupText
  /-- What stands within a tag besides its name and attributes. -/
  | markupOther
  /-- An attribute value in apostrophes. -/
  | singleQuoted
  /-- An attribute value in quotes. -/
  | doubleQuoted
  deriving DecidableEq, Repr

namespace Category

/-- A comment of any kind, or a tag in one. -/
def isComment : Category → Bool
  | lineComment | blockComment | docComment | commentTag => true
  | _ => false

instance : Palette Category where
  plain := .plain
  isQuiet s := s == .plain || s.isComment
  isBracket s := s == .operator
  quiet_plain := rfl
  not_bracket_plain := rfl

/-- A quoted form that ends with its line. -/
def endsWithLine : Category → Bool
  | backquoted | character | string | interpolated | singleQuoted | doubleQuoted => true
  | _ => false

/-- A string in triple quotes. -/
def isTriple : Category → Bool
  | tripleString | tripleInterpolated => true
  | _ => false

/-- A string with references and holes. -/
def isInterpolated : Category → Bool
  | interpolated | tripleInterpolated => true
  | _ => false

/-- The name of a tag or of an attribute. -/
def isMarkupName : Category → Bool
  | tag | attributeName => true
  | _ => false

/-- The byte that closes a quoted form. -/
def closingByte : Category → Byte
  | backquoted => Byte.backquote
  | character | singleQuoted => Byte.apostrophe
  | _ => Byte.quote

end Category

end Highlight.Scala
