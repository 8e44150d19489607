import Highlight.Byte
import Highlight.Palette

/-!
The display categories of TOML.
-/

namespace Highlight.Toml

/-- The categories of TOML. -/
inductive Category where
  | plain
  | comment
  | operator
  | number
  | dateTime
  | identifier
  | keyword
  /-- The head of a table or of an array of tables. -/
  | table
  | key
  /-- A string in apostrophes. -/
  | literalString
  /-- A string in quotes. -/
  | string
  /-- A string in triple apostrophes. -/
  | tripleLiteralString
  /-- A string in triple quotes. -/
  | tripleString
  | escape
  /-- A line that is neither a head, nor a pair of key and value, nor a comment. -/
  | error
  deriving DecidableEq, Repr

namespace Category

instance : Palette Category where
  plain := .plain
  isQuiet s := s == .plain || s == .comment
  isBracket _ := false
  quiet_plain := rfl
  not_bracket_plain := rfl

/-- A string in triple quotes or apostrophes, which may go over several lines. -/
def isTriple (s : Category) : Bool := s == .tripleLiteralString || s == .tripleString

/-- A string in quotes, which takes escapes. -/
def isBasic (s : Category) : Bool := s == .string || s == .tripleString

/-- The byte that closes a string. -/
def closingByte (s : Category) : Byte := if s.isBasic then Byte.quote else Byte.apostrophe

end Category

end Highlight.Toml
