import Highlight.Palette

/-!
The display categories of Zig.
-/

namespace Highlight.Zig

/-- The categories of Zig. -/
inductive Category where
  | plain
  | lineComment
  /-- A comment that begins with `///`. -/
  | docComment
  /-- A comment that begins with `//!`. -/
  | topComment
  | operator
  | number
  | identifier
  | keyword
  | typeName
  /-- A name with `@` before it. -/
  | builtin
  | functionDefinition
  | function
  | character
  | string
  /-- A string that begins with two backslashes and ends with the line. -/
  | multilineString
  | escape
  /-- The braces and the options of a format placeholder. -/
  | placeholder
  /-- The letter of a format placeholder that says how the value is written. -/
  | specifier
  deriving DecidableEq, Repr

namespace Category

/-- A comment of any kind. -/
def isComment : Category → Bool
  | lineComment | docComment | topComment => true
  | _ => false

instance : Palette Category where
  plain := .plain
  isQuiet s := s == .plain || s.isComment
  isBracket s := s == .operator
  quiet_plain := rfl
  not_bracket_plain := rfl

end Category

end Highlight.Zig
