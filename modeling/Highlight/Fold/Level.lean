/-!
How deep a line lies in the foldable regions of a document.
-/

namespace Highlight

/-- What decides how the lines of a language fold. -/
inductive FoldMode where
  /-- Brackets raise and lower the level. -/
  | brackets
  /-- A line opens a block when the next line is indented deeper. -/
  | indentation
  /-- Headings open sections. -/
  | outline
  deriving DecidableEq, Repr

/-- The place of one line among the foldable regions. -/
structure FoldLevel where
  /-- The level at which the line starts. -/
  start : Nat
  /-- The level at which the next line starts. -/
  stop : Nat
  /-- The line opens a region. -/
  header : Bool
  blank : Bool
  deriving DecidableEq, Repr

namespace FoldLevel

/-- The greatest level that is reported. -/
def greatest : Nat := 4294967295

/-- The fold level of a line that starts at one level and is followed by another. -/
def between (start stop : Nat) (blank : Bool) : FoldLevel where
  start := min start greatest
  stop := min stop greatest
  header := min start greatest < min stop greatest
  blank := blank

end FoldLevel

end Highlight
