import Highlight.Byte

/-!
Where the lines of a text begin and end. A line ends just after its newline; a text has at least
one line, and a newline at its end opens a last, empty one.
-/

namespace Highlight

/-- The offsets at which the lines of a text begin, and the length of the text. -/
structure LineTable where
  starts : Array Nat
  size : Nat
  deriving DecidableEq, Repr

namespace LineTable

/-- The line table of a text. -/
def ofText (text : Text) : LineTable where
  starts := (0 :: text.zipIdx.filterMap fun p =>
    if p.1 = Byte.newline then some (p.2 + 1) else none).toArray
  size := text.length

/-- The number of lines. -/
def count (t : LineTable) : Nat := t.starts.size

/-- The offset at which a line begins, if there is such a line. -/
def start? (t : LineTable) (line : Nat) : Option Nat := t.starts[line]?

/-- The offset just after a line and its newline, if there is such a line. -/
def stop? (t : LineTable) (line : Nat) : Option Nat :=
  if line < t.count then some (t.starts.getD (line + 1) t.size) else none

end LineTable

end Highlight
