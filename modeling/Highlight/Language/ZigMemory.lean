import Highlight.Language.ZigCategory
import Highlight.Line.State
import Highlight.Scan.Escape
import Highlight.Scan.Grammar
import Highlight.Word.Class

/-!
What a scan of Zig keeps beside its state, and the choices of its user.
-/

namespace Highlight.Zig

/-- The choices of the user. -/
structure Config where
  words : WordSets
  /-- Whether braces in string literals are read as format placeholders. -/
  placeholders : Bool := true

/-- What a scan of Zig keeps. -/
structure Memory where
  announced : Announced := .nothing
  escape : Escape Category := { outer := .plain }
  /-- The last visible byte before the name in progress. -/
  before : Byte := 0
  /-- What is known of the line in progress. -/
  flags : LineFlags := {}

/-- A place with what the scan keeps. -/
abbrev Place := Cursor Category

/-- What a rule of Zig asks for. -/
abbrev Rule := Flow Category Memory

namespace Memory

/-- The line in progress is a comment. -/
def markComment (m : Memory) : Memory := { m with flags := { m.flags with comment := true } }

/-- The line in progress is part of a string over several lines. -/
def markString (m : Memory) : Memory := { m with flags := { m.flags with string := true } }

end Memory

end Highlight.Zig
