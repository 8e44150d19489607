import Highlight.Language.TomlCategory
import Highlight.Line.State
import Highlight.Scan.Escape
import Highlight.Scan.Grammar
import Highlight.Word.Set

/-!
What a scan of TOML keeps beside its state, and the words of TOML.
-/

namespace Highlight.Toml

/-- The words of TOML, in lower case; they are known in any case. -/
def words : WordSets := { keywords := .ofString "true false inf nan" }

/-- The place within a key or the name of a table. -/
inductive KeyPart where
  | bare
  /-- Within apostrophes. -/
  | literal
  /-- Within quotes. -/
  | quoted
  /-- After the name. -/
  | done
  deriving DecidableEq, Repr

/-- What a scan of TOML keeps. -/
structure Memory where
  key : KeyPart := .bare
  /-- The points in the table head of the line so far. -/
  level : Nat := 0
  /-- The brackets and braces open in the value in progress. -/
  brackets : Nat := 0
  escape : Escape Category := { outer := .plain }
  /-- What is known of the line in progress. -/
  flags : LineFlags := {}

/-- A place with what the scan has passed. -/
abbrev Place := Cursor Category

/-- What a rule of TOML asks for. -/
abbrev Rule := Flow Category Memory

end Highlight.Toml
