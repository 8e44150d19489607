import Highlight.Fold.Level
import Highlight.Line.Store

/-!
Fold levels of a list of lines of which it is known at which level each one starts.
-/

namespace Highlight.FoldLevel

/-- The states of the first lines of a store. -/
def statesOf (store : LineStore) (count : Nat) : List LineState :=
  (List.range count).map store.state

/-- The fold levels of lines that start at the given levels; the last line ends at `last`. -/
def ofStarts (last : Nat) : List LineState → List Nat → List FoldLevel
  | s :: states, start :: starts =>
    between start (starts.headD last) s.flags.blank :: ofStarts last states starts
  | _, _ => []

end Highlight.FoldLevel
