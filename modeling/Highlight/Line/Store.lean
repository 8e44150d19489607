import Highlight.Line.State

/-!
The words of the lines scanned so far. A line that was never written reads as the word `0`, the
state with no flags.
-/

namespace Highlight

/-- The word of every line, by line number. -/
abbrev LineStore := Array UInt32

namespace LineStore

/-- The word of a line. -/
def word (s : LineStore) (line : Nat) : UInt32 := s.getD line 0

/-- The state of a line. -/
def state (s : LineStore) (line : Nat) : LineState := LineState.decode (s.word line)

/-- The state of the line before a line; before the first line nothing is carried over. -/
def stateBefore (s : LineStore) : Nat → LineState
  | 0 => {}
  | line + 1 => s.state line

/-- The store with a line's word set; lines skipped on the way get the word `0`. -/
def record (s : LineStore) (line : Nat) (w : UInt32) : LineStore :=
  if line < s.size then s.setIfInBounds line w
  else (s ++ Array.replicate (line - s.size) 0).push w

theorem word_record (s : LineStore) (line : Nat) (w : UInt32) (i : Nat) :
    (s.record line w).word i = if i = line then w else s.word i := by
  simp only [word, Array.getD_eq_getD_getElem?]
  unfold record
  split
  · rw [Array.getElem?_setIfInBounds]
    grind
  · rw [Array.getElem?_push, Array.getElem?_append, Array.getElem?_replicate]
    grind

end LineStore

end Highlight
