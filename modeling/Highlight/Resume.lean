import Highlight.Line.Store
import Highlight.Line.Table
import Highlight.Styles

/-!
Where a scan may start again after an edit. What is open inside a nested region is not kept between
scans, so a scan can start at a line only if the line before it did not end inside such a region.
-/

namespace Highlight

/-- A line at which a scan may start, with its offset and the state to start in. -/
structure ResumePoint (σ : Type) where
  line : Nat
  offset : Nat
  state : σ
  deriving DecidableEq, Repr

namespace ResumePoint

/-- The last line up to a given one at which a scan may start. -/
def lineFor (store : LineStore) : Nat → Nat
  | 0 => 0
  | line + 1 => if (store.state line).flags.nested then lineFor store line else line + 1

/-- The category of the byte before an offset, plain at the beginning of the text: the state in
which an earlier scan came to the offset. -/
def stateAt {σ : Type} [Palette σ] (styles : Styles σ) : Nat → σ
  | 0 => Palette.plain
  | offset + 1 => styles.categoryAt offset

/-- Where to start so as to scan a line again. Line numbers beyond the last line mean that line. -/
def find {σ : Type} [Palette σ] (lines : LineTable) (store : LineStore) (styles : Styles σ)
    (line : Nat) : ResumePoint σ :=
  let line := lineFor store (min line (lines.count - 1))
  let offset := (lines.start? line).getD 0
  { line := line, offset := offset, state := stateAt styles offset }

end ResumePoint

end Highlight
