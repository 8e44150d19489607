import Highlight.Fold.Level
import Highlight.Line.State
import Highlight.Scan.Cursor

/-!
What a language tells the scan. A grammar has two rules: at every place `leave` decides whether
the run in progress ends there, and in the plain category `enter` decides what begins there.
Beside them it keeps data of its own for the time of one scan, and sums up every line at its end.
-/

namespace Highlight

/-- What a rule asks for, with the cursor and the data it leaves behind. -/
inductive Flow (σ ζ : Type) where
  /-- Go on to the next rule, and then to the next byte. -/
  | pass (c : Cursor σ) (z : ζ)
  /-- Look at the byte at hand again, in the new state. -/
  | again (c : Cursor σ) (z : ζ)

namespace Flow

variable {σ ζ : Type}

/-- The cursor that a rule leaves behind. -/
def cursor : Flow σ ζ → Cursor σ
  | pass c _ => c
  | again c _ => c

/-- The data that a rule leaves behind. -/
def data : Flow σ ζ → ζ
  | pass _ z => z
  | again _ z => z

end Flow

/-- How many regions are open, and how many were at most. -/
structure Nesting where
  depth : Nat := 0
  deepest : Nat := 0
  deriving DecidableEq, Repr

/-- A language. -/
structure Grammar (σ ζ : Type) where
  /-- Sets up a scan; the line state is that of the line before. -/
  begin : Cursor σ → LineState → Cursor σ × ζ
  /-- Decides whether the run in progress ends. -/
  leave : Cursor σ → ζ → Flow σ ζ
  /-- Decides what begins in the plain category. -/
  enter : Cursor σ → ζ → Flow σ ζ
  /-- Sums up the line that ends at the cursor, and clears what concerns only that line. -/
  endLine : Cursor σ → ζ → LineState × ζ
  /-- How deep the scan is nested. -/
  nesting : ζ → Nesting := fun _ => {}
  /-- How the lines fold. -/
  folding : FoldMode := .brackets

namespace Grammar

variable {σ ζ : Type} [Palette σ] [DecidableEq σ]

/-- Both rules at one place: what begins is asked only if nothing is to be looked at again and the
state is plain. -/
def dispatch (g : Grammar σ ζ) (c : Cursor σ) (z : ζ) : Flow σ ζ :=
  match g.leave c z with
  | .again c z => .again c z
  | .pass c z => if c.state = Palette.plain then g.enter c z else .pass c z

end Grammar

end Highlight
