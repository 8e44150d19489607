import Highlight.Line.Store
import Highlight.Scan.Grammar

/-!
One pass of a grammar over a chunk. At every place the rules are asked; if they want to look again
they are asked again, but only a limited number of times, after which the pass goes on all the
same. A newline ends a line: its state is written down and the next byte belongs to a new line. At
the end of a text that has no newline there, the last line ends too.
-/

namespace Highlight

/-- How often the rules may look again at one place. -/
def maxRescans : Nat := 16

/-- A pass in progress. -/
structure Pass (σ ζ : Type) where
  cursor : Cursor σ
  data : ζ
  /-- How often the rules have asked to look again at the place of the cursor. -/
  rescans : Nat := 0
  /-- The lines ended so far with their states, the last one first. -/
  ended : List (Nat × LineState) := []

namespace Pass

variable {σ ζ : Type} [Palette σ]

/-- The pass after the line at the cursor was ended. -/
def endLine (g : Grammar σ ζ) (p : Pass σ ζ) : Pass σ ζ :=
  let (state, z) := g.endLine p.cursor p.data
  { p with
    cursor := p.cursor.newLine
    data := z
    ended := (p.cursor.line, state) :: p.ended }

/-- The pass after the byte at the cursor; a newline ends its line first. -/
def advance (g : Grammar σ ζ) (p : Pass σ ζ) : Pass σ ζ :=
  let p := if p.cursor.atLineEnd then p.endLine g else p
  { p with cursor := p.cursor.forward, rescans := 0 }

variable [DecidableEq σ]

/-- One step of a pass: the rules are asked once. -/
def step (g : Grammar σ ζ) (p : Pass σ ζ) : Pass σ ζ :=
  match g.dispatch p.cursor p.data with
  | .pass c z => advance g { p with cursor := c, data := z }
  | .again c z =>
    let rescans := if c.pos = p.cursor.pos then p.rescans + 1 else 1
    let p := { p with cursor := c, data := z, rescans := rescans }
    if rescans ≤ maxRescans then p else p.advance g

/-- As many steps as it takes to reach the end of the chunk, but at most `n`. -/
def run (g : Grammar σ ζ) : Nat → Pass σ ζ → Pass σ ζ
  | 0, p => p
  | n + 1, p => if p.cursor.more then run g n (p.step g) else p

/-- A number of steps that reaches the end of a chunk of the given length: at every place the rules
are asked once and again up to `maxRescans` times. -/
def enoughSteps (length : Nat) : Nat := (maxRescans + 1) * length

omit [Palette σ] [DecidableEq σ] in
/-- At the end of the text the run in progress is left, as often as its rule asks for it and at
most `n` times. -/
def leaveLast (g : Grammar σ ζ) : Nat → Pass σ ζ → Pass σ ζ
  | 0, p => p
  | n + 1, p =>
    match g.leave p.cursor p.data with
    | .pass c z => { p with cursor := c, data := z }
    | .again c z => leaveLast g n { p with cursor := c, data := z }

/-- The whole pass from a cursor on. If the chunk ends a text without a newline at its end, `last`
is true and the last line is ended as well. -/
def whole (g : Grammar σ ζ) (c : Cursor σ) (before : LineState) (last : Bool) : Pass σ ζ :=
  let (c, z) := g.begin c before
  let p := run g (enoughSteps c.ahead.length) { cursor := c, data := z }
  if last then endLine g (leaveLast g maxRescans p) else p

end Pass

end Highlight
