import Highlight.Fold.Starts

/-!
Folding by indentation. A line opens a block if the next line that is not blank is indented
deeper, and a block goes on as long as its lines are indented deeper than the line that opened it.
A line that begins with a closer still belongs to the block that it closes. A line that starts
inside a string or a nested region opened earlier counts as indented one step deeper than the line
before the region, whatever its own indent.
-/

namespace Highlight.Indentation

open FoldLevel

/-- A line starts inside a region opened by an earlier line. -/
def carried (before here : LineState) : Bool :=
  before.flags.nested || (before.flags.string && here.flags.string)

/-- The indent of every line that decides about blocks, none for blank lines. The line before is
given, and the indent of the last line that was not carried. -/
def indentsFrom (before : LineState) (opener : Nat) : List LineState → List (Option Nat)
  | [] => []
  | s :: rest =>
    if carried before s then some (opener + 1) :: indentsFrom s opener rest
    else if s.flags.blank then none :: indentsFrom s opener rest
    else some s.indent.toNat :: indentsFrom s s.indent.toNat rest

/-- The indent of every line that decides about blocks. -/
def indents (states : List LineState) : List (Option Nat) := indentsFrom {} 0 states

/-- A line of the given indent opens a block, by the lines after it. -/
def opensBlock (indent : Nat) (after : List (Option Nat × Bool)) : Bool :=
  match after.findSome? Prod.fst with
  | some next => indent < next
  | none => false

/-- The blocks, innermost first and each by the indent of the line that opened it, that are still
open when a line of the given indent comes. A closer keeps the block that it closes. -/
def stillOpen (blocks : List Nat) (indent : Nat) (closer : Bool) : List Nat :=
  blocks.dropWhile fun top => indent < top || (top == indent && !closer)

/-- The level at which every line starts, and at the end the number of blocks still open. The lines
are given by their indent and whether they begin with a closer; `blocks` are open before the first
of them. A blank line starts where the next line that is not blank does. -/
def startsFrom (blocks : List Nat) : List (Option Nat × Bool) → List Nat × Nat
  | [] => ([], blocks.length)
  | (none, _) :: rest =>
    let (starts, last) := startsFrom blocks rest
    (starts.headD last :: starts, last)
  | (some indent, closer) :: rest =>
    let blocks := stillOpen blocks indent closer
    let closes := closer && blocks.head? == some indent
    let opens := opensBlock indent rest
    let outer := if closes then blocks.tail else blocks
    let (starts, last) := startsFrom (if opens then indent :: outer else outer) rest
    ((if closes && !opens then blocks.length else outer.length) :: starts, last)

/-- The fold levels of the first lines of a store. -/
def levels (store : LineStore) (count : Nat) : List FoldLevel :=
  let states := statesOf store count
  let (starts, last) := startsFrom [] ((indents states).zip (states.map (·.flags.closer)))
  ofStarts last states starts

end Highlight.Indentation
