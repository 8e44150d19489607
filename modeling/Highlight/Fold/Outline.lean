import Highlight.Fold.Starts

/-!
Folding by headings. A heading of level `n` stands at level `n` and what follows it one deeper, up
to the next heading. A run of comment lines folds as one unit, and directly above a heading it
belongs to that heading.
-/

namespace Highlight.Outline

open FoldLevel

/-- A comment line that is not a heading. -/
def isComment (s : LineState) : Bool := s.flags.comment && !s.flags.heading

/-- The level of the heading that directly follows the comment lines at the head of a list. -/
def headingAfterComments (states : List LineState) : Option Nat :=
  (states.dropWhile isComment).head?.bind LineState.headingLevel?

/-- The level at which every line starts. `body` is the level of plain lines, and `inner` the
level of the further lines of a run of comments, if the line before was one. -/
def startsFrom (body : Nat) (inner : Option Nat) : List LineState → List Nat
  | [] => []
  | s :: rest =>
    match s.headingLevel? with
    | some n => n :: startsFrom (n + 1) none rest
    | none =>
      if s.flags.comment then
        match inner with
        | some level => level :: startsFrom body (some level) rest
        | none =>
          let level := (headingAfterComments rest).getD body
          level :: startsFrom body (some (level + 1)) rest
      else body :: startsFrom body none rest

/-- The fold levels of the first lines of a store. -/
def levels (store : LineStore) (count : Nat) : List FoldLevel :=
  let states := statesOf store count
  let starts := startsFrom 0 none states
  ofStarts (starts.getLastD 0) states starts

end Highlight.Outline
