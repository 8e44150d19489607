import Highlight.Scan.Grammar
import Highlight.Scan.ReturnStack

/-!
A toy language, small enough to try the scan on: words, comments from `#` to the end of the line,
strings in double quotes that may go over several lines, and parentheses that open nested regions.
-/

namespace Highlight.Toy

open Byte

/-- The categories of the toy language. -/
inductive Category where
  | plain
  | word
  | comment
  | operator
  | string
  deriving DecidableEq, Repr

instance : Palette Category where
  plain := .plain
  isQuiet s := s == .plain || s == .comment
  isBracket s := s == .operator
  quiet_plain := rfl
  not_bracket_plain := rfl

/-- What a scan of the toy language keeps. -/
structure Memory where
  parens : ReturnStack Category
  flags : LineFlags := {}
  /-- The line began inside a string. -/
  carried : Bool

/-- Sets up a scan. -/
def begin (c : Cursor Category) (_ : LineState) : Cursor Category × Memory :=
  (c, { parens := .empty ReturnStack.defaultCap, carried := c.state == .string })

/-- Decides whether the run in progress ends. -/
def leave (c : Cursor Category) (m : Memory) : Flow Category Memory :=
  match c.state with
  | .plain => .pass c m
  | .word => if isNameByte c.byte then .pass c m else .pass (c.switch .plain) m
  | .comment => if c.atLineStart then .pass (c.switch .plain) m else .pass c m
  | .operator => .pass (c.switch .plain) m
  | .string => if c.byte = quote then .again (c.forwardSwitch .plain) m else .pass c m

/-- Decides what begins. -/
def enter (c : Cursor Category) (m : Memory) : Flow Category Memory :=
  if isNameStart c.byte then .pass (c.switch .word) m
  else if c.byte = hash then
    .pass (c.switch .comment)
      (if c.visible = 0 then { m with flags := { m.flags with comment := true } } else m)
  else if c.byte = quote then .pass (c.switch .string) m
  else if isGraphic c.byte then
    .pass (c.switch .operator)
      (if c.byte = lparen then { m with parens := m.parens.push .plain }
        else if c.byte = rparen then { m with parens := m.parens.drop }
        else m)
  else .pass c m

/-- Sums up a line. -/
def endLine (c : Cursor Category) (m : Memory) : LineState × Memory :=
  let flags := if m.parens.isEmpty then m.flags else { m.flags with nested := true }
  let flags := if c.state = .string ∨ m.carried then { flags with string := true } else flags
  let flags := if flags = .none ∧ c.visible = 0 then { blank := true } else flags
  (.of flags 0 c.trail.indent, { m with flags := .none, carried := c.state == .string })

/-- The toy language. -/
def grammar : Grammar Category Memory where
  begin := begin
  leave := leave
  enter := enter
  endLine := endLine
  nesting m := { depth := m.parens.depth, deepest := m.parens.peak }

end Highlight.Toy
