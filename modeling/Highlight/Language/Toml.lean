import Highlight.Language.TomlKey
import Highlight.Language.TomlValue

/-!
The rules of TOML. Outside brackets every line is the head of a table, a pair of key and value, or
a comment, and anything else is an error up to the next comment. The heads of tables carry their
level, so that a document folds by its tables.
-/

namespace Highlight.Toml

open Byte

/-- Decides whether the run in progress ends. -/
def leave (words : WordSets) (c : Place) (m : Memory) : Rule :=
  match c.state with
  | .operator => .pass (c.switch .plain) m
  | .number => leaveNumber words c m
  | .dateTime =>
    if isNameByte c.byte || continuesDateTime c.byte c.next then .pass c m
    else endValue words c m
  | .identifier => if isNameByte c.byte then .pass c m else endValue words c m
  | .table | .key => leaveKey c m
  | .literalString | .string | .tripleLiteralString | .tripleString => leaveString words c m
  | .escape => m.escape.leave c fun e => { m with escape := e }
  | .error =>
    if c.atLineStart then .pass (c.switch .plain) m
    else if c.byte = hash then .pass (c.switch .comment) m
    else .pass c m
  | .comment => if c.atLineStart then .pass (c.switch .plain) m else .pass c m
  | .plain | .keyword => .pass c m

/-- What begins a line outside brackets: the head of a table, a key, or an error. -/
def enterLine (c : Place) (m : Memory) : Rule :=
  if c.byte = lbracket then
    let c := c.switch .table
    .pass (if c.next = lbracket then c.forward else c)
      { m with level := 0, key := .bare, flags := { m.flags with heading := true } }
  else if c.byte = apostrophe then .pass (c.switch .key) { m with key := .literal }
  else if c.byte = quote then .pass (c.switch .key) { m with key := .quoted }
  else if isKeyByte c.byte then .pass (c.switch .key) { m with key := .bare }
  else if isSpace c.byte then .pass c m
  else .pass (c.switch .error) m

/-- A string begins, by its first quote or apostrophe. -/
def enterString (c : Place) (m : Memory) : Rule :=
  let basic := c.byte = quote
  if c.readsNext c.byte c.byte then
    .pass ((c.switch (if basic then .tripleString else .tripleLiteralString)).forwardN 2) m
  else .pass (c.switch (if basic then .string else .literalString)) m

/-- The signs that stand for themselves in a value. -/
def isOperator (b : Byte) : Bool :=
  b == lbracket || b == rbracket || b == lbrace || b == rbrace || b == comma || b == equals ||
    b == dot || b == plus || b == minus

/-- The number of open brackets after the sign `b`, if `n` were open before it. -/
def bracketsAfter (b : Byte) (n : Nat) : Nat :=
  if b = lbracket ∨ b = lbrace then n + 1
  else if b = rbracket ∨ b = rbrace then n - 1
  else n

/-- What begins within a line or within brackets. -/
def enterValue (c : Place) (m : Memory) : Rule :=
  if c.byte = apostrophe ∨ c.byte = quote then enterString c m
  else if isDigit c.byte then .pass (c.switch .number) m
  else if isLower c.byte then .pass (c.switch .identifier) m
  else if isOperator c.byte then
    .pass (c.switch .operator) { m with brackets := bracketsAfter c.byte m.brackets }
  else if 0 < m.brackets ∧ isKeyByte c.byte then .pass (c.switch .key) { m with key := .bare }
  else .pass c m

/-- Decides what begins. -/
def enter (c : Place) (m : Memory) : Rule :=
  if c.byte = hash then
    .pass (c.switch .comment)
      (if c.visible = 0 then { m with flags := { m.flags with comment := true } } else m)
  else if c.visible = 0 ∧ m.brackets = 0 then enterLine c m
  else enterValue c m

/-- Sums up a line. The level of a table head takes the place of the depth. -/
def endLine (c : Place) (m : Memory) : LineState × Memory :=
  let carried : LineFlags := { string := c.state.isTriple }
  let flags : LineFlags := { m.flags with
    nested := m.flags.nested || decide (0 < m.brackets)
    string := m.flags.string || c.state.isTriple }
  let flags := if flags = .none ∧ c.visible = 0 then { blank := true } else flags
  (.of flags (if m.flags.heading then m.level else 0) c.trail.indent,
    { m with flags := carried, level := 0, key := .bare })

/-- The language TOML. A scan never begins within brackets, since the lines that end there are
nested. -/
def grammar (words : WordSets) : Grammar Category Memory where
  begin c _ := (c, { flags := { string := c.state.isTriple } })
  leave := leave words
  enter := enter
  endLine := endLine
  folding := .outline

end Highlight.Toml
