import Highlight.Language.TomlMemory

/-!
Keys and table heads. Their parts may stand in quotes or apostrophes, and outside of these a point
separates two parts. A key ends before its equals sign; anything else there makes the line an
error.
-/

namespace Highlight.Toml

open Byte

/-- A byte of a key outside quotes. -/
def isKeyByte (b : Byte) : Bool := isNameByte b || b == minus

/-- The key after the byte at hand, if that byte is the end of a quoted part or is hidden by a
backslash. -/
def passQuoting (c : Place) (m : Memory) : Place × Memory :=
  match m.key with
  | .literal => if c.byte = apostrophe then (c.forward, { m with key := .bare }) else (c, m)
  | .quoted =>
    if c.byte = backslash then (c.forward, m)
    else if c.byte = quote then (c.forward, { m with key := .bare })
    else (c, m)
  | .bare | .done => (c, m)

/-- The end of the name of a table, at its closing bracket. A second bracket belongs to it, and a
comment may follow. -/
def closeTable (c : Place) (m : Memory) : Rule :=
  let c := c.forward
  let c := if c.byte = rbracket then c.forward else c
  .pass (if c.nextVisible = hash then c.switch .plain else c) { m with key := .done }

/-- Whether a table head ends at a byte outside quotes. -/
def leaveBareTable (c : Place) (m : Memory) : Rule :=
  if c.byte = dot then .pass c { m with level := m.level + 1 }
  else if c.byte = rbracket then closeTable c m
  else .pass c m

/-- Whether a key ends at a byte outside quotes. A point is an operator between two keys. -/
def leaveBareKey (c : Place) (m : Memory) : Rule :=
  if c.byte = dot then .again ((c.switch .operator).forwardSwitch .key) m
  else if isKeyByte c.byte then .pass c m
  else if c.nextVisible = equals then .pass (c.switch .plain) { m with key := .done }
  else if c.nextVisible ≠ dot ∧ c.trail.byte ≠ dot then .again (c.recolor .error) m
  else .pass c m

/-- Whether the key or the table head in progress ends. -/
def leaveKey (c : Place) (m : Memory) : Rule :=
  if c.atLineStart then .pass (c.switch .plain) m
  else
    let (c, m) := passQuoting c m
    if m.key ≠ .bare then .pass c m
    else if c.byte = apostrophe then .pass c { m with key := .literal }
    else if c.byte = quote then .pass c { m with key := .quoted }
    else if c.state = .table then leaveBareTable c m
    else leaveBareKey c m

end Highlight.Toml
