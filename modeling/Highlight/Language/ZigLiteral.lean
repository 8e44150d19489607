import Highlight.Language.Placeholder
import Highlight.Language.ZigMemory

/-!
Literals of Zig: strings and characters with their escapes, strings over several lines, and format
placeholders in strings. Every literal ends with its line at the latest.
-/

namespace Highlight.Zig

open Byte

/-- The escapes of Zig. -/
def escapes : EscapeSyntax := .hexAndBraced

/-- The placeholder at the brace at hand in all its parts, or the brace as a byte of the literal.
-/
def readPlaceholder (c : Place) (m : Memory) : Rule :=
  let outer := c.state
  match Placeholder.read (if outer = .string then some quote else none) c.ahead with
  | none => .pass c m
  | some p =>
    let c := (c.switch .placeholder).forwardN p.specStart
    let c :=
      if p.specStart = p.specStop then c
      else ((c.switch .specifier).forwardN (p.specStop - p.specStart)).switch .placeholder
    .again ((c.forwardN (p.length - p.specStop)).switch outer) m

/-- A brace in a string: two of a kind are an escape, and an opening one may open a placeholder. -/
def leaveBrace (c : Place) (m : Memory) : Rule :=
  if c.next = c.byte then
    .pass (c.switch .escape).forward { m with escape := .single c.state }
  else if c.byte = lbrace then readPlaceholder c m
  else .pass c m

/-- Whether the literal at hand ends, or something begins within it. -/
def leaveLiteral (config : Config) (c : Place) (m : Memory) : Rule :=
  if c.atLineStart then .pass (c.switch .plain) m
  else if c.byte = backslash ∧ c.state ≠ .multilineString then
    Escape.enter escapes .escape c m fun e => { m with escape := e }
  else if c.byte = apostrophe ∧ c.state = .character then .again (c.forwardSwitch .plain) m
  else if c.byte = quote ∧ c.state = .string then .again (c.forwardSwitch .plain) m
  else if (c.byte = lbrace ∨ c.byte = rbrace) ∧ c.state ≠ .character ∧ config.placeholders then
    leaveBrace c m
  else .pass c m

end Highlight.Zig
