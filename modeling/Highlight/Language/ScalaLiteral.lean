import Highlight.Language.ScalaMemory

/-!
Quoted forms: strings of all kinds, characters, names in backquotes and attribute values. In an
interpolated string a dollar sign opens a hole, refers to a name, or stands for itself when
doubled.
-/

namespace Highlight.Scala

open Byte (apostrophe backslash dollar lbrace quote)

/-- The escapes of Scala. -/
def escapes : EscapeSyntax := .unicodeOnly

/-- What a dollar sign in an interpolated string begins. A hole saves the string to return to. -/
def enterInterpolation (c : Place) (m : Memory) : Rule :=
  if c.next = dollar then
    .pass (c.switch .escape).forward { m with escape := .single c.state }
  else if c.next = lbrace then
    .pass (c.switch .punctuation).forward { m with regions := m.regions.push c.state }
  else if isNameStart c.next then
    .pass (c.switch .identifier) { m with reference := some c.state }
  else .pass c m

/-- The end of a quoted form at its closing byte. Of the quotes at the end of a string in triple
quotes, the last three close it. -/
def closeLiteral (c : Place) (m : Memory) : Rule :=
  let after : Category :=
    if c.state = .singleQuoted ∨ c.state = .doubleQuoted then .markupOther else .plain
  .again ((if c.state.isTriple then c.toLastOfRun else c).forwardSwitch after) m

/-- Whether the quoted form in progress ends, or something begins within it. -/
def leaveLiteral (c : Place) (m : Memory) : Rule :=
  let s := c.state
  if c.atLineStart ∧ s.endsWithLine then .pass (c.switch .plain) m
  else if c.byte = backslash then
    Escape.enter escapes .escape c m fun e => { m with escape := e }
  else if c.byte = dollar ∧ s.isInterpolated then enterInterpolation c m
  else if c.byte = s.closingByte ∧ (s.endsWithLine ∨ c.readsNext quote quote) then closeLiteral c m
  else .pass c m

/-- A string is interpolated that begins at the quote at hand. -/
def startsInterpolated (config : Config) (c : Place) : Bool :=
  match config.interpolation with
  | .prefixed => c.trail.category != .number && isNameByte c.behind
  | .always => true
  | .never => false

/-- A string begins. -/
def enterString (config : Config) (c : Place) (m : Memory) : Rule :=
  let interpolated := startsInterpolated config c
  if c.readsNext quote quote then
    let s : Category := if interpolated then .tripleInterpolated else .tripleString
    .pass ((c.switch s).forwardN 2) m
  else .pass (c.switch (if interpolated then .interpolated else .string)) m

/-- What an apostrophe begins: a character, or a symbol, or a quoted block of code. -/
def enterApostrophe (c : Place) (m : Memory) : Rule :=
  if c.peek 2 = apostrophe then .pass (c.switch .character) m
  else if c.next = lbrace then .pass (c.switch .operator) m
  else if isNameStart c.next then .pass (c.switch .symbol) m
  else .pass (c.switch .character) m

end Highlight.Scala
