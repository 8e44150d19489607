import Highlight.Language.TomlMemory

/-!
Values: strings, numbers, dates and words. Inside the braces of an inline table a word may also be
a key, which shows only when it has ended.
-/

namespace Highlight.Toml

open Byte

/-- The escapes of TOML. -/
def escapes : EscapeSyntax := .hexAndLong

/-- A sign that can stand within a date or a time, before a digit. -/
def continuesDateTime (b next : Byte) : Bool :=
  (b == minus || b == colon || b == dot || b == plus || b == space) && isDigit next

/-- The value in progress ends. Within brackets, one before an equals sign, a point or a minus was
a key. -/
def endValue (words : WordSets) (c : Place) (m : Memory) : Rule :=
  if 0 < m.brackets ∧
      (c.nextVisible = equals ∨ c.nextVisible = dot ∨ c.nextVisible = minus) then
    .again (c.recolor .key) { m with key := .bare }
  else
    let known := words.keywords.contains (c.currentWord.map toLower)
    let c := if c.state = .identifier ∧ known then c.recolor .keyword else c
    .again (c.switch .plain) m

/-- Whether the number in progress ends, or turns out to be a date or a time. -/
def leaveNumber (words : WordSets) (c : Place) (m : Memory) : Rule :=
  if continuesNumber c.behind c.byte c.next then .pass c m
  else if (c.byte = minus ∨ c.byte = colon) ∧ isDigit c.next then .pass (c.recolor .dateTime) m
  else endValue words c m

/-- Whether the string in progress ends, or an escape begins in it. Of the quotes at the end of a
string in triple quotes, the last three close it. -/
def leaveString (words : WordSets) (c : Place) (m : Memory) : Rule :=
  let s := c.state
  if c.atLineStart ∧ !s.isTriple then .pass (c.switch .plain) m
  else if c.byte = backslash ∧ s.isBasic then
    Escape.enter escapes .escape c m fun e => { m with escape := e }
  else if c.byte = s.closingByte then
    if !s.isTriple then endValue words c.forward m
    else if c.readsNext c.byte c.byte then .again (c.toLastOfRun.forwardSwitch .plain) m
    else .pass c m
  else .pass c m

end Highlight.Toml
