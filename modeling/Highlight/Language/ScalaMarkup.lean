import Highlight.Language.ScalaMemory

/-!
Markup in expressions. The open elements are only counted: a tag opens one, and an end tag or an
empty tag closes one. While one is open the scan goes back and forth between the inside of tags
and the text between them; a brace in either opens a hole and saves where to return to.
-/

namespace Highlight.Scala

open Byte (apostrophe bang equals greater lbrace less lparen question quote rbracket rparen slash)

/-- What stands before a less-than sign is a value, so the sign compares. -/
def followsValue (t : Trail Category) : Bool :=
  t.byte == rparen || t.byte == rbracket || t.category == .postfixOperator ||
    t.category == .number || t.category == .identifier || isNameByte t.byte

/-- The less-than sign at the cursor opens a tag. A name, or the mark of a declaration, follows it
directly, and before it stands an opening bracket, or white space that no value precedes. -/
def opensTag (c : Place) : Bool :=
  (isNameByte c.next || c.next == bang || c.next == question) &&
    (c.behind == lparen || c.behind == lbrace ||
      (c.behind ≤ Byte.space &&
        (c.trail.category == .tag || c.trail.category == .keyword || !followsValue c.trail)))

/-- A tag begins: an end tag closes an element, any other opens one. -/
def enterTag (c : Place) (m : Memory) : Rule :=
  if c.next = slash then
    .pass (c.switch .tag).forward { m with elements := m.elements - 1 }
  else .pass (c.switch .tag) { m with elements := m.elements + 1 }

/-- The tag in progress ends; one that ends with a slash closes its element. After the last element
the markup ends. -/
def closeTag (c : Place) (m : Memory) : Rule :=
  let empty : Bool := c.byte == slash
  let c := c.switch .tag
  let c := if empty then c.forward else c
  let m := if empty then { m with elements := m.elements - 1 } else m
  .again (c.forwardSwitch (if m.elements = 0 then .plain else .markupText)) m

/-- What begins between or within tags. -/
def leaveMarkup (c : Place) (m : Memory) : Rule :=
  let inside : Bool := c.state == .markupOther
  if c.byte = greater ∨ c.reads slash greater then closeTag c m
  else if c.byte = equals ∧ inside then
    .again ((c.switch .punctuation).forwardSwitch .markupOther) m
  else if c.byte = apostrophe ∧ inside then .pass (c.switch .singleQuoted) m
  else if c.byte = quote ∧ inside then .pass (c.switch .doubleQuoted) m
  else if inside ∧ isNameStart c.byte then .pass (c.switch .attributeName) m
  else if c.byte = lbrace then
    .pass (c.switch .punctuation) { m with regions := m.regions.push c.state }
  else if c.byte = less then enterTag c m
  else .pass c m

end Highlight.Scala
