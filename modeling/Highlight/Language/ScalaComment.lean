import Highlight.Language.ScalaMemory

/-!
Comments. Block comments nest, and one that begins with two stars is a documentation comment, in
which tags are marked. A line inside a block comment is a comment line; the line on which the
comment ends is one only if nothing visible follows.
-/

namespace Highlight.Scala

open Byte (slash star atSign isAlpha precedesTag)

/-- A line comment begins. -/
def enterLineComment (c : Place) (m : Memory) : Rule :=
  .pass (c.switch .lineComment) (if c.visible = 0 then m.markComment else m)

/-- A block comment begins. -/
def enterBlockComment (c : Place) (m : Memory) : Rule :=
  let m := if c.visible = 0 then m.markComment else m
  let c := (c.switch .blockComment).forwardN 2
  .again (if c.byte = star ∧ c.next ≠ star then c.recolor .docComment else c)
    { m with commentDepth := 1 }

/-- One level of a block comment ends, and with the last one the comment. -/
def closeBlockComment (c : Place) (m : Memory) : Rule :=
  let c := c.forward
  let m := { m with commentDepth := m.commentDepth - 1 }
  if m.commentDepth = 0 then
    let c := c.forwardSwitch .plain
    .pass c
      (if m.flags = { comment := true } ∧ c.nextVisible ≠ 0 then { m with flags := .none } else m)
  else .pass c m

/-- What happens in a block comment at the byte at hand. -/
def leaveBlockComment (c : Place) (m : Memory) : Rule :=
  let m := if c.atLineStart then { m with flags := { comment := true } } else m
  if c.reads star slash then closeBlockComment c m
  else if c.reads slash star then .pass c.forward { m with commentDepth := m.commentDepth + 1 }
  else if c.state = .docComment ∧ c.byte = atSign ∧ isAlpha c.next ∧ precedesTag c.behind then
    .pass (c.switch .commentTag) m
  else .pass c m

/-- Whether the tag in progress ends. -/
def leaveCommentTag (c : Place) (m : Memory) : Rule :=
  if isAlpha c.byte then .pass c m else .again (c.switch .docComment) m

end Highlight.Scala
