import Highlight.Language.ZigLiteral
import Highlight.Language.ZigWords

/-!
The rules of Zig. Nothing but comments, strings and words goes over more than one byte, and nothing
at all over the end of a line.
-/

namespace Highlight.Zig

open Byte

/-- The category of a name, by what it stands for. -/
def categoryOf : WordClass → Category
  | .keyword => .keyword
  | .className | .traitName | .enumName | .typeName => .typeName
  | .functionDefinition => .functionDefinition
  | .function => .function
  | .identifier => .identifier

/-- The name that ends at the cursor takes the category of what it stands for. -/
def classifyName (config : Config) (c : Place) (m : Memory) : Place × Memory :=
  let n := Occurrence.endingAt c m.before
  let (k, announced) := n.classify config.words announcedBy m.announced
  ((c.recolor (categoryOf k)).remember (categoryOf k), { m with announced := announced })

/-- Decides whether the run in progress ends. -/
def leave (config : Config) (c : Place) (m : Memory) : Rule :=
  match c.state with
  | .operator => .pass (c.switch .plain) m
  | .number =>
    if continuesNumber c.behind c.byte c.next then .pass c m else .pass (c.switch .plain) m
  | .identifier =>
    if isNameByte c.byte then .pass c m
    else
      let (c, m) := classifyName config c m
      .pass (c.switch .plain) m
  | .builtin => if isNameByte c.byte then .pass c m else .pass (c.switch .plain) m
  | .lineComment | .docComment | .topComment =>
    if c.atLineStart then .pass (c.switch .plain) m else .pass c m
  | .character | .string | .multilineString => leaveLiteral config c m
  | .escape => m.escape.leave c fun e => { m with escape := e }
  | .plain | .keyword | .typeName | .functionDefinition | .function | .placeholder | .specifier =>
    .pass c m

/-- A comment begins. The byte after its two slashes says of which kind it is. -/
def enterComment (c : Place) (m : Memory) : Rule :=
  let m := if c.visible = 0 then m.markComment else m
  let c := (c.switch .lineComment).forwardN 2
  .pass
    (if c.byte = bang then c.recolor .topComment
      else if c.byte = slash ∧ c.next ≠ slash then c.recolor .docComment
      else c)
    m

/-- What begins at a punctuation byte. -/
def enterPunctuation (c : Place) (m : Memory) : Rule :=
  if c.byte = slash ∧ c.next = slash then enterComment c m
  else if c.byte = backslash ∧ c.next = backslash then
    .pass (c.switch .multilineString) m.markString
  else if c.byte = quote then .pass (c.switch .string) m
  else if c.byte = apostrophe then .pass (c.switch .character) m
  else if startsNumber c.byte c.next then .pass (c.switch .number) m
  else if c.byte = atSign ∧ isNameStart c.next then .pass (c.switch .builtin) m
  else .pass (c.switch .operator) m

/-- Decides what begins. -/
def enter (c : Place) (m : Memory) : Rule :=
  match ByteClass.of c.byte with
  | .digit => .pass (c.switch .number) m
  | .nameStart => .pass (c.switch .identifier) { m with before := c.trail.byte }
  | .punctuation => enterPunctuation c m
  | .space | .lineEnd | .control => .pass c m

/-- Sums up a line. -/
def endLine (c : Place) (m : Memory) : LineState × Memory :=
  let flags := if m.flags = .none ∧ c.visible = 0 then { blank := true } else m.flags
  (.of flags 0 c.trail.indent, { m with flags := .none, announced := .nothing })

/-- The language Zig. -/
def grammar (config : Config) : Grammar Category Memory where
  begin c _ := (c, {})
  leave := leave config
  enter := enter
  endLine := endLine

end Highlight.Zig
