import Highlight.Language.ScalaComment
import Highlight.Language.ScalaLiteral
import Highlight.Language.ScalaMarkup
import Highlight.Language.ScalaName

/-!
The rules of Scala. Lines that end inside a hole, a brace within one, or markup are nested, since
what is open there is not kept between scans; block comments and strings in triple quotes go on
from line to line by the state and the depth that are kept.
-/

namespace Highlight.Scala

open Byte (atSign backquote bang continuesNumber hash lbrace less minus plus quote rbrace rbracket
  rparen slash star startsNumber)

/-- Decides whether the run in progress ends. -/
def leave (config : Config) (c : Place) (m : Memory) : Rule :=
  match c.state with
  | .operator | .punctuation | .postfixOperator => .pass (c.switch .plain) m
  | .number =>
    if continuesNumber c.behind c.byte c.next then .pass c m else .pass (c.switch .plain) m
  | .identifier | .annotationName | .symbol | .tag | .attributeName => leaveWord config c m
  | .lineComment => if c.atLineStart then .pass (c.switch .plain) m else .pass c m
  | .blockComment | .docComment => leaveBlockComment c m
  | .commentTag => leaveCommentTag c m
  | .escape => m.escape.leave c fun e => { m with escape := e }
  | .markupText | .markupOther => leaveMarkup c m
  | .backquoted | .character | .string | .interpolated | .tripleString | .tripleInterpolated
  | .singleQuoted | .doubleQuoted => leaveLiteral c m
  | .plain | .keyword | .className | .traitName | .enumName | .functionDefinition | .function =>
    .pass c m

/-- An operator inside a hole. Braces there nest, and the brace that closes the region returns to
the state saved for it. -/
def enterRegionOperator (c : Place) (m : Memory) : Rule :=
  let c := c.switch .punctuation
  if c.byte = lbrace then .pass c { m with regions := m.regions.push .plain }
  else if c.byte = rbrace then
    match m.regions.pop? with
    | some (outer, regions) => .again (c.forwardSwitch outer) { m with regions := regions }
    | none => .pass c m
  else .pass c m

/-- What begins at a byte that opens nothing else. -/
def enterOperator (c : Place) (m : Memory) : Rule :=
  if (c.byte = plus ∨ c.byte = minus) ∧ c.next = c.byte then
    .pass (c.switch .postfixOperator).forward m
  else if !m.regions.isEmpty then enterRegionOperator c m
  else
    .pass (c.switch .operator)
      (if c.visible = 0 ∧ (c.byte = rbrace ∨ c.byte = rbracket ∨ c.byte = rparen) then m.markCloser
        else m)

/-- What begins at a punctuation byte. -/
def enterPunctuation (config : Config) (c : Place) (m : Memory) : Rule :=
  if c.byte = slash ∧ c.next = slash then enterLineComment c m
  else if c.byte = slash ∧ c.next = star then enterBlockComment c m
  else if c.byte = quote then enterString config c m
  else if c.byte = Byte.apostrophe then enterApostrophe c m
  else if c.byte = less then
    if config.markup ∧ (c.next = slash ∨ opensTag c) then enterTag c m
    else .pass (c.switch .operator) m
  else if c.byte = backquote then .pass (c.switch .backquoted) m
  else if startsNumber c.byte c.next then .pass (c.switch .number) m
  else if c.byte = Byte.dollar then enterName c m
  else if c.byte = atSign ∧ isNameStart c.next then .pass (c.switch .annotationName) m
  else enterOperator c m

/-- Decides what begins. -/
def enter (config : Config) (c : Place) (m : Memory) : Rule :=
  match ByteClass.of c.byte with
  | .digit => .pass (c.switch .number) m
  | .nameStart => enterName c m
  | .punctuation => enterPunctuation config c m
  | .space | .lineEnd | .control => .pass c m

/-- Sets up a scan. A text may begin with a line for the shell, which is a comment. -/
def begin (config : Config) (c : Place) (before : LineState) : Place × Memory :=
  (if c.pos = 0 ∧ c.reads hash bang then (c.switch .lineComment).forward else c,
    { commentDepth := before.depth.toNat
      regions := .empty config.stackCap
      carried := c.state.isTriple })

/-- The flags of the line in progress, at its end. -/
def lineFlags (c : Place) (m : Memory) : LineFlags :=
  if !m.regions.isEmpty ∨ m.elements ≠ 0 then { nested := true, string := true }
  else if c.state.isTriple ∨ m.carried then { m.flags with string := true }
  else if m.flags = .none ∧ c.visible = 0 then { blank := true }
  else m.flags

/-- Sums up a line. -/
def endLine (c : Place) (m : Memory) : LineState × Memory :=
  (.of (lineFlags c m) m.commentDepth c.trail.indent,
    { m with flags := .none, announced := .nothing, carried := c.state.isTriple })

/-- The language Scala. -/
def grammar (config : Config) : Grammar Category Memory where
  begin := begin config
  leave := leave config
  enter := enter config
  endLine := endLine
  nesting m := { depth := m.regions.depth, deepest := m.regions.peak }
  folding := .indentation

end Highlight.Scala
