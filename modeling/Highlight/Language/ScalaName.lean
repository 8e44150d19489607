import Highlight.Language.ScalaMemory
import Highlight.Language.ScalaWords

/-!
Runs that are words: names, annotations, symbols, and the names of tags and attributes. The name
of a reference in a string ends by going back to the string, and any other name takes the category
of what it stands for.
-/

namespace Highlight.Scala

open Byte (colon dot minus)

/-- The category of a name, by what it stands for. -/
def categoryOf : WordClass → Category
  | .keyword => .keyword
  | .className | .typeName => .className
  | .traitName => .traitName
  | .enumName => .enumName
  | .functionDefinition => .functionDefinition
  | .function => .function
  | .identifier => .identifier

/-- A name begins. -/
def enterName (c : Place) (m : Memory) : Rule :=
  .pass (c.switch .identifier) { m with reference := none, before := c.trail.byte }

/-- The name that ends at the cursor takes the category of what it stands for. The keyword `end` at
the beginning of a line closes a block. -/
def classifyName (config : Config) (c : Place) (m : Memory) : Place × Memory :=
  let n := Occurrence.endingAt c m.before
  let (k, announced) := n.classify config.words announcedBy m.announced
  let m := { m with announced := announced }
  let m :=
    if k = .keyword ∧ c.currentWord = Text.ofString "end" ∧ c.visible = 3 then m.markCloser else m
  ((c.recolor (categoryOf k)).remember (categoryOf k), m)

/-- The byte at the cursor separates two parts of a longer name: a point, except after a plain name
or a symbol, and a colon in the names of markup. -/
def separates (c : Place) : Bool :=
  (c.byte == dot && c.state != .identifier && c.state != .symbol) ||
    (c.byte == colon && c.state.isMarkupName)

/-- The cursor after a separator, if one stands at it. -/
def passSeparator (c : Place) : Place :=
  if separates c then (c.switch .punctuation).forwardSwitch c.state else c

/-- The byte at the cursor continues the word in progress. -/
def continuesWord (c : Place) : Bool :=
  isNameByte c.byte || (c.byte == minus && c.state.isMarkupName)

/-- Whether the word in progress ends. -/
def leaveWord (config : Config) (c : Place) (m : Memory) : Rule :=
  let c := passSeparator c
  if continuesWord c then .pass c m
  else if c.state = .identifier then
    match m.reference with
    | some outer => .again (c.switch outer) { m with reference := none }
    | none =>
      let (c, m) := classifyName config c m
      .again (c.switch .plain) m
  else if c.state.isMarkupName then .again (c.switch .markupOther) m
  else .again (c.switch .plain) m

end Highlight.Scala
