import Highlight.Language.ScalaCategory
import Highlight.Line.State
import Highlight.Scan.Escape
import Highlight.Scan.Grammar
import Highlight.Scan.ReturnStack
import Highlight.Word.Class

/-!
What a scan of Scala keeps beside its state, and the choices of its user.
-/

namespace Highlight.Scala

/-- Which strings are interpolated. -/
inductive Interpolation where
  /-- Those that follow a name directly. -/
  | prefixed
  | always
  | never
  deriving DecidableEq, Repr

/-- The choices of the user. -/
structure Config where
  words : WordSets
  interpolation : Interpolation := .prefixed
  /-- Whether tags are read as markup. -/
  markup : Bool := true
  /-- How many states to return to are held. -/
  stackCap : Nat := ReturnStack.defaultCap

/-- What a scan of Scala keeps. -/
structure Memory where
  announced : Announced := .nothing
  /-- How deep block comments are nested. -/
  commentDepth : Nat := 0
  /-- The states to return to from holes and braces. -/
  regions : ReturnStack Category
  escape : Escape Category := { outer := .plain }
  /-- The string to return to after a reference in it. -/
  reference : Option Category := none
  /-- The markup elements that are open. -/
  elements : Nat := 0
  /-- The last visible byte before the name in progress. -/
  before : Byte := 0
  /-- What is known of the line in progress. -/
  flags : LineFlags := {}
  /-- The line in progress began inside a string in triple quotes. -/
  carried : Bool := false

/-- A place with what the scan has passed. -/
abbrev Place := Cursor Category

/-- What a rule of Scala asks for. -/
abbrev Rule := Flow Category Memory

namespace Memory

/-- The line in progress is a comment. -/
def markComment (m : Memory) : Memory := { m with flags := { m.flags with comment := true } }

/-- The line in progress begins with a closer. -/
def markCloser (m : Memory) : Memory := { m with flags := { m.flags with closer := true } }

end Memory

/-- A byte that can begin a name, the dollar sign included. -/
def isNameStart (b : Byte) : Bool := Byte.isNameStart b || b == Byte.dollar

/-- A byte that can continue a name, the dollar sign included. -/
def isNameByte (b : Byte) : Bool := Byte.isNameByte b || b == Byte.dollar

end Highlight.Scala
