import Highlight.Scan.Cursor
import Highlight.Word.Set

/-!
What a name in a program stands for. Words of the language are known by themselves. Any other name
is judged by its neighbours: a keyword such as `class` announces what the next name is, and a name
before an opening parenthesis is a function, a definition of one if a type stands before it. Both
are guesses, made for looks.
-/

namespace Highlight

/-- What the last keyword said of the next name. -/
inductive Announced where
  | nothing
  | className
  | traitName
  | enumName
  | functionName
  /-- A value comes next, so a function there is called and not defined. -/
  | value
  deriving DecidableEq, Repr

/-- What a name stands for. -/
inductive WordClass where
  | keyword
  | className
  | traitName
  | enumName
  | typeName
  | functionDefinition
  | function
  /-- A name like any other. -/
  | identifier
  deriving DecidableEq, Repr

namespace Announced

/-- The announced name declares something. -/
def isDeclaration : Announced → Bool
  | className | traitName | enumName | functionName => true
  | nothing | value => false

/-- What an announced name stands for, if it declares something. -/
def wordClass? : Announced → Option WordClass
  | className => some .className
  | traitName => some .traitName
  | enumName => some .enumName
  | functionName => some .functionDefinition
  | nothing | value => none

end Announced

/-- A name as it occurs in a program, with what stands around it. -/
structure Occurrence where
  word : Text
  /-- The byte just after it. -/
  next : Byte
  /-- The first byte after it, on the same line, that is neither a space nor a tab. -/
  nextVisible : Byte
  /-- The last visible byte before it. -/
  before : Byte
  deriving Repr

namespace Occurrence

/-- The name that ends at a cursor. -/
def endingAt {σ : Type} (c : Cursor σ) (before : Byte) : Occurrence where
  word := c.currentWord
  next := c.byte
  nextVisible := c.nextVisible
  before := before

/-- The set of known words that a name is in, keywords apart. -/
def known? (sets : WordSets) (n : Occurrence) : Option WordClass :=
  if sets.classes.contains n.word then some .className
  else if sets.traits.contains n.word then some .traitName
  else if sets.types.contains n.word then some .typeName
  else none

/-- What a name stands for that no keyword announced: a function if a parenthesis follows, and its
definition if a name or a closing bracket stands before it and no value was announced. -/
def ofNeighbours (n : Occurrence) (announced : Announced) : WordClass :=
  if n.nextVisible = Byte.lparen then
    if announced ≠ .value ∧ (Byte.isNameByte n.before ∨ n.before = Byte.rbracket) then
      .functionDefinition
    else .function
  else .identifier

/-- What a keyword announces. An announced declaration needs a name next to it on the line. -/
def announces (announcedBy : Text → Announced) (n : Occurrence) : Announced :=
  let a := announcedBy n.word
  if a.isDeclaration && !Byte.isNameStart n.nextVisible then .nothing else a

/-- What a name stands for, and what it leaves announced for the next one. A name before a point is
part of a longer one, so an announcement waits for the name after the point. -/
def classify (sets : WordSets) (announcedBy : Text → Announced) (n : Occurrence)
    (announced : Announced) : WordClass × Announced :=
  if sets.keywords.contains n.word then (.keyword, n.announces announcedBy)
  else
    let kept := if n.next = Byte.dot then announced else .nothing
    match n.known? sets with
    | some k => (k, kept)
    | none =>
      if n.next = Byte.dot then (.identifier, announced)
      else ((announced.wordClass?).getD (n.ofNeighbours announced), kept)

end Occurrence

end Highlight
