import Highlight.Word.Class

/-!
The words of Scala, and what its keywords announce.
-/

namespace Highlight.Scala

/-- The keywords of Scala. -/
def keywords : WordSet := .ofString
  ("abstract case catch class def derives do else end enum export extends extension " ++
    "false final finally for forSome given if implicit import infix inline lazy match new " ++
    "null object opaque open override package private protected return sealed super then " ++
    "this throw throws trait transparent true try type using val var while with yield")

/-- The classes that Scala knows by name. -/
def classes : WordSet := .ofString
  ("Any AnyRef AnyVal Array BigDecimal BigInt Boolean Byte Char Double Either Float " ++
    "Future Int Left List Long Map Nil None Nothing Null Option Right Seq Set Short Some " ++
    "String Success Failure Try Unit Vector")

/-- The traits that Scala knows by name. -/
def traits : WordSet := .ofString
  ("App Comparable Equals Function0 Function1 Function2 Iterable Iterator Ordered " ++
    "Ordering PartialFunction Product Runnable Serializable")

/-- The words that Scala knows unless told otherwise. -/
def words : WordSets := { keywords := keywords, classes := classes, traits := traits }

/-- The keywords after which the name of a class comes. -/
def classWords : WordSet := .ofString "class new extends throws object"

/-- The keywords after which the name of a trait comes. -/
def traitWords : WordSet := .ofString "trait with"

/-- The keywords after which a value comes. -/
def valueWords : WordSet := .ofString "return yield"

/-- What a keyword announces. -/
def announcedBy (w : Text) : Announced :=
  if classWords.contains w then .className
  else if traitWords.contains w then .traitName
  else if w = Text.ofString "def" then .functionName
  else if w = Text.ofString "enum" then .enumName
  else if valueWords.contains w then .value
  else .nothing

end Highlight.Scala
