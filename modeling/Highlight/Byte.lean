/-!
Bytes and their classes. A text is a list of bytes; a byte from `0x80` on belongs to a character
outside ASCII and counts as a letter of a name, so that no name is cut inside a character.
-/

namespace Highlight

/-- One byte of a text. -/
abbrev Byte := UInt8

/-- A text is the list of its bytes. -/
abbrev Text := List Byte

/-- The bytes of a string. -/
def Text.ofString (s : String) : Text := s.toUTF8.toList

namespace Byte

/-! ### Names of bytes -/

@[simp] abbrev tab : Byte := 0x09
@[simp] abbrev newline : Byte := 0x0A
@[simp] abbrev verticalTab : Byte := 0x0B
@[simp] abbrev formFeed : Byte := 0x0C
@[simp] abbrev carriageReturn : Byte := 0x0D
@[simp] abbrev space : Byte := 0x20
@[simp] abbrev bang : Byte := 0x21
@[simp] abbrev quote : Byte := 0x22
@[simp] abbrev hash : Byte := 0x23
@[simp] abbrev dollar : Byte := 0x24
@[simp] abbrev apostrophe : Byte := 0x27
@[simp] abbrev lparen : Byte := 0x28
@[simp] abbrev rparen : Byte := 0x29
@[simp] abbrev star : Byte := 0x2A
@[simp] abbrev plus : Byte := 0x2B
@[simp] abbrev comma : Byte := 0x2C
@[simp] abbrev minus : Byte := 0x2D
@[simp] abbrev dot : Byte := 0x2E
@[simp] abbrev slash : Byte := 0x2F
@[simp] abbrev zero : Byte := 0x30
@[simp] abbrev nine : Byte := 0x39
@[simp] abbrev colon : Byte := 0x3A
@[simp] abbrev semicolon : Byte := 0x3B
@[simp] abbrev less : Byte := 0x3C
@[simp] abbrev equals : Byte := 0x3D
@[simp] abbrev greater : Byte := 0x3E
@[simp] abbrev question : Byte := 0x3F
@[simp] abbrev atSign : Byte := 0x40
@[simp] abbrev upperA : Byte := 0x41
@[simp] abbrev upperE : Byte := 0x45
@[simp] abbrev upperF : Byte := 0x46
@[simp] abbrev upperP : Byte := 0x50
@[simp] abbrev upperU : Byte := 0x55
@[simp] abbrev upperZ : Byte := 0x5A
@[simp] abbrev lbracket : Byte := 0x5B
@[simp] abbrev backslash : Byte := 0x5C
@[simp] abbrev rbracket : Byte := 0x5D
@[simp] abbrev caret : Byte := 0x5E
@[simp] abbrev underscore : Byte := 0x5F
@[simp] abbrev backquote : Byte := 0x60
@[simp] abbrev lowerA : Byte := 0x61
@[simp] abbrev lowerE : Byte := 0x65
@[simp] abbrev lowerF : Byte := 0x66
@[simp] abbrev lowerN : Byte := 0x6E
@[simp] abbrev lowerP : Byte := 0x70
@[simp] abbrev lowerU : Byte := 0x75
@[simp] abbrev lowerX : Byte := 0x78
@[simp] abbrev lowerY : Byte := 0x79
@[simp] abbrev lowerZ : Byte := 0x7A
@[simp] abbrev lbrace : Byte := 0x7B
@[simp] abbrev rbrace : Byte := 0x7D
@[simp] abbrev delete : Byte := 0x7F

/-! ### Classes -/

/-- A decimal digit. -/
def isDigit (b : Byte) : Bool := zero ≤ b && b ≤ nine

/-- A lower-case ASCII letter. -/
def isLower (b : Byte) : Bool := lowerA ≤ b && b ≤ lowerZ

/-- An upper-case ASCII letter. -/
def isUpper (b : Byte) : Bool := upperA ≤ b && b ≤ upperZ

/-- An ASCII letter. -/
def isAlpha (b : Byte) : Bool := isLower b || isUpper b

/-- A hexadecimal digit. -/
def isHexDigit (b : Byte) : Bool :=
  isDigit b || (lowerA ≤ b && b ≤ lowerF) || (upperA ≤ b && b ≤ upperF)

/-- A space or a tab, the bytes that indent a line. -/
def isBlank (b : Byte) : Bool := b == space || b == tab

/-- A carriage return or a newline. -/
def isLineEnd (b : Byte) : Bool := b == carriageReturn || b == newline

/-- White space, the ends of a line included. -/
def isSpace (b : Byte) : Bool := isBlank b || isLineEnd b || b == verticalTab || b == formFeed

/-- A byte that can begin a name: a letter, an underscore or a byte outside ASCII. -/
def isNameStart (b : Byte) : Bool := isAlpha b || b == underscore || 0x80 ≤ b

/-- A byte that can continue a name. -/
def isNameByte (b : Byte) : Bool := isNameStart b || isDigit b

/-- A visible ASCII byte. -/
def isGraphic (b : Byte) : Bool := space < b && b < delete

/-- The lower-case form of an ASCII letter; every other byte stays. -/
def toLower (b : Byte) : Byte := if isUpper b then b + 0x20 else b

/-- A number begins with a digit, or with a point before a digit. -/
def startsNumber (b next : Byte) : Bool := isDigit b || (b == dot && isDigit next)

/-- A number goes on over the bytes of names (radix marks, digits and suffixes), a point before a
digit, and a sign after the letter of an exponent. -/
def continuesNumber (before b next : Byte) : Bool :=
  isNameByte b || (b == dot && isDigit next) ||
    ((b == plus || b == minus) &&
      (before == lowerE || before == upperE || before == lowerP || before == upperP))

/-- What may stand before the tag of a documentation comment: white space, a control byte, or one
of the marks of a comment. -/
def precedesTag (b : Byte) : Bool := b ≤ space || b == star || b == slash || b == bang

end Byte

/-- The coarse class of a byte, by which a language picks what begins there. -/
inductive ByteClass where
  | space
  | lineEnd
  | digit
  | nameStart
  | punctuation
  | control
  deriving DecidableEq, Repr

/-- The class of a byte. -/
def ByteClass.of (b : Byte) : ByteClass :=
  if Byte.isLineEnd b then .lineEnd
  else if Byte.isSpace b then .space
  else if Byte.isDigit b then .digit
  else if Byte.isNameStart b then .nameStart
  else if Byte.isGraphic b then .punctuation
  else .control

end Highlight
