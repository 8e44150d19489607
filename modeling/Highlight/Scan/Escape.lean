import Highlight.Scan.Grammar

/-!
Escape sequences in literals. A sequence begins with a backslash; the byte after it says how many
more bytes may belong to it. A sequence with digits takes hexadecimal digits only, and ends early
at any other byte. The rules `enter` and `leave` serve every language; they are told how the
language keeps the escape in progress among its data.
-/

namespace Highlight

/-- How long the numeric escapes of a language are, counted from the letter that introduces them.
-/
structure EscapeSyntax where
  /-- Length after `u`, as in `\uXXXX`. -/
  unicode : Option Nat := none
  /-- Length after `U`, as in `\UXXXXXXXX`. -/
  longUnicode : Option Nat := none
  /-- Length after `x`, as in `\xXX`. -/
  hexByte : Option Nat := none
  /-- Whether the digits after `u` may stand in braces. -/
  bracedUnicode : Bool := false
  deriving DecidableEq, Repr

namespace EscapeSyntax

/-- Escapes of the form `\uXXXX` only. -/
def unicodeOnly : EscapeSyntax := { unicode := some 5 }

/-- Escapes of the forms `\xXX` and `\uXXXX`, and digits in braces after `\u`. -/
def hexAndBraced : EscapeSyntax := { unicode := some 5, hexByte := some 3, bracedUnicode := true }

/-- Escapes of the forms `\xXX`, `\uXXXX` and `\UXXXXXXXX`. -/
def hexAndLong : EscapeSyntax := { unicode := some 5, longUnicode := some 9, hexByte := some 3 }

/-- The number of bytes that may belong to an escape from its introducing byte on. -/
def lengthFor (e : EscapeSyntax) (introducer : Byte) : Nat :=
  (if introducer = Byte.lowerU then e.unicode
    else if introducer = Byte.upperU then e.longUnicode
    else if introducer = Byte.lowerX then e.hexByte
    else none).getD 1

end EscapeSyntax

/-- An escape in progress. -/
structure Escape (σ : Type) where
  /-- The state to go back to. -/
  outer : σ
  /-- The bytes that may still belong to it. -/
  left : Nat := 0
  /-- Whether its digits stand in braces. -/
  braced : Bool := false
  deriving DecidableEq, Repr

namespace Escape

variable {σ : Type}

/-- An escape inside `outer` that `introducer` introduces. -/
def start (outer : σ) (introducer : Byte) (e : EscapeSyntax) : Escape σ :=
  { outer := outer, left := e.lengthFor introducer }

/-- An escape of one byte after the first, such as a doubled brace. -/
def single (outer : σ) : Escape σ := { outer := outer, left := 1 }

/-- The escape with its digits in braces: the opening brace and up to six digits are still to
come. -/
def openBrace (e : Escape σ) : Escape σ := { e with left := 7, braced := true }

/-- The escape after one more byte was counted. -/
def count (e : Escape σ) : Escape σ := { e with left := e.left - 1 }

/-- Whether the escape, the byte at hand counted, has ended before this byte. -/
def ended (e : Escape σ) (b : Byte) : Bool := e.left == 0 || !Byte.isHexDigit b

variable {ζ : Type} [Palette σ]

/-- What the backslash at hand begins: an escape, in a run of category `s`, unless the line ends
after it or a zero byte follows. A brace that opens its digits is passed at once. -/
def enter (e : EscapeSyntax) (s : σ) (c : Cursor σ) (z : ζ) (keep : Escape σ → ζ) : Flow σ ζ :=
  if Byte.isLineEnd c.next ∨ c.next = 0 then .pass c z
  else
    let escape := start c.state c.next e
    let c := (c.switch s).forward
    if e.bracedUnicode ∧ c.reads Byte.lowerU Byte.lbrace then
      .pass c.forward (keep escape.openBrace)
    else .pass c (keep escape)

/-- Whether the escape in progress ends. The brace that closes its digits still belongs to it. -/
def leave (e : Escape σ) (c : Cursor σ) (keep : Escape σ → ζ) : Flow σ ζ :=
  let e := e.count
  if e.ended c.byte then
    .again ((if e.braced ∧ c.byte = Byte.rbrace then c.forward else c).switch e.outer) (keep e)
  else .pass c (keep e)

end Escape

end Highlight
