import Highlight.Byte

/-!
Format placeholders inside string literals, such as `{d:0>8.3}`. In braces stand an argument
(digits, or a name in brackets), a specifier, and after a colon an alignment with an optional fill
character, a width and a precision; every part may be missing. A placeholder lies on one line and
ends before the quote that closes the literal, so one that is half typed is no placeholder.
-/

namespace Highlight

open Byte

/-- A placeholder at the beginning of a text: its length with both braces, and where its specifier
begins and stops, which is the same place if there is none. -/
structure Placeholder where
  length : Nat
  specStart : Nat
  specStop : Nat
  deriving DecidableEq, Repr

namespace Placeholder

/-- The specifiers of one letter. -/
def specifiers : List Byte :=
  ['b', 'c', 'd', 'e', 'f', 'g', 'o', 's', 'u', 'x', 'X', '?', '!', '*', 'a'].map Char.toUInt8

/-- A byte that no placeholder goes over: an end of a line, or the byte that closes the literal. -/
def stops (closer : Option Byte) (b : Byte) : Bool := isLineEnd b || some b == closer

section Parts

variable (closer : Option Byte)

/-- The byte `n` places on, `0` at a byte that no placeholder goes over. -/
def byteAt (t : Text) (n : Nat) : Byte :=
  let b := t.getD n 0
  if stops closer b then 0 else b

/-- The length of the bytes of one kind at the beginning of a text. -/
def lengthOf (kind : Byte → Bool) (t : Text) : Nat :=
  (t.takeWhile fun b => kind b && !stops closer b).length

/-- The length of an argument, which may be missing; none if a bracket opens no argument. -/
def argumentLength? (t : Text) : Option Nat :=
  if byteAt closer t 0 = lbracket then
    let n := lengthOf closer isNameByte (t.drop 1)
    if isNameStart (byteAt closer t 1) ∧ byteAt closer t (n + 1) = rbracket then some (n + 2)
    else none
  else some (lengthOf closer isDigit t)

/-- The length of the specifier at the beginning of a text. -/
def specifierLength (t : Text) : Nat :=
  if byteAt closer t 0 = lowerA ∧ byteAt closer t 1 = lowerN ∧ byteAt closer t 2 = lowerY then 3
  else if byteAt closer t 0 ∈ specifiers then 1
  else 0

/-- The length that the first byte of a character in UTF-8 announces. -/
def announcedLength (lead : Byte) : Nat :=
  if 0xC0 ≤ lead ∧ lead ≤ 0xDF then 2
  else if 0xE0 ≤ lead ∧ lead ≤ 0xEF then 3
  else if 0xF0 ≤ lead ∧ lead ≤ 0xF7 then 4
  else 1

/-- A byte that continues a character in UTF-8. -/
def isContinuation (b : Byte) : Bool := 0x80 ≤ b && b ≤ 0xBF

/-- The length of the fill character at the beginning of a text, `0` where none may stand. A byte
that announces a longer character than there is stands alone. -/
def fillLength (t : Text) : Nat :=
  let lead := byteAt closer t 0
  if lead = 0 ∨ lead = lbrace ∨ lead = rbrace then 0
  else
    let more := announcedLength lead - 1
    if more ≤ lengthOf closer isContinuation (t.drop 1) then more + 1 else 1

/-- A mark of alignment. -/
def isAlignment (b : Byte) : Bool := b == less || b == caret || b == greater

/-- The length of an alignment with its fill character, either of which may be missing. -/
def alignmentLength (t : Text) : Nat :=
  let fill := fillLength closer t
  if 0 < fill ∧ isAlignment (byteAt closer t fill) then fill + 1
  else if isAlignment (byteAt closer t 0) then 1
  else 0

/-- The length of a point and digits, which may be missing. -/
def precisionLength (t : Text) : Nat :=
  if byteAt closer t 0 = dot then lengthOf closer isDigit (t.drop 1) + 1 else 0

/-- The length of a colon and the options after it, which may be missing. -/
def optionsLength (t : Text) : Nat :=
  if byteAt closer t 0 = colon then
    let align := alignmentLength closer (t.drop 1)
    let width := lengthOf closer isDigit (t.drop (1 + align))
    1 + align + width + precisionLength closer (t.drop (1 + align + width))
  else 0

end Parts

/-- The placeholder at the beginning of a text, in a literal that `closer` closes. -/
def read (closer : Option Byte) : Text → Option Placeholder
  | [] => none
  | b :: t =>
    if b = lbrace then do
      let argument ← argumentLength? closer t
      let spec := specifierLength closer (t.drop argument)
      let options := t.drop (argument + spec)
      let after := byteAt closer options 0
      if 0 < spec ∧ after ≠ colon ∧ after ≠ rbrace then none
      else
        let n := optionsLength closer options
        if byteAt closer options n = rbrace then
          some {
            length := argument + spec + n + 2
            specStart := argument + 1
            specStop := argument + spec + 1 }
        else none
    else none

end Placeholder

end Highlight
