import Highlight.Byte
import Highlight.Palette

/-!
What a scan remembers of the bytes behind it: the last visible byte that counts, with its
category, and how far the line has come. The first two can be read back from the categories that
were given to the text before a place, and so a scan that starts there knows what a scan from the
beginning knows.
-/

namespace Highlight

/-- The memory of a scan. -/
structure Trail (σ : Type) where
  /-- The last byte that was neither white space nor in a quiet category; `0` if there is none. -/
  byte : Byte := 0
  /-- The category that byte was passed in. -/
  category : σ
  /-- The bytes of the line so far that are not white space. -/
  visible : Nat := 0
  /-- The spaces and tabs of the line before the first of these. -/
  indent : Nat := 0
  deriving DecidableEq, Repr

namespace Trail

variable {σ : Type} [Palette σ]

/-- The memory of a scan that has passed nothing. -/
def start : Trail σ := { category := Palette.plain }

/-- Whether a byte passed in a category is remembered as the last visible one. -/
def counts (b : Byte) (s : σ) : Bool := !Byte.isSpace b && !Palette.isQuiet s

/-- The memory after one more byte, passed in the category `s`. -/
def pass (t : Trail σ) (b : Byte) (s : σ) : Trail σ :=
  if Byte.isSpace b then
    if t.visible = 0 ∧ Byte.isBlank b then { t with indent := t.indent + 1 } else t
  else if Palette.isQuiet s then
    { t with visible := t.visible + 1 }
  else
    { t with byte := b, category := s, visible := t.visible + 1 }

/-- The memory at the beginning of a line. -/
def newLine (t : Trail σ) : Trail σ := { t with visible := 0, indent := 0 }

/-- The memory at the end of a styled text, as far as it does not concern the line in progress. -/
def ofStyled (before : List (Byte × σ)) : Trail σ :=
  before.foldl
    (fun t p => if counts p.1 p.2 then { t with byte := p.1, category := p.2 } else t) start

end Trail

end Highlight
