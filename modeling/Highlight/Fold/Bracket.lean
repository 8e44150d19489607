import Highlight.Fold.Level
import Highlight.Line.Store
import Highlight.Scan.Trail
import Highlight.Styles

/-!
Folding by brackets. Brackets in a bracket category raise and lower the level of the next line,
and a level never goes below zero. A run of comment lines, or of lines of one string, folds as one
unit. A line whose block opens with a brace at the beginning of the next line is credited with
that brace, so that the block folds under its head.
-/

namespace Highlight

/-- A document as folding sees it: the bytes of every line with their categories, and the states of
the lines. -/
structure FoldText (σ : Type) where
  lines : Array (List (Byte × σ))
  store : LineStore

namespace FoldText

variable {σ : Type} [Palette σ]

/-- The lines of a styled text, each with its newline; a newline at the end opens an empty line. -/
def splitLines (text : List (Byte × σ)) : List (List (Byte × σ)) :=
  text.foldr
    (fun p ls =>
      if p.1 = Byte.newline then [p] :: ls
      else match ls with
        | [] => [[p]]
        | l :: ls => (p :: l) :: ls)
    [[]]

/-- The document of a text with the categories and line states that a scan left. -/
def of (text : Text) (styles : Styles σ) (store : LineStore) : FoldText σ where
  lines := (splitLines (styles.styled text)).toArray
  store := store

/-- The bytes of a line; beyond the last line there are none. -/
def line (d : FoldText σ) (i : Nat) : List (Byte × σ) := d.lines.getD i []

/-- What one byte adds to the level. -/
def weight (p : Byte × σ) : Int :=
  if Palette.isBracket p.2 then
    if p.1 = Byte.lbrace ∨ p.1 = Byte.lbracket ∨ p.1 = Byte.lparen then 1
    else if p.1 = Byte.rbrace ∨ p.1 = Byte.rbracket ∨ p.1 = Byte.rparen then -1
    else 0
  else 0

/-- What a list of bytes adds to the level. -/
def balance (l : List (Byte × σ)) : Int := l.foldr (fun p n => weight p + n) 0

/-! ### Braces credited to the line before -/

/-- The bytes of a line from the first one on that does not indent it. -/
def unindented (d : FoldText σ) (i : Nat) : List (Byte × σ) :=
  (d.line i).dropWhile fun p => Byte.isBlank p.1

/-- The line begins with an opening brace that folds. -/
def opensWithBrace (d : FoldText σ) (i : Nat) : Bool :=
  match d.unindented i with
  | [] => false
  | p :: _ => p.1 == Byte.lbrace && Palette.isBracket p.2

/-- The line is the head of a block: its last visible byte outside comments neither ends a
statement nor opens or closes a block. -/
def isHead (d : FoldText σ) (i : Nat) : Bool :=
  match (d.line i).reverse.find? fun p => Trail.counts p.1 p.2 with
  | none => false
  | some p => !(p.1 == Byte.lbrace || p.1 == Byte.rbrace || p.1 == Byte.semicolon ||
      p.1 == Byte.comma)

/-- The line is credited with the brace that opens the next one. -/
def credited (d : FoldText σ) (i : Nat) : Bool :=
  !(d.store.state i).flags.comment && !(d.store.state i).flags.string &&
    d.opensWithBrace (i + 1) && d.isHead i

/-- The line begins with a brace that was credited to the line before. -/
def skipsBrace (d : FoldText σ) : Nat → Bool
  | 0 => false
  | i + 1 => d.credited i

/-! ### Levels -/

/-- The bytes of a line that count for it. -/
def counted (d : FoldText σ) (i : Nat) : List (Byte × σ) :=
  if d.skipsBrace i then (d.unindented i).tail else d.line i

/-- What a line adds to the level beside its own bytes: a run of comment lines, or of lines of a
string, opens on its first line and closes on its last. -/
def adjustment (d : FoldText σ) (i : Nat) : Int :=
  let before := (d.store.stateBefore i).flags
  let here := (d.store.state i).flags
  let after := (d.store.state (i + 1)).flags
  if here.comment then after.comment.toInt - before.comment.toInt
  else if here.string then after.string.toInt - before.string.toInt
  else if d.credited i then 1
  else 0

/-- The level after a line that starts at `level`. -/
def levelAfter (d : FoldText σ) (i level : Nat) : Nat :=
  ((((level : Int) + balance (d.counted i)).toNat : Int) + d.adjustment i).toNat

/-- The fold levels of `n` lines from the line `i` on, the first of which starts at `level`. -/
def levelsFrom (d : FoldText σ) : Nat → Nat → Nat → List FoldLevel
  | 0, _, _ => []
  | n + 1, i, level =>
    .between level (d.levelAfter i level) (d.store.state i).flags.blank ::
      d.levelsFrom n (i + 1) (d.levelAfter i level)

/-- The fold levels of the lines from `first` on and before `last`, as far as the document goes. -/
def bracketLevels (d : FoldText σ) (first last level : Nat) : List FoldLevel :=
  d.levelsFrom (min last d.lines.size - first) first level

end FoldText

end Highlight
