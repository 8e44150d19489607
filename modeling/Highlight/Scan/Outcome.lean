import Highlight.Scan.Pass
import Highlight.Styles

/-!
Scanning a part of a text. The part must lie within the text and begin at the beginning of a line;
what stood before it is taken from the categories and the line states of earlier scans.
-/

namespace Highlight

/-- Why a scan is refused. -/
inductive ScanError where
  /-- The part does not lie within the text. -/
  | outOfBounds (start len size : Nat)
  /-- The part does not begin at the beginning of a line. -/
  | notLineStart (offset : Nat)
  deriving DecidableEq, Repr

namespace ScanError

/-- The wording of an error. -/
def message : ScanError → String
  | outOfBounds start len size =>
    "scan range " ++ toString start ++ "+" ++ toString len ++ " exceeds buffer length " ++
      toString size
  | notLineStart offset =>
    "scan start " ++ toString offset ++ " is not at the beginning of a line"

end ScanError

/-- What a scan found. -/
structure Outcome (σ : Type) where
  runs : List (Run σ)
  /-- The state at the end of the part. -/
  endState : σ
  /-- The first line of the part. -/
  firstLine : Nat
  /-- The line after the last one that was ended. -/
  nextLine : Nat
  nesting : Nesting
  deriving DecidableEq, Repr

namespace LineStore

/-- The store with the states of lines written in the order in which the lines were ended; the list
has the last one first. -/
def recordAll (s : LineStore) (ended : List (Nat × LineState)) : LineStore :=
  ended.foldr (fun p s => s.record p.1 p.2.encode) s

end LineStore

variable {σ ζ : Type} [Palette σ] [DecidableEq σ]

/-- The cursor with which a scan of a part of a text begins. -/
def Cursor.ofPart (text : Text) (start len : Nat) (initial : σ) (styles : Styles σ) : Cursor σ :=
  let before := text.take start
  { Cursor.ofRange text start (start + len) (before.count Byte.newline) initial with
    trail := Trail.ofStyled (styles.styled before) }

/-- The pass over a part of a text. -/
def Pass.ofPart (g : Grammar σ ζ) (text : Text) (start len : Nat) (initial : σ)
    (store : LineStore) (styles : Styles σ) : Pass σ ζ :=
  let c := Cursor.ofPart text start len initial styles
  Pass.whole g c (store.stateBefore c.line)
    (start + len == text.length && decide (0 < len) && text.getLast? != some Byte.newline)

/-- What a pass over a part that begins on the line `first` found. -/
def Pass.outcome (g : Grammar σ ζ) (p : Pass σ ζ) (first : Nat) : Outcome σ where
  runs := p.cursor.runs
  endState := p.cursor.state
  firstLine := first
  nextLine := match p.ended with
    | [] => first
    | (line, _) :: _ => line + 1
  nesting := g.nesting p.data

/-- Scans `len` bytes of a text from the offset `start` on, beginning in the state `initial`. The
result has the states of the lines that were ended written into the store. -/
def scan (g : Grammar σ ζ) (text : Text) (start len : Nat) (initial : σ) (store : LineStore)
    (styles : Styles σ) : Except ScanError (Outcome σ × LineStore) :=
  if text.length < start + len then
    .error (.outOfBounds start len text.length)
  else if ((text.take start).getLast?.getD Byte.newline) ≠ Byte.newline then
    .error (.notLineStart start)
  else
    let p := Pass.ofPart g text start len initial store styles
    .ok (p.outcome g ((text.take start).count Byte.newline), store.recordAll p.ended)

end Highlight
