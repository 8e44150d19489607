import Highlight.Fold.Document
import Highlight.Resume
import Highlight.Scan.Outcome

/-!
An editing session: the line states and the categories of one document, kept up to date by scanning
again what an edit may have changed. The text itself stays with the editor.
-/

namespace Highlight

/-- What is kept of a document between scans. -/
structure Session (σ : Type) where
  store : LineStore := #[]
  styles : Styles σ := #[]

namespace Session

variable {σ ζ : Type} [Palette σ] [DecidableEq σ]

/-- The session after the answer of a scan, whose runs are painted over the categories. A scan that
was refused changes nothing. -/
def accept (s : Session σ) :
    Except ScanError (Outcome σ × LineStore) → Session σ × Except ScanError (Outcome σ)
  | .ok (outcome, store) =>
    ({ store := store, styles := s.styles.paint outcome.runs }, .ok outcome)
  | .error e => (s, .error e)

/-- The session with room for the categories of a text. -/
def fit (s : Session σ) (text : Text) : Session σ :=
  { s with styles := s.styles.resize text.length }

/-- Scans `len` bytes of a text from the line start `start` on, in the state that the categories
kept so far give. -/
def scanRange (g : Grammar σ ζ) (s : Session σ) (text : Text) (start len : Nat) :
    Session σ × Except ScanError (Outcome σ) :=
  let s := s.fit text
  s.accept (scan g text start len (ResumePoint.stateAt s.styles start) s.store s.styles)

/-- Scans the whole of a text, with no line state kept. -/
def highlight (g : Grammar σ ζ) (s : Session σ) (text : Text) :
    Session σ × Except ScanError (Outcome σ) :=
  scanRange g { s with store := #[] } text 0 text.length

/-- Scans a text again from a line on to its end, after an edit on that line. It starts at an
earlier line if the scan cannot start at that one, and drops the states of lines that are gone. -/
def restyle (g : Grammar σ ζ) (s : Session σ) (text : Text) (line : Nat) :
    Session σ × Except ScanError (Outcome σ) :=
  let s := s.fit text
  let lines := LineTable.ofText text
  let point := ResumePoint.find lines s.store s.styles line
  let answer := scan g text point.offset (text.length - point.offset) point.state s.store s.styles
  s.accept (answer.map fun p => (p.1, p.2.take lines.count))

/-- The fold levels of a text, by what the session has kept of it. -/
def foldLevels (g : Grammar σ ζ) (s : Session σ) (text : Text) : List FoldLevel :=
  Highlight.foldLevels g.folding text s.styles s.store

end Session

end Highlight
