import Highlight.Proofs.Language.ScalaMoves
import Highlight.Proofs.Language.TomlMoves
import Highlight.Proofs.Language.Toy
import Highlight.Proofs.Language.ZigMoves
import Highlight.Proofs.Scan.Part
import Highlight.Proofs.Session.Restyle

/-!
What a session was used for before. When a text is scanned as a whole, the categories of the text
before it still stand in the array, cut or extended to the new length, and the scan is given that
array. It makes no use of it, since there is nothing before the text to look back at, and its runs
paint over every place. So a session that has scanned anything, or was refused anything, answers as
a new one does and is left as a new one is (`Session.forgets_the_past`).
-/

namespace Highlight

variable {σ ζ : Type} [Palette σ] [DecidableEq σ] {g : Grammar σ ζ}

namespace Session

/-- The runs of a whole text leave nothing of what stood in the array. -/
theorem paint_runs_fresh (hg : g.StaysInLine) (text : Text) {a : Styles σ}
    (ha : a.size = text.length) :
    a.paint (Pass.fresh g text).cursor.runs = (Pass.fresh g text).cursor.passed.toArray := by
  obtain ⟨hbegins, hpassed, -, -⟩ :=
    Pass.ofPart_completes hg (Nat.zero_add text.length).le Palette.plain #[] #[]
  change (Pass.fresh g text).cursor.start = 0 at hbegins
  change (Pass.fresh g text).cursor.passed.length = text.length at hpassed
  rw [Cursor.runs, hbegins, Styles.paint_encode (by rw [hpassed, ha, Nat.zero_add])]
  simp

/-- A scan of a whole text, by what a scan that begins with nothing finds. -/
theorem highlight_of_staysInLine (hg : g.StaysInLine) (s : Session σ) (text : Text) :
    s.highlight g text =
      ({ store := Pass.freshStore g text, styles := (Pass.fresh g text).cursor.passed.toArray },
        .ok ((Pass.fresh g text).outcome g 0)) := by
  have hscan := scan_of_start? g (LineTable.start?_zero text) (Nat.zero_add text.length).le
    Palette.plain #[] (s.styles.resize text.length)
  rw [Pass.ofPart_fresh] at hscan
  have hpaint := paint_runs_fresh hg text (Styles.size_resize s.styles text.length)
  simp only [highlight, scanRange, fit, ResumePoint.stateAt, hscan, accept]
  rw [← hpaint]
  rfl

/-- The session answers a scan of the whole text as a new session does, and is left with the same
categories, line states and fold levels. -/
structure LikeNew (g : Grammar σ ζ) (s : Session σ) (text : Text) : Prop where
  outcome : ∃ found, (s.highlight g text).2 = .ok found ∧ (highlight g {} text).2 = .ok found
  styles : (s.highlight g text).1.styles = (highlight g {} text).1.styles
  store : (s.highlight g text).1.store = (highlight g {} text).1.store
  foldLevels : (s.highlight g text).1.foldLevels g text =
    (highlight g {} text).1.foldLevels g text

/-- Nothing that a session may hold has an influence on how it scans a whole text. -/
def ForgetsThePast (g : Grammar σ ζ) : Prop := ∀ (s : Session σ) (text : Text), s.LikeNew g text

theorem forgetsThePast_of_staysInLine (hg : g.StaysInLine) : ForgetsThePast g := by
  intro s text
  have hs := highlight_of_staysInLine hg s text
  have hnew := highlight_of_staysInLine hg {} text
  have hsame : s.highlight g text = highlight g {} text := hs.trans hnew.symm
  exact ⟨⟨_, congrArg Prod.snd hs, congrArg Prod.snd hnew⟩, congrArg (·.1.styles) hsame,
    congrArg (·.1.store) hsame, congrArg (·.1.foldLevels g text) hsame⟩

/-- **A scan of a whole text forgets the past.** Whatever was scanned before with a session, in
whatever order and whether it was refused or not, and in fact whatever the session holds, the scan
of a whole text succeeds with the same outcome, and leaves the same categories, line states and fold
levels, as in a new session, in every language. -/
theorem forgets_the_past (zig : Zig.Config) (words : WordSets) (scala : Scala.Config) :
    ForgetsThePast Toy.grammar ∧ ForgetsThePast (Zig.grammar zig) ∧
      ForgetsThePast (Toml.grammar words) ∧ ForgetsThePast (Scala.grammar scala) ∧
      ForgetsThePast Stuck.grammar :=
  ⟨forgetsThePast_of_staysInLine Toy.staysInLine,
    forgetsThePast_of_staysInLine (Zig.staysInLine zig),
    forgetsThePast_of_staysInLine (Toml.staysInLine words),
    forgetsThePast_of_staysInLine (Scala.staysInLine scala),
    forgetsThePast_of_staysInLine Stuck.staysInLine⟩

end Session

end Highlight
