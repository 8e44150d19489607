import Highlight.Proofs.Language.ScalaEnds
import Highlight.Proofs.Language.TomlEnds
import Highlight.Proofs.Language.ToyEnds
import Highlight.Proofs.Language.ZigEnds
import Highlight.Proofs.Scan.Ending
import Highlight.Proofs.Session.Causal

/-!
The last line. It may end with a newline or with the text, and it is the same to a scan: a newline
that is added to it gets a category of its own, and changes nothing else that is found
(`Session.ClosedByEnd`).
-/

namespace Highlight

open Byte

variable {σ ζ : Type} [Palette σ] [DecidableEq σ]
variable {g : Grammar σ ζ} {calm : σ → Trail σ → ζ → Prop} {rank : σ → Nat} {holds : ζ → Prop}
  {r : Regime σ ζ} {t : Text}

namespace Pass

/-- A scan of a text is where it comes to its end, and is finished there. -/
theorem fresh_eq_finish (hm : g.StaysInLine) {n : Nat}
    (h : ((first g t).run g n).cursor.ahead = []) :
    fresh g t = ((first g t).run g n).finish g t.unended := by
  have hend := hm.goesOn.ahead_run (p := first g t) (Nat.zero_le _)
  rw [fresh_eq, run_eq_of_ahead_nil hend h]

/-- **A newline at the end adds itself and nothing else.** -/
theorem fresh_append_newline (hg : g.EndsAlike calm) (hs : g.Settles rank holds)
    (hm : g.StaysInLine) (hne : t ≠ []) (hlast : t.getLast? ≠ some newline) :
    (fresh g (t ++ [newline])).ended = (fresh g t).ended ∧
      (fresh g (t ++ [newline])).cursor.state = (fresh g t).cursor.state ∧
      (fresh g (t ++ [newline])).cursor.passed =
        (fresh g t).cursor.passed ++ [(fresh g t).cursor.state] := by
  have hnewline : Text.AtEnd [newline] := by
    intro b hb
    obtain rfl := Option.some.inj hb
    rfl
  obtain ⟨q, hq, -, hrest⟩ := exists_rest_first hg hs hm t hnewline (by simp)
  -- with the newline, the line ends where it is passed
  have hclosed : (first g (t ++ [newline])).RestsAs g q := onto_eq hq ▸ hrest _ hnewline
  obtain ⟨n, hn⟩ := hclosed.advance (by simp [hq])
  have hend : (q.advance g).cursor.ahead = [] := by rw [ahead_advance, hq, List.tail_cons]
  have hwith : fresh g (t ++ [newline]) = q.advance g := by
    rw [fresh_eq_finish hm (by rw [hn, hend]), hn, Text.unended_of_newline (by simp)]
    rfl
  -- without it, the line ends where the last run is left
  have hopen : (first g t).RestsAs g (q.onto []) := by simpa using hrest [] nofun
  have hlets : (first g t).LetsGo g := letsGo_of_settles hs hm (hs.begin _ _) rfl
  obtain ⟨l, hl, p, hp, hcursor, hdata, hended⟩ := hopen.leaveLast rfl hlets
  have hunended : t.unended = true := by simp [Text.unended, hne, hlast]
  have hwithout : fresh g t = p.endLine g := by
    rw [fresh_eq_finish hm hl, hunended, finish, if_pos rfl, hp]
  have hover : q.cursor.atLineEnd = true := by simp [Cursor.atLineEnd, hq]
  obtain ⟨hcursor', -, -, hended'⟩ := advance_over g hover
  have hsum : g.endLine p.cursor p.data = g.endLine q.cursor q.data := by
    rw [hcursor, hdata]
    exact hg.endLine _ rfl rfl
  rw [hwith, hwithout, hended', hcursor', Cursor.state_forward]
  refine ⟨?_, ?_, ?_⟩
  · rw [Pass.endLine, hsum, hcursor, hended]
    rfl
  · rw [Pass.endLine, hcursor]
    rfl
  · have hspent := Cursor.spent_forward (c := q.cursor.newLine) hq
    rw [Cursor.passed_eq, hspent, Cursor.passed_eq, Pass.endLine, hcursor, List.reverse_cons]
    rfl

end Pass

open Pass

namespace Session

/-- A text whose last line has no newline is scanned as with one, in whatever sessions: the scans
succeed in the same state, leave the same words of the lines, and the newline that was added is the
only byte that one of them has a category for and the other has not. -/
def ClosedByEnd (g : Grammar σ ζ) : Prop :=
  ∀ {t : Text}, t ≠ [] → t.getLast? ≠ some newline → ∀ s s' : Session σ,
    let opened := s.highlight g t
    let closed := s'.highlight g (t ++ [newline])
    ∃ found found', opened.2 = .ok found ∧ closed.2 = .ok found' ∧
      found'.endState = found.endState ∧ closed.1.store = opened.1.store ∧
      opened.1.styles.size = t.length ∧
      closed.1.styles = opened.1.styles.push found.endState

theorem closedByEnd_of_keeps (hg : g.Keeps r) (he : g.EndsAlike calm) (hs : g.Settles rank holds)
    (hm : g.StaysInLine) : ClosedByEnd g := by
  intro t hne hlast s s' opened closed
  obtain ⟨hended, hstate, hpassed⟩ := fresh_append_newline he hs hm hne hlast
  refine ⟨(Pass.fresh g t).outcome g 0, (Pass.fresh g (t ++ [newline])).outcome g 0, ?_, ?_,
    hstate, ?_, ?_, ?_⟩
  all_goals simp only [opened, closed, highlight_eq hg]
  · rw [freshStore, freshStore, hended]
  · rw [List.size_toArray, fresh_length hg]
  · rw [hpassed, List.push_toArray]
    rfl

end Session

/-- **The end of a text is the end of its last line.** Scanned with or without a newline at the end,
every byte of the text gets the same category and every line the same word, and the scan ends in the
same state. -/
theorem closed_by_end (zig : Zig.Config) (words : WordSets) (scala : Scala.Config) :
    Session.ClosedByEnd Toy.grammar ∧ Session.ClosedByEnd (Zig.grammar zig) ∧
      Session.ClosedByEnd (Toml.grammar words) ∧ Session.ClosedByEnd (Scala.grammar scala) :=
  ⟨Session.closedByEnd_of_keeps Toy.keeps Toy.endsAlike Toy.settles Toy.staysInLine,
    Session.closedByEnd_of_keeps (Zig.keeps zig) (Zig.endsAlike zig) (Zig.settles zig)
      (Zig.staysInLine zig),
    Session.closedByEnd_of_keeps (Toml.keeps words) (Toml.endsAlike words) (Toml.settles words)
      (Toml.staysInLine words),
    Session.closedByEnd_of_keeps (Scala.keeps scala) (Scala.endsAlike scala) (Scala.settles scala)
      (Scala.staysInLine scala)⟩

/-- An escape that the end of the text cuts off in the middle. -/
theorem closed_by_end_in_escape :
    let g := Zig.grammar { words := {} }
    let t : Text := [quote, backslash, lowerX]
    t ≠ [] ∧ t.getLast? ≠ some newline ∧
      (Session.highlight g {} t).1.styles = #[.string, .escape, .escape] ∧
      (Session.highlight g {} (t ++ [newline])).1.styles = #[.string, .escape, .escape, .string] ∧
      (Session.highlight g {} (t ++ [newline])).1.store =
        (Session.highlight g {} t).1.store := by
  intro g t
  have hne : t ≠ [] := by decide
  have hlast : t.getLast? ≠ some newline := by decide
  have hstyles : (Session.highlight g {} t).1.styles = #[.string, .escape, .escape] := by
    decide +kernel
  have hstate : ∀ found, (Session.highlight g {} t).2 = .ok found → found.endState = .string := by
    have h : ((Session.highlight g {} t).2.toOption.map (·.endState)) = some .string := by
      decide +kernel
    intro found hfound
    rw [hfound] at h
    exact Option.some.inj h
  obtain ⟨-, hzig, -⟩ := closed_by_end { words := {} } {} { words := {} }
  obtain ⟨found, -, hfound, -, -, hstore, -, hclosed⟩ := hzig hne hlast {} {}
  refine ⟨hne, hlast, hstyles, ?_, hstore⟩
  rw [hclosed, hstyles, hstate found hfound]
  rfl

end Highlight
