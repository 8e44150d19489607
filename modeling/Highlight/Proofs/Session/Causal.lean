import Highlight.Proofs.Language.Scala
import Highlight.Proofs.Language.Toml
import Highlight.Proofs.Language.Toy
import Highlight.Proofs.Language.Zig
import Highlight.Proofs.Scan.Part
import Highlight.Proofs.Session.Exact

/-!
Lines and what stands behind them. What a scan leaves of the first lines of a text depends on
nothing behind these lines, and a scan of these lines alone leaves the same of them
(`Session.CausalByLine`).
-/

namespace Highlight

open Byte

variable {σ ζ : Type} [Palette σ] [DecidableEq σ]
variable {g : Grammar σ ζ} {r : Regime σ ζ} {a : Text}

namespace Session

/-- Whatever sessions scan two texts that have the lines `a` in common, and whatever stands behind
these lines, both have the same of them afterwards as a new session that scans no more than these
lines: a category for every byte, and a word for every line. -/
def CausalByLine (g : Grammar σ ζ) : Prop :=
  ∀ {a : Text}, a.getLast? = some newline → ∀ (u u' : Text) (s s' : Session σ),
    let whole := s.highlight g (a ++ u)
    let whole' := s'.highlight g (a ++ u')
    let part := scanRange g {} (a ++ u) 0 a.length
    (whole.2.isOk ∧ whole'.2.isOk ∧ part.2.isOk) ∧
    (∀ i < a.length, ∃ c, whole.1.styles[i]? = some c ∧ whole'.1.styles[i]? = some c ∧
      part.1.styles[i]? = some c) ∧
    ∀ n < a.count newline, ∃ w, whole.1.store[n]? = some w ∧ whole'.1.store[n]? = some w ∧
      part.1.store[n]? = some w

/-- A scan of the first lines of a text succeeds. -/
theorem isOk_scanRange_lines (g : Grammar σ ζ) (s : Session σ) (a u : Text) :
    (s.scanRange g (a ++ u) 0 a.length).2.isOk = true := by
  have hle : 0 + a.length ≤ (a ++ u).length := by simp
  have hscan := scan_of_start? g (LineTable.start?_zero (a ++ u)) hle
    (ResumePoint.stateAt (s.styles.resize (a ++ u).length) 0) s.store
    (s.styles.resize (a ++ u).length)
  simp only [scanRange, fit, hscan]
  rfl

theorem causalByLine_of_keeps (hg : g.Keeps r) : CausalByLine g := by
  intro a ha u u' s s' whole whole' part
  have hwhole : ∀ (s : Session σ) (u : Text), (s.highlight g (a ++ u)).1 = fresh g (a ++ u) :=
    fun s u => fst_highlight hg s (a ++ u)
  have hok : ∀ (s : Session σ) (u : Text), (s.highlight g (a ++ u)).2.isOk = true := by
    intro s u
    rw [highlight_eq hg]
    rfl
  obtain ⟨hstyles, hwords⟩ := fresh_before hg ha u u'
  -- a new session that has scanned the lines knows them
  have hknows : part.1.Knows g (a ++ u) (a.count newline) :=
    knows_scanRange hg {} (LineTable.start?_of_split ha)
  refine ⟨⟨hok s u, hok s' u', isOk_scanRange_lines g {} a u⟩, fun i hi => ?_, fun n hn => ?_⟩
  · have hlt : i < (fresh g (a ++ u)).styles.size := by
      rw [fresh_eq hg, List.size_toArray, Pass.fresh_length hg, List.length_append]
      omega
    have hsome := Array.getElem?_eq_getElem hlt
    refine ⟨_, ?_, ?_, (hknows.styles _ (LineTable.start?_of_split ha) i hi).trans hsome⟩
    · rw [hwhole, hsome]
    · rw [hwhole, ← hstyles i hi, hsome]
  · have hlt : n < (fresh g (a ++ u)).store.size := by
      have := Text.count_le_committed (a ++ u)
      rw [List.count_append] at this
      rw [size_store_fresh hg]
      omega
    have hsome := Array.getElem?_eq_getElem hlt
    refine ⟨_, ?_, ?_, (hknows.words n hn).trans hsome⟩
    · rw [hwhole, hsome]
    · rw [hwhole, ← hwords n hn, hsome]

end Session

open Session

/-- **Nothing behind a line changes how it is styled**, in every language. -/
theorem causal_by_line (zig : Zig.Config) (words : WordSets) (scala : Scala.Config) :
    CausalByLine Toy.grammar ∧ CausalByLine (Zig.grammar zig) ∧
      CausalByLine (Toml.grammar words) ∧ CausalByLine (Scala.grammar scala) :=
  ⟨causalByLine_of_keeps Toy.keeps, causalByLine_of_keeps (Zig.keeps zig),
    causalByLine_of_keeps (Toml.keeps words), causalByLine_of_keeps (Scala.keeps scala)⟩

/-- A line within a comment looks the same whether or not the comment is closed behind it. -/
theorem causal_by_line_open_comment :
    let g := Scala.grammar { words := {} }
    let a : Text := [plus, slash, star, newline]
    let closed : Text := a ++ [star, slash]
    let edited : Text := a ++ [plus]
    a.getLast? = some newline ∧
      (highlight g {} closed).1.styles[3]? = some .blockComment ∧
      (highlight g {} edited).1.styles[3]? = some .blockComment ∧
      (scanRange g {} closed 0 a.length).1.styles[3]? = some .blockComment := by
  intro g a closed edited
  have ha : a.getLast? = some newline := by decide
  obtain ⟨-, -, -, hscala⟩ := causal_by_line { words := {} } {} { words := {} }
  obtain ⟨-, hstyles, -⟩ := hscala ha [star, slash] [plus] {} {}
  obtain ⟨c, hc, hc', hc''⟩ := hstyles 3 (by decide)
  have hstyle : (highlight g {} closed).1.styles[3]? = some .blockComment := by decide +kernel
  obtain rfl : c = .blockComment := Option.some.inj (hc.symm.trans hstyle)
  exact ⟨ha, hstyle, hc', hc''⟩

end Highlight
