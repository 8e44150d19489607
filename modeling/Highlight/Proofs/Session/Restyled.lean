import Highlight.Proofs.Language.Scala
import Highlight.Proofs.Language.Toml
import Highlight.Proofs.Session.Exact

/-!
Scala and TOML scanned again. A session that knows the lines before a line has the whole text
exact when it has scanned it again from there on. It knows these lines after a scan of them, and it
knows them if it holds an earlier text that has them too. What Scala keeps of a line counts only so
many open comments, so there the text must not have more of them open at the end of any line.
-/

namespace Highlight

open Byte

namespace Scala

/-- No line of the text ends inside more block comments than are counted in what is kept of it. -/
def CommentsFit (config : Config) (text : Text) : Prop :=
  ∀ n, let q := (Pass.first (grammar config) text).run (grammar config) n
    q.rescans = 0 → q.cursor.prev = some newline → q.data.commentDepth ≤ LineState.maxDepth

variable {config : Config} {text : Text} {n o k : Nat}

/-- When the scan is at the end, nothing is open any more that was not counted by then. -/
theorem CommentsFit.of_run
    (hend : ((Pass.first (grammar config) text).run (grammar config) k).cursor.ahead = [])
    (h : ∀ n < k + 1, let q := (Pass.first (grammar config) text).run (grammar config) n
      q.rescans = 0 → q.cursor.prev = some newline → q.data.commentDepth ≤ LineState.maxDepth) :
    CommentsFit config text := by
  intro n
  by_cases hn : n < k + 1
  · exact h n hn
  · rw [Pass.run_of_le _ hend (by omega)]
    exact h k (Nat.lt_succ_self k)

theorem CommentsFit.kept (h : CommentsFit config text) {q : Pass Category Memory}
    (hq : Pass.ComesBy (grammar config) (regime config) text q) : (regime config).kept q.data := by
  obtain ⟨n, -, rfl⟩ := hq.reached
  exact h n hq.idle hq.prev

/-- **Scala is scanned again exactly.** -/
theorem restyle_exact_of_commentsFit (config : Config) {text : Text} {n o : Nat}
    (ho : (LineTable.ofText text).start? n = some o) :
    (∀ s : Session Category, s.Knows (grammar config) text n → CommentsFit config text →
      s.Restyles (grammar config) text n) ∧
    (∀ s : Session Category,
      (s.scanRange (grammar config) text 0 o).1.Knows (grammar config) text n) ∧
    (∀ (s : Session Category) (old : Text), s.Holds (grammar config) old →
      old.take o = text.take o → s.Knows (grammar config) text n) ∧
    ∀ (s : Session Category) (old : Text),
      (s.highlight (grammar config) old).1.Holds (grammar config) old := by
  have hg := keeps config
  refine ⟨fun s hs hfit => ?_, fun s => Session.knows_scanRange hg s ho,
    fun s old h => h.knows hg ho, Session.holds_highlight hg⟩
  have hn : n < (LineTable.ofText text).count := (Array.getElem?_eq_some_iff.1 ho).1
  exact Session.restyles_of_keeps hg hn hs fun q hq => hfit.kept hq

/-- The line after one that ends inside a comment. -/
theorem restyle_exact_in_comment :
    let text : Text := [slash, star, newline, star, slash, plus]
    let old : Text := [slash, star, newline, plus]
    let s : Session Category := (Session.highlight (grammar { words := {} }) {} old).1
    (LineTable.ofText text).start? 1 = some 3 ∧ CommentsFit { words := {} } text ∧
      s.Restyles (grammar { words := {} }) text 1 := by
  intro text old s
  have ho : (LineTable.ofText text).start? 1 = some 3 := by decide
  have hfit : CommentsFit { words := {} } text :=
    .of_run (k := 12) (by decide +kernel) (by decide +kernel)
  obtain ⟨hexact, -, hknows, hholds⟩ :=
    restyle_exact_of_commentsFit { words := {} } ho
  exact ⟨ho, hfit, hexact s (hknows s old (hholds {} old) (by decide)) hfit⟩

end Scala

namespace Toml

/-- **TOML is scanned again exactly.** -/
theorem restyle_exact (words : WordSets) {text : Text} {n o : Nat}
    (ho : (LineTable.ofText text).start? n = some o) :
    (∀ s : Session Category, s.Knows (grammar words) text n →
      s.Restyles (grammar words) text n) ∧
    (∀ s : Session Category,
      (s.scanRange (grammar words) text 0 o).1.Knows (grammar words) text n) ∧
    (∀ (s : Session Category) (old : Text), s.Holds (grammar words) old →
      old.take o = text.take o → s.Knows (grammar words) text n) ∧
    ∀ (s : Session Category) (old : Text),
      (s.highlight (grammar words) old).1.Holds (grammar words) old := by
  have hg := keeps words
  refine ⟨fun s hs => ?_, fun s => Session.knows_scanRange hg s ho,
    fun s old h => h.knows hg ho, Session.holds_highlight hg⟩
  have hn : n < (LineTable.ofText text).count := (Array.getElem?_eq_some_iff.1 ho).1
  exact Session.restyles_of_keeps hg hn hs fun _ _ => trivial

/-- A line behind a table head. -/
theorem restyle_exact_behind_head :
    let text : Text := [lbracket, 0x61, rbracket, newline, 0x62, equals, 0x31]
    let old : Text := [lbracket, 0x61, rbracket, newline]
    let s : Session Category := (Session.highlight (grammar words) {} old).1
    (LineTable.ofText text).start? 1 = some 4 ∧ s.Restyles (grammar words) text 1 := by
  intro text old s
  have ho : (LineTable.ofText text).start? 1 = some 4 := by decide
  obtain ⟨hexact, -, hknows, hholds⟩ := restyle_exact words ho
  exact ⟨ho, hexact s (hknows s old (hholds {} old) (by decide))⟩

end Toml

end Highlight
