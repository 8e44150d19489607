import Highlight.Proofs.Fold.Lines
import Highlight.Proofs.Scan.InLine
import Highlight.Proofs.Session.Exact

/-!
What is kept of a line. The state that a scan of a text keeps of a line was summed up at the end of
the line, and by then the bytes of the line had the categories that folding sees
(`Session.exists_summed`). So what the rules of a language keep from place to place tells how the
state of a line and its bytes belong together.
-/

namespace Highlight

open Byte

variable {σ ζ : Type} [Palette σ] [DecidableEq σ] {g : Grammar σ ζ} {r : Regime σ ζ} {text : Text}
  {inv : Cursor σ → ζ → Prop}

namespace Session

/-- A text as folding sees it, with what the session has kept of it. -/
def foldText (s : Session σ) (text : Text) : FoldText σ := .of text s.styles s.store

/-- A text as folding sees it, up to a place and from there on. -/
theorem styled_fresh_of_spent (hk : g.Keeps r) {c : Cursor σ} (hc : c.Stands text text.length)
    (hstart : c.start = 0) {y : List σ} (hy : (Pass.fresh g text).cursor.spent = y ++ c.spent) :
    (fresh g text).styles.styled text =
      (text.take c.pos).zip c.passed ++ (text.drop c.pos).zip y.reverse := by
  have hall : (Pass.fresh g text).cursor.passed = c.passed ++ y.reverse := by
    rw [Cursor.passed_eq, hy, List.reverse_append, Cursor.passed_eq]
  rw [styled_fresh hk, hall, ← List.zip_append (hc.length_take hstart), List.take_append_drop]

/-- The line of a place at the end of a line, as folding sees it. -/
theorem takeWhile_line (hk : g.Keeps r) {c : Cursor σ} (hc : c.Stands text text.length)
    (hstart : c.start = 0) (hend : c.ahead = [] ∨ c.atLineEnd = true)
    {y : List σ} (hy : (Pass.fresh g text).cursor.spent = y ++ c.spent) :
    (((fresh g text).foldText text).line c.line).takeWhile (fun p => p.1 ≠ newline) =
      (c.lineSoFar text).reverse := by
  have hlen := hc.length_take hstart
  have hcount : ((text.take c.pos).zip c.passed).countP (fun p => p.1 = newline) = c.line := by
    rw [FoldText.countP_newline, List.map_fst_zip (Nat.le_of_eq hlen), hc.line]
  have hnewline : ∀ p ∈ ((text.drop c.pos).zip y.reverse).head?, p.1 = newline := by
    have hahead : c.ahead = text.drop c.pos := by rw [hc.ahead, List.take_length]
    rcases hend with hnil | hend
    · simp [← hahead, hnil]
    · obtain ⟨t, ht, -⟩ := Cursor.ahead_of_atLineEnd hend
      rw [← hahead, ht]
      cases y.reverse <;> simp
  have hreverse : ((text.take c.pos).zip c.passed).reverse =
      (text.take c.pos).reverse.zip c.spent := by
    have hzip := List.reverse_zipWith (f := Prod.mk) hlen
    rwa [Cursor.passed_eq, List.reverse_reverse] at hzip
  have hline : ((fresh g text).foldText text).line c.line =
      (FoldText.splitLines ((text.take c.pos).zip c.passed ++
        (text.drop c.pos).zip y.reverse)).getD c.line [] := by
    rw [foldText, FoldText.line_of, styled_fresh_of_spent hk hc hstart hy]
  rw [hline, ← hcount, FoldText.takeWhile_getD_splitLines _ hnewline, hreverse]
  rfl

/-- **What is kept of a line.** A line that has any bytes was summed up at a place where `inv`
holds; the scan had passed there just the bytes of the line, in the categories that folding sees. -/
theorem exists_summed (hk : g.Keeps r) (hg : g.StaysInLine)
    (hi : g.Maintains text text.length inv)
    (hfirst : inv (Pass.first g text).cursor (Pass.first g text).data) {i : Nat}
    (hline : i < text.committed) :
    ∃ q : Pass σ ζ, q.Holds text 0 text.length 0 inv ∧
      (fresh g text).store.state i =
        { (g.endLine q.cursor q.data).1 with
          flags := (g.endLine q.cursor q.data).1.flags.known } ∧
      (((fresh g text).foldText text).line i).takeWhile (fun p => p.1 ≠ newline) =
        (q.cursor.lineSoFar text).reverse := by
  have hmem : i ∈ (Pass.fresh g text).ended.map Prod.fst := by
    rw [Pass.fresh_lines hk, List.mem_reverse, List.mem_range]
    exact hline
  obtain ⟨e, he, rfl⟩ := List.mem_map.1 hmem
  obtain ⟨q, hq, rfl, hend, y, hy⟩ := Pass.exists_summed hk hg hi hfirst he
  have hspent : ∃ y, (Pass.fresh g text).cursor.spent = y ++ q.cursor.spent := by
    cases ha : q.cursor.ahead with
    | nil => exact ⟨y, by rw [hy, Cursor.forward_nil ha]⟩
    | cons b t => exact ⟨y ++ [q.cursor.state], by rw [hy, Cursor.spent_forward ha]; simp⟩
  obtain ⟨y, hy⟩ := hspent
  exact ⟨q, hq, state_fresh hk he,
    takeWhile_line hk hq.tells.toStands hq.orderly.start hend hy⟩

end Session

end Highlight
