import Highlight.Proofs.Scan.Regime
import Highlight.Proofs.Scan.Within
import Highlight.Scan.Escape

/-!
Escape sequences are read alike, whatever language they are read for. No byte of one ends a line.
-/

namespace Highlight.Escape

open Byte

variable {σ ζ : Type} [Palette σ] {r : Regime σ ζ} {k k' : List σ} {u u' : Text}
  {c c' : Cursor σ} {z z' : ζ} {keep keep' : Escape σ → ζ}

/-- An escape begins alike. It is kept in the category `s`, from where it returns. -/
theorem enter_twin (h : Cursor.Alike r.toConduct k k' u u' c c') (e : EscapeSyntax) (s : σ)
    (hb : c.byte ≠ newline) (hn : r.named c.state = false) (hs : r.named s = false)
    (hl : r.like c.state z z') (hf : r.fits c.state z)
    (hkeep : ∀ e, e.outer = c.state → r.like s (keep e) (keep' e) ∧ r.fits s (keep e)) :
    Flow.Twin r c c' (enter e s c z keep) (enter e s c' z' keep') := by
  have hnext := h.next_eq hb
  unfold enter
  rw [← hnext, ← h.state]
  by_cases hstop : isLineEnd c.next = true ∨ c.next = 0
  · rw [if_pos hstop, if_pos hstop]
    exact .pass .refl hl hf (.of_byte hb hn)
  · rw [if_neg hstop, if_neg hstop]
    have hmoves : Cursor.InStep r.toConduct c c' (c.switch s).forward (c'.switch s).forward :=
      (Cursor.InStep.refl.switch s).forward hb
    have hnl : (c.switch s).forward.byte ≠ newline := by
      rw [Cursor.byte_forward]
      intro e
      exact hstop (.inl (by rw [show c.next = newline from e]; decide))
    have hreads := (hmoves.alike h).reads_eq (show lowerU ≠ newline by decide) lbrace
    obtain ⟨hl', hf'⟩ := hkeep (start c.state c.next e) rfl
    simp only [← hreads]
    split_ifs with hbrace
    · obtain ⟨hl'', hf''⟩ := hkeep (start c.state c.next e).openBrace rfl
      have hlbrace : (c.switch s).forward.next = lbrace := (Cursor.reads_iff.1 hbrace.2).2
      refine .pass (hmoves.forward hnl) ?_ ?_ (.of_byte ?_ ?_)
      · rwa [Cursor.state_forward, Cursor.state_forward]
      · rwa [Cursor.state_forward, Cursor.state_forward]
      · rw [Cursor.byte_forward, hlbrace]
        decide
      · rwa [Cursor.state_forward, Cursor.state_forward]
    · refine .pass hmoves ?_ ?_ (.of_byte hnl ?_)
      · rwa [Cursor.state_forward]
      · rwa [Cursor.state_forward]
      · rwa [Cursor.state_forward]

/-- An escape ends alike. -/
theorem leave_twin (h : Cursor.Alike r.toConduct k k' u u' c c') (e : Escape σ)
    (hn : r.named c.state = false) (ho : r.crosses e.outer = true)
    (hl : r.like c.state (keep e.count) (keep' e.count)) (hf : r.fits c.state (keep e.count))
    (hl' : r.like e.outer (keep e.count) (keep' e.count)) (hf' : r.fits e.outer (keep e.count)) :
    Flow.Twin r c c' (leave e c keep) (leave e c' keep') := by
  unfold leave
  simp only [← h.byte_eq]
  split_ifs with hended hbrace
  · refine .again ((Cursor.InStep.refl.forward ?_).switch _) hl' hf' ho
    rw [hbrace.2]
    decide
  · exact .again (Cursor.InStep.refl.switch _) hl' hf' ho
  · refine .pass .refl hl hf (.of_byte ?_ hn)
    have hhex : isHexDigit c.byte = true := by
      simp only [ended, Bool.or_eq_true, Bool.not_eq_true', not_or, Bool.not_eq_false] at hended
      exact hended.2
    exact ne_newline rfl hhex

/-! ### Moves -/

/-- An escape that begins at a byte that ends no line goes over no end of a line. -/
theorem enter_within (e : EscapeSyntax) (s : σ) (hb : c.byte ≠ newline) (z : ζ)
    (keep : Escape σ → ζ) : c.Within (enter e s c z keep).cursor := by
  have hpass : c.Within (c.switch s).forward := (Cursor.Within.refl.switch s).forward hb
  unfold enter
  split
  case isTrue => exact .refl
  case isFalse =>
    simp only
    split
    case isTrue hbrace =>
      exact hpass.forward_of_eq (Cursor.reads_iff.1 hbrace.2).1 (by decide)
    case isFalse => exact hpass

/-- Nor does the end of one. -/
theorem leave_within (e : Escape σ) (c : Cursor σ) (keep : Escape σ → ζ) :
    c.Within (leave e c keep).cursor := by
  unfold leave
  simp only
  split
  case isTrue =>
    refine .switch ?_ _
    split
    case isTrue hbrace => exact Cursor.Within.refl.forward_of_eq hbrace.2 (by decide)
    case isFalse => exact .refl
  case isFalse => exact .refl

end Highlight.Escape
