import Highlight.Proofs.Scan.InLine

/-!
The line ahead. Of the line that a place is on, some bytes are still to come (`Cursor.restOfLine`),
and of those that are passed the visible ones are counted. Moves within the line never lower the
count, and where it is still zero no visible byte was passed (`Cursor.Within.ahead_eq`).
-/

namespace Highlight.Cursor

open Byte

variable {σ : Type} {c d : Cursor σ} {b : Byte}

/-! ### The byte at hand -/

/-- A byte that is not zero is there. -/
theorem ahead_ne_nil_of_byte (hb : c.byte = b) (hne : b ≠ 0) : c.ahead ≠ [] := by
  intro hnil
  exact hne (hb.symm.trans (byte_nil hnil))

theorem ahead_ne_nil_of_space (hb : isSpace c.byte = true) : c.ahead ≠ [] := by
  refine ahead_ne_nil_of_byte rfl fun hzero => ?_
  rw [hzero] at hb
  exact absurd hb (by decide)

theorem byte_ne_newline (hb : isSpace c.byte = false) : c.byte ≠ newline := by
  intro hnewline
  rw [hnewline] at hb
  exact absurd hb (by decide)

/-! ### The rest of the line -/

/-- The bytes from a place to the end of its line. -/
def restOfLine (c : Cursor σ) : Text := c.ahead.takeWhile fun b => b ≠ newline

theorem restOfLine_nil (h : c.ahead = [] ∨ c.atLineEnd = true) : c.restOfLine = [] := by
  unfold restOfLine
  rcases h with h | h
  · rw [h]
    rfl
  · obtain ⟨t, ha, -⟩ := ahead_of_atLineEnd h
    rw [ha]
    rfl

section Palette

variable [Palette σ]

/-- A byte at hand that ends no line is the first one of the rest. -/
theorem restOfLine_cons (ha : c.ahead ≠ []) (hb : c.byte ≠ newline) :
    c.restOfLine = c.byte :: c.forward.restOfLine := by
  obtain ⟨b, t, h⟩ := List.exists_cons_of_ne_nil ha
  have hbyte := byte_cons h
  have hahead := ahead_forward_cons h
  unfold restOfLine
  rw [hahead, h, hbyte, List.takeWhile_cons_of_pos (by simpa [hbyte] using hb)]

/-- A byte at hand that is known. -/
theorem restOfLine_of_byte (hb : c.byte = b) (hzero : b ≠ 0) (hnewline : b ≠ newline) :
    c.restOfLine = b :: c.forward.restOfLine := by
  rw [restOfLine_cons (ahead_ne_nil_of_byte hb hzero) (hb ▸ hnewline), hb]

theorem restOfLine_forward (hb : c.byte ≠ newline) :
    c.forward.restOfLine = c.restOfLine.tail := by
  by_cases ha : c.ahead = []
  · rw [forward_nil ha, restOfLine_nil (.inl ha)]
    rfl
  · rw [restOfLine_cons ha hb, List.tail_cons]

/-! ### The visible bytes of the line -/

theorem visible_forward (ha : c.ahead ≠ []) :
    c.forward.visible = if isSpace c.byte then c.visible else c.visible + 1 := by
  obtain ⟨b, t, h⟩ := List.exists_cons_of_ne_nil ha
  rw [Cursor.visible, forward_cons h, Trail.visible_pass, byte_cons h]
  rfl

theorem Within.visible_le (h : c.Within d) : c.visible ≤ d.visible := by
  induction h with
  | refl => exact Nat.le_refl _
  | @forward d _ _ ih =>
    by_cases ha : d.ahead = []
    · rwa [forward_nil ha]
    · rw [visible_forward ha]
      split <;> omega
  | switch _ _ ih | recolor _ _ ih | remember _ _ ih => exact ih

/-- Moves that pass nothing visible pass nothing at all, if the byte at hand is visible. -/
theorem Within.ahead_eq (h : c.Within d) (hb : isSpace c.byte = false) (hd : d.visible = 0) :
    d.ahead = c.ahead := by
  induction h with
  | refl => rfl
  | @forward d _ _ ih =>
    by_cases ha : d.ahead = []
    · rw [forward_nil ha] at hd ⊢
      exact ih hd
    · rw [visible_forward ha] at hd
      split at hd
      case isTrue hspace =>
        have hbyte : d.byte = c.byte := by
          rw [byte, peek, ih hd]
          rfl
        rw [hbyte, hb] at hspace
        cases hspace
      case isFalse => cases hd
  | switch _ _ ih | recolor _ _ ih | remember _ _ ih => exact ih hd

/-- Once a visible byte of the line is passed or at hand, moves do not change that. -/
theorem Within.not_blank (h : c.Within d) (hc : ¬(c.visible = 0 ∧ isSpace c.byte = true)) :
    ¬(d.visible = 0 ∧ isSpace d.byte = true) := by
  rintro ⟨hzero, hb⟩
  have hstill : c.visible = 0 := Nat.eq_zero_of_le_zero (hzero ▸ h.visible_le)
  have hbyte : isSpace c.byte = false := by simpa [hstill] using hc
  have hsame : d.byte = c.byte := by
    rw [byte, peek, h.ahead_eq hbyte hzero]
    rfl
  rw [hsame, hbyte] at hb
  cases hb

end Palette

end Highlight.Cursor
