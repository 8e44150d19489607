import Highlight.Proofs.Scan.Kin
import Highlight.Word.Class

/-!
Names are judged alike at alike places, and no byte of one is white space.
-/

namespace Highlight

open Byte

namespace Byte

variable {b : Byte}

theorem eq_of_isSpace (h : isSpace b = true) :
    b = space ∨ b = tab ∨ b = carriageReturn ∨ b = newline ∨ b = verticalTab ∨ b = formFeed := by
  simpa [isSpace, isBlank, isLineEnd, or_assoc] using h

/-- A byte of a kind to which no white space belongs and no zero is visible. -/
theorem visible_of {p : Byte → Prop} (h₀ : ¬ p 0)
    (hp : ∀ a, a = space ∨ a = tab ∨ a = carriageReturn ∨ a = newline ∨ a = verticalTab ∨
      a = formFeed → ¬ p a) (hb : p b) : b ≠ 0 ∧ isSpace b = false := by
  refine ⟨fun h => h₀ (h ▸ hb), ?_⟩
  cases hs : isSpace b with
  | false => rfl
  | true => exact absurd hb (hp b (eq_of_isSpace hs))

theorem visible_of_isNameByte (h : isNameByte b = true) : b ≠ 0 ∧ isSpace b = false := by
  refine visible_of (p := fun b => isNameByte b = true) (by decide) ?_ h
  rintro a (rfl | rfl | rfl | rfl | rfl | rfl) <;> decide

theorem visible_of_class (h : ByteClass.of b = .nameStart) : b ≠ 0 ∧ isSpace b = false := by
  refine visible_of (p := fun b => ByteClass.of b = .nameStart) (by decide) ?_ h
  rintro a (rfl | rfl | rfl | rfl | rfl | rfl) <;> decide

theorem visible_of_punctuation (h : ByteClass.of b = .punctuation) : b ≠ 0 ∧ isSpace b = false := by
  refine visible_of (p := fun b => ByteClass.of b = .punctuation) (by decide) ?_ h
  rintro a (rfl | rfl | rfl | rfl | rfl | rfl) <;> decide

theorem ne_newline_of_continuesNumber {before next : Byte}
    (h : continuesNumber before b next = true) : b ≠ newline := by
  rintro rfl
  simp [continuesNumber, isNameByte, isNameStart, isAlpha, isLower, isUpper, isDigit] at h

end Byte

/-- A name that ends at alike places is the same name among the same neighbours. -/
theorem Occurrence.endingAt_eq {σ : Type} {q : Conduct σ} {k k' : List σ} {u u' : Text}
    {c c' : Cursor σ} (h : Cursor.Alike q k k' u u' c c') (hs : q.stable c.state = false)
    (before : Byte) : endingAt c before = endingAt c' before := by
  unfold endingAt
  rw [h.currentWord hs, h.byte_eq, h.nextVisible_eq]

end Highlight
