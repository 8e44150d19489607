import Highlight.Language.Stuck
import Highlight.Proofs.Scan.Regime
import Highlight.Proofs.Scan.ReturnStack
import Highlight.Proofs.Scan.Within

/-!
The toy language keeps to a regime: only plain text and strings go on over the end of a line, and a
line within parentheses is nested. Its rules stay in their line, as do those of the language that
never lets go of a place.
-/

namespace Highlight.Toy

open Byte

/-- How the toy language treats its categories and its data. -/
def regime : Regime Category Memory where
  stable s := s == .plain || s == .string
  ending s := s == .comment
  named _ := false
  reads := True
  tidy := True
  like _ m m' := m.parens.Same m'.parens ∧ m.flags = m'.flags ∧ m.carried = m'.carried
  fits _ m := m.parens.Full ∧ m.parens.cap = max ReturnStack.defaultCap 1
  kept _ := True

section Rules

variable {k k' : List Category} {u u' : Text} {c c' : Cursor Category} {m m' : Memory}

theorem leave_twin (h : Cursor.Alike regime.toConduct k k' u u' c c') (hf : regime.fits c.state m)
    (hl : regime.like c.state m m') : Flow.Twin regime c c' (leave c m) (leave c' m') := by
  unfold leave
  rw [← h.state, ← h.byte_eq, ← h.atLineStart]
  split <;> rename_i hs
  case h_1 => exact .pass .refl hl hf (.of_crosses (by rw [hs]; rfl) rfl)
  case h_2 =>
    by_cases hb : isNameByte c.byte = true
    · rw [if_pos hb, if_pos hb]
      exact .pass .refl hl hf (.of_byte (ne_newline rfl hb) rfl)
    · rw [if_neg hb, if_neg hb]
      exact .pass (.switch .refl _) hl hf (.of_crosses rfl rfl)
  case h_3 =>
    by_cases hb : c.atLineStart = true
    · rw [if_pos hb, if_pos hb]
      exact .pass (.switch .refl _) hl hf (.of_crosses rfl rfl)
    · rw [if_neg hb, if_neg hb]
      exact .pass .refl hl hf (.of_crosses (by rw [hs]; rfl) rfl)
  case h_4 => exact .pass (.switch .refl _) hl hf (.of_crosses rfl rfl)
  case h_5 =>
    by_cases hb : c.byte = quote
    · rw [if_pos hb, if_pos hb]
      exact .again ((Cursor.InStep.refl.forward (by simp [hb])).switch _) hl hf rfl
    · rw [if_neg hb, if_neg hb]
      exact .pass .refl hl hf (.of_crosses (by rw [hs]; rfl) rfl)

theorem enter_twin (h : Cursor.Alike regime.toConduct k k' u u' c c') (hp : c.state = .plain)
    (hf : regime.fits c.state m) (hl : regime.like c.state m m') :
    Flow.Twin regime c c' (enter c m) (enter c' m') := by
  obtain ⟨hparens, hflags, hcarried⟩ := hl
  have hvisible : c.visible = c'.visible := h.visible
  unfold enter
  rw [← h.byte_eq, ← hvisible]
  split_ifs with h₁ h₂ h₃ h₄ h₅ h₆ h₇
  · exact .pass (.switch .refl _) ⟨hparens, hflags, hcarried⟩ hf (.of_byte (ne_newline rfl h₁) rfl)
  · exact .pass (.switch .refl _) ⟨hparens, by rw [hflags], hcarried⟩ hf (.of_crosses rfl rfl)
  · exact .pass (.switch .refl _) ⟨hparens, hflags, hcarried⟩ hf (.of_crosses rfl rfl)
  · exact .pass (.switch .refl _) ⟨hparens, hflags, hcarried⟩ hf (.of_crosses rfl rfl)
  · exact .pass (.switch .refl _) ⟨hparens.push _, hflags, hcarried⟩ ⟨hf.1.push _, hf.2⟩
      (.of_byte (ne_newline rfl h₅) rfl)
  · exact .pass (.switch .refl _) ⟨hparens.drop, hflags, hcarried⟩
      ⟨hf.1.drop, (ReturnStack.cap_drop _).trans hf.2⟩ (.of_byte (ne_newline rfl h₅) rfl)
  · exact .pass (.switch .refl _) ⟨hparens, hflags, hcarried⟩ hf (.of_byte (ne_newline rfl h₅) rfl)
  · exact .pass .refl ⟨hparens, hflags, hcarried⟩ hf (.of_crosses (by rw [hp]; rfl) rfl)

theorem endLine_alike (h : Cursor.Kin regime.toConduct k k' c c') (hf : regime.fits c.state m)
    (hl : regime.like c.state m m') :
    (endLine c m).1 = (endLine c' m').1 ∧
      regime.like c.state (endLine c m).2 (endLine c' m').2 ∧
      regime.fits c.state (endLine c m).2 := by
  obtain ⟨hparens, hflags, hcarried⟩ := hl
  have hvisible : c.visible = c'.visible := h.visible
  refine ⟨?_, ⟨hparens, rfl, by simp [endLine, h.state]⟩, hf⟩
  simp only [endLine, hvisible, h.state, hparens.isEmpty_eq, hflags, hcarried, h.indent]

/-- A line that is not nested ends outside all parentheses. -/
theorem isEmpty_of_not_nested (h : (endLine c m).1.flags.nested = false) :
    m.parens.isEmpty = true := by
  cases he : m.parens.isEmpty with
  | true => rfl
  | false =>
    simp only [endLine, LineState.of, he] at h
    split_ifs at h <;> simp_all [LineFlags.none]

end Rules

/-- The toy language keeps to its regime. -/
theorem keeps : grammar.Keeps regime where
  tidy_of_reads := id
  stable_plain := rfl
  named_of_crosses _ := rfl
  like_refl _ m := ⟨.refl _, rfl, rfl⟩
  leave h hf _ hl := leave_twin h hf hl
  enter h hp hf hl := enter_twin h hp hf hl
  endLine h hf hl := endLine_alike h hf hl
  leave_plain {c z} h := by
    change leave c z = _
    rw [leave, h]
    rfl
  leave_ending {c z} h hs := by
    have hc : c.state = .comment := by simpa [regime] using h
    change leave c z = _
    simp only [leave, hc, hs, if_true]
    rfl
  fits_plain _ h := h
  like_plain _ h := h
  begin {k k' u u' c c' b} h hpos hp := by
    have hcarried : (begin c b).2.carried = (begin c' b).2.carried := by simp [begin, h.state]
    exact ⟨.refl, ⟨.refl _, rfl, hcarried⟩, ⟨ReturnStack.full_empty _, rfl⟩, by
      change regime.crosses c.state = true
      rw [hp]
      rfl⟩
  begin_later _ := rfl
  recalls {c d z} _ hf hn _ hs := by
    refine ⟨hf.1.same_empty hf.2 (isEmpty_of_not_nested hn), rfl, ?_⟩
    simp [grammar, endLine, begin, hs]
  depth h := h.1.depth

/-- No rule goes over the end of a line: a string is closed by a quote. -/
theorem staysInLine : grammar.StaysInLine where
  begin _ _ := .refl
  leave c m := by
    change c.Within (leave c m).cursor
    unfold leave
    split
    case h_1 => exact .refl
    case h_2 =>
      split
      · exact .refl
      · exact .switch .refl _
    case h_3 =>
      split
      · exact .switch .refl _
      · exact .refl
    case h_4 => exact .switch .refl _
    case h_5 =>
      split
      case isTrue hquote => exact Cursor.Within.refl.forwardSwitch_of_eq hquote (by decide) _
      case isFalse => exact .refl
  enter c m := by
    change c.Within (enter c m).cursor
    have hswitch : ∀ s, c.Within (c.switch s) := .switch .refl
    unfold enter
    split
    · exact hswitch _
    split
    · exact hswitch _
    split
    · exact hswitch _
    split
    · exact hswitch _
    · exact .refl

end Highlight.Toy

namespace Highlight.Stuck

/-- A rule that only asks to look again goes nowhere. -/
theorem staysInLine : grammar.StaysInLine where
  begin _ _ := .refl
  leave _ _ := .refl
  enter _ _ := .refl

end Highlight.Stuck
