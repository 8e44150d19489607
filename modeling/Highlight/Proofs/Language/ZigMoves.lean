import Highlight.Proofs.Language.Zig

/-!
The rules of Zig stay in their line, in whatever state and with whatever data they are asked: what
they pass at once are slashes, braces, quotes, backslashes with the byte they escape, and
placeholders, none of which goes over the end of a line.
-/

namespace Highlight.Zig

open Byte

variable {config : Config} {c : Place} {m : Memory}

/-- A placeholder is passed in its parts, and no part goes over the end of a line. -/
theorem readPlaceholder_within (c : Place) (m : Memory) :
    c.Within (readPlaceholder c m).cursor := by
  obtain ⟨-, hclear⟩ :=
    Placeholder.read_local (if c.state = .string then some quote else none) (.refl c.ahead)
  unfold readPlaceholder
  simp only
  cases hp : Placeholder.read (if c.state = .string then some quote else none) c.ahead with
  | none => exact .refl
  | some p =>
    obtain ⟨hall, hle, hle'⟩ := hclear p hp
    -- a cursor `i` bytes into the placeholder may pass what is left of it
    have hgo : ∀ {d : Place} (i n : Nat), c.Within d → d.ahead = c.ahead.drop i →
        i + n ≤ p.length →
        c.Within (d.forwardN n) ∧ (d.forwardN n).ahead = c.ahead.drop (i + n) := by
      intro d i n hd hi hn
      refine ⟨hd.forwardN (hi ▸ (hall.mono hn).drop), ?_⟩
      rw [Cursor.ahead_forwardN, hi, List.drop_drop]
    obtain ⟨h₁, e₁⟩ := hgo 0 p.specStart (.switch .refl .placeholder) rfl (by omega)
    rw [Nat.zero_add] at e₁
    simp only
    split
    case isTrue heq =>
      exact .switch (hgo p.specStop (p.length - p.specStop) h₁ (heq ▸ e₁) (by omega)).1 _
    case isFalse =>
      obtain ⟨h₂, e₂⟩ :=
        hgo p.specStart (p.specStop - p.specStart) (h₁.switch .specifier) e₁ (by omega)
      rw [Nat.add_sub_cancel' hle] at e₂
      exact .switch (hgo p.specStop (p.length - p.specStop) (h₂.switch _) e₂ (by omega)).1 _

theorem leaveLiteral_within (c : Place) (m : Memory) :
    c.Within (leaveLiteral config c m).cursor := by
  unfold leaveLiteral
  split_ifs with hstart hback hchar hstring hbrace
  · exact .switch .refl _
  · exact Escape.enter_within _ _ (by rw [hback.1]; decide) _ _
  · exact Cursor.Within.refl.forwardSwitch_of_eq hchar.1 (by decide) _
  · exact Cursor.Within.refl.forwardSwitch_of_eq hstring.1 (by decide) _
  · have hnl : c.byte ≠ newline := by
      rcases hbrace.1 with hb | hb <;> rw [hb] <;> decide
    unfold leaveBrace
    split_ifs
    · exact (Cursor.Within.refl.switch _).forward hnl
    · exact readPlaceholder_within c m
    · exact .refl
  · exact .refl

theorem leave_within (c : Place) (m : Memory) : c.Within (leave config c m).cursor := by
  unfold leave
  cases c.state
  case operator => exact .switch .refl _
  case number | builtin =>
    dsimp only
    split
    · exact .refl
    · exact .switch .refl _
  case lineComment | docComment | topComment =>
    dsimp only
    split
    · exact .switch .refl _
    · exact .refl
  case identifier =>
    dsimp only
    split
    · exact .refl
    · exact ((Cursor.Within.refl.recolor _).remember _).switch _
  case character | string | multilineString => exact leaveLiteral_within c m
  case escape => exact Escape.leave_within _ _ _
  case plain | keyword | typeName | functionDefinition | function | placeholder | specifier =>
    exact .refl

theorem enter_within (c : Place) (m : Memory) : c.Within (enter c m).cursor := by
  unfold enter
  cases ByteClass.of c.byte
  case digit | nameStart => exact .switch .refl _
  case punctuation =>
    simp only
    unfold enterPunctuation
    split_ifs with hslash
    · -- both slashes are passed before the comment takes its category
      have hgo : c.Within ((c.switch .lineComment).forwardN 2) :=
        (Cursor.Within.refl.switch _).forwardN_two hslash.1 (by decide) hslash.2 (by decide)
      unfold enterComment
      simp only [Flow.cursor]
      split_ifs
      · exact hgo.recolor _
      · exact hgo.recolor _
      · exact hgo
    all_goals exact .switch .refl _
  case space | lineEnd | control => exact .refl

theorem staysInLine (config : Config) : (grammar config).StaysInLine where
  begin _ _ := .refl
  leave := leave_within
  enter := enter_within

end Highlight.Zig
