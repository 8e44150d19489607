import Highlight.Proofs.Language.PlaceholderRead

/-!
The bytes of placeholders. Only one byte of a placeholder can be a backslash, the fill character,
and then a mark of alignment follows it (`Derivation.tame`). So in a literal it begins an escape of
two bytes, and no escape goes on beyond the placeholder.
-/

namespace Highlight

open Byte

namespace Placeholder

/-- No byte of the text is a backslash, but for those directly before a mark of alignment. -/
inductive Tame : Text → Prop where
  | nil : Tame []
  | byte {b : Byte} {w : Text} (hb : b ≠ backslash) (h : Tame w) : Tame (b :: w)
  | filled {mark : Byte} {w : Text} (hmark : isAlignment mark = true) (h : Tame w) :
      Tame (backslash :: mark :: w)

variable {w u : Text}

theorem Tame.append (hw : Tame w) (hu : Tame u) : Tame (w ++ u) := by
  induction hw with
  | nil => exact hu
  | byte hb _ ih => exact .byte hb ih
  | filled hmark _ ih => exact .filled hmark ih

theorem tame_of_kind {kind : Byte → Bool} (hkind : kind backslash = false)
    (h : ∀ b ∈ w, kind b = true) : Tame w := by
  induction w with
  | nil => exact .nil
  | cons b w ih =>
    obtain ⟨hb, hw⟩ := List.forall_mem_cons.1 h
    refine .byte ?_ (ih hw)
    rintro rfl
    rw [hkind] at hb
    cases hb

theorem tame_part {α : Type} {text : α → Text} (h : ∀ a, Tame (text a)) (o : Option α) :
    Tame (part text o) := by
  cases o with
  | none => exact .nil
  | some a => exact h a

theorem Argument.tame : ∀ a : Argument, Tame a.text
  | .number _ _ digits => tame_of_kind rfl digits
  | .name first rest starts continues => by
    have hfirst : first ≠ backslash := by
      rintro rfl
      cases starts
    exact .byte (by decide) (.byte hfirst
      ((tame_of_kind rfl continues).append (.byte (by decide) .nil)))

theorem Specifier.tame : ∀ s : Specifier, Tame s.text
  | .letter b known => by
    refine .byte ?_ .nil
    rintro rfl
    exact absurd known (by decide)
  | .any => .byte (by decide) (.byte (by decide) (.byte (by decide) .nil))

/-- A fill character may be a backslash, but then it is one before a mark. -/
theorem Alignment.tame (a : Alignment) : Tame a.text := by
  obtain ⟨fill, mark, hmark⟩ := a
  have halone : Tame [mark] := by
    refine .byte ?_ .nil
    rintro rfl
    cases hmark
  cases fill with
  | none => exact halone
  | some fill =>
    cases fill with
    | encoded lead more announces continues =>
      have hlead : lead ≠ backslash := by
        rintro rfl
        revert announces
        unfold Announces
        have hlow : ¬(0xC0 : Byte) ≤ backslash ∧ ¬(0xE0 : Byte) ≤ backslash ∧
          ¬(0xF0 : Byte) ≤ backslash := by decide
        obtain ⟨h₁, h₂, h₃⟩ := hlow
        rintro (⟨h, -⟩ | ⟨h, -⟩ | ⟨h, -⟩)
        · exact h₁ h
        · exact h₂ h
        · exact h₃ h
      exact .byte hlead ((tame_of_kind rfl continues).append halone)
    | alone b allowed =>
      by_cases hb : b = backslash
      · subst hb
        exact .filled hmark .nil
      · exact .byte hb halone

theorem Options.tame (o : Options) : Tame o.text := by
  have hdigits : ∀ w : Digits, Tame w.1 := fun w => tame_of_kind rfl w.2
  have hprecision : ∀ w : Digits, Tame (precisionText w) := fun w =>
    .byte (by decide) (hdigits w)
  exact .byte (by decide) ((tame_part Alignment.tame _).append
    ((hdigits _).append (tame_part hprecision _)))

/-- **In a placeholder only a fill character can begin an escape.** -/
theorem Derivation.tame (d : Derivation) : Tame (lbrace :: d.inner) :=
  .byte (by decide) ((tame_part Argument.tame _).append
    ((tame_part Specifier.tame _).append (tame_part Options.tame _)))

end Placeholder

end Highlight
