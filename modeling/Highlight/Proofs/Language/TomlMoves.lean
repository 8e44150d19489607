import Highlight.Proofs.Language.Toml

/-!
The rules of TOML stay in their line, in whatever state and with whatever data they are asked. What
they pass at once are quotes, brackets and points, and a backslash within a key, behind which the
line may end.
-/

namespace Highlight.Toml

open Byte

variable {words : WordSets}

/-! ### Keys -/

theorem passQuoting_within (c : Place) (m : Memory) : c.Within (passQuoting c m).1 := by
  unfold passQuoting
  split
  · split
    case isTrue happ => exact Cursor.Within.refl.forward_of_eq happ (by decide)
    case isFalse => exact .refl
  · split_ifs with hback hquote
    · exact Cursor.Within.refl.forward_of_eq hback (by decide)
    · exact Cursor.Within.refl.forward_of_eq hquote (by decide)
    · exact .refl
  · exact .refl
  · exact .refl

theorem closeTable_within {c : Place} (hb : c.byte = rbracket) (m : Memory) :
    c.Within (closeTable c m).cursor := by
  have hpass : c.Within c.forward := Cursor.Within.refl.forward_of_eq hb (by decide)
  have hpass' : c.Within (if c.forward.byte = rbracket then c.forward.forward else c.forward) := by
    split
    case isTrue hb' => exact hpass.forward_of_eq hb' (by decide)
    case isFalse => exact hpass
  unfold closeTable
  simp only [Flow.cursor]
  generalize (if c.forward.byte = rbracket then c.forward.forward else c.forward) = d at hpass' ⊢
  split
  · exact hpass'.switch _
  · exact hpass'

theorem leaveKey_within (c : Place) (m : Memory) : c.Within (leaveKey c m).cursor := by
  unfold leaveKey
  split
  case isTrue => exact .switch .refl _
  case isFalse =>
    refine (passQuoting_within c m).trans ?_
    generalize passQuoting c m = q
    obtain ⟨c, m⟩ := q
    simp only
    split_ifs
    · exact .refl
    · exact .refl
    · exact .refl
    · unfold leaveBareTable
      split_ifs with hdot hclose
      · exact .refl
      · exact closeTable_within hclose m
      · exact .refl
    · unfold leaveBareKey
      split_ifs with hdot
      · exact (Cursor.Within.refl.switch _).forwardSwitch_of_eq hdot (by decide) _
      · exact .refl
      · exact .switch .refl _
      · exact .recolor .refl _
      · exact .refl

/-! ### Values -/

/-- Where a value ends, only its category is settled. -/
theorem endValue_within (c : Place) (m : Memory) : c.Within (endValue words c m).cursor := by
  unfold endValue
  split
  case isTrue => exact .recolor .refl _
  case isFalse =>
    refine .switch ?_ _
    split
    · exact .recolor .refl _
    · exact .refl

theorem leaveNumber_within (c : Place) (m : Memory) :
    c.Within (leaveNumber words c m).cursor := by
  unfold leaveNumber
  split_ifs
  · exact .refl
  · exact .recolor .refl _
  · exact endValue_within c m

theorem closingByte_ne_newline (s : Category) : s.closingByte ≠ newline := by
  unfold Category.closingByte
  split <;> decide

theorem leaveString_within (c : Place) (m : Memory) :
    c.Within (leaveString words c m).cursor := by
  have hnl := closingByte_ne_newline c.state
  unfold leaveString
  simp only
  split_ifs with hstart hback hclose _ htriple
  · exact .switch .refl _
  · exact Escape.enter_within _ _ (by rw [hback.1]; decide) _ _
  · exact (Cursor.Within.refl.forward_of_eq hclose hnl).trans (endValue_within _ m)
  · -- the last quote of the run is passed, and it is a quote as the first one is
    have hlast : c.Within c.toLastOfRun := Cursor.Within.refl.toLastOfRun (hclose ▸ hnl)
    exact hlast.forwardSwitch_of_eq (Cursor.byte_toLastOfRun.trans hclose) hnl _
  · exact .refl
  · exact .refl

/-! ### The rules together -/

theorem leave_within (c : Place) (m : Memory) : c.Within (leave words c m).cursor := by
  unfold leave
  cases c.state
  case operator => exact .switch .refl _
  case number => exact leaveNumber_within c m
  case dateTime | identifier =>
    dsimp only
    split
    · exact .refl
    · exact endValue_within c m
  case table | key => exact leaveKey_within c m
  case literalString | string | tripleLiteralString | tripleString => exact leaveString_within c m
  case escape => exact Escape.leave_within _ _ _
  case error =>
    dsimp only
    split_ifs
    · exact .switch .refl _
    · exact .switch .refl _
    · exact .refl
  case comment =>
    dsimp only
    split
    · exact .switch .refl _
    · exact .refl
  case plain | keyword => exact .refl

theorem enterLine_within (c : Place) (m : Memory) : c.Within (enterLine c m).cursor := by
  unfold enterLine
  split_ifs with hopen
  · have hswitch : c.Within (c.switch .table) := .switch .refl _
    simp only [Flow.cursor]
    split
    · exact hswitch.forward_of_eq hopen (by decide)
    · exact hswitch
  · exact .switch .refl _
  · exact .switch .refl _
  · exact .switch .refl _
  · exact .refl
  · exact .switch .refl _

theorem enterValue_within (c : Place) (m : Memory) : c.Within (enterValue c m).cursor := by
  unfold enterValue
  split_ifs with hquote
  · have hnl : c.byte ≠ newline := by
      rcases hquote with hb | hb <;> rw [hb] <;> decide
    unfold enterString
    simp only
    split
    case isTrue htwo =>
      have hnext : c.next = c.byte := by
        simp only [Cursor.readsNext, Bool.and_eq_true, beq_iff_eq] at htwo
        exact htwo.1
      exact (Cursor.Within.refl.switch _).forwardN_two rfl hnl hnext hnl
    case isFalse => exact .switch .refl _
  · exact .switch .refl _
  · exact .switch .refl _
  · exact .switch .refl _
  · exact .switch .refl _
  · exact .refl

theorem staysInLine (words : WordSets) : (grammar words).StaysInLine where
  begin _ _ := .refl
  leave := leave_within
  enter c m := by
    change c.Within (enter c m).cursor
    unfold enter
    split
    · exact .switch .refl _
    split
    · exact enterLine_within c m
    · exact enterValue_within c m

end Highlight.Toml
