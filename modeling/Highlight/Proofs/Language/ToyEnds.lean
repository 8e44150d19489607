import Highlight.Proofs.Language.Toy
import Highlight.Proofs.Scan.LineEnd

/-!
Where the toy language lets go of a byte, and how it comes to the end of a line.
-/

namespace Highlight.Toy

open Byte

/-- A byte is looked at again only after a string, whose quote was passed. -/
theorem settles : grammar.Settles (fun _ => 0) (fun _ => True) where
  low _ := by decide
  plain := rfl
  begin _ _ := trivial
  leave c m _ := by
    change (leave c m).Settling _ _ c
    unfold leave
    split
    case h_1 => exact trivial
    case h_2 => split <;> exact trivial
    case h_3 => split <;> exact trivial
    case h_4 => exact trivial
    case h_5 =>
      split
      case isTrue hquote =>
        exact .moved trivial (List.suffix_refl _) (by rw [hquote]; decide) _
      case isFalse => exact trivial
  enter c m _ := by
    change (enter c m).Settling _ _ c
    unfold enter
    split_ifs <;> exact trivial
  endLine _ _ _ := trivial

/-! ### Ends of lines -/

variable {c : Cursor Category} {m : Memory}

/-- Words and operators end with their line at the latest. -/
def isCalm : Category → Bool
  | .word | .operator => false
  | .plain | .comment | .string => true

def Calm (s : Category) (_ : Trail Category) (_ : Memory) : Prop := isCalm s = true

theorem leave_rests (c : Cursor Category) (m : Memory) : (leave c m).Rests Calm := by
  unfold leave
  cases hs : c.state
  case plain => exact fun _ => congrArg isCalm hs
  case word =>
    dsimp only
    split
    case isTrue hname => exact .inner (Cursor.not_atEnd_of_kind inline_isNameByte hname)
    case isFalse => exact fun _ => rfl
  case comment =>
    dsimp only
    split
    · exact fun _ => rfl
    · exact fun _ => congrArg isCalm hs
  case operator => exact fun _ => rfl
  case string =>
    dsimp only
    split
    · trivial
    · exact fun _ => congrArg isCalm hs

theorem leave_lineOnly (c : Cursor Category) (m : Memory) :
    leave c.lineOnly m = (leave c m).lineOnly := by
  unfold leave
  rw [Cursor.state_lineOnly, Cursor.atLineStart_lineOnly, Cursor.blind_byte inline_isNameByte.blind]
  cases c.state
  case plain => rfl
  case word => dsimp only; split <;> rfl
  case comment => dsimp only; split <;> rfl
  case operator => rfl
  case string =>
    simp only [Cursor.byte_lineOnly_eq (show quote.Inner by decide)]
    split
    case isTrue hquote =>
      rw [Cursor.forwardSwitch_lineOnly (Cursor.not_atEnd_of_eq hquote (by decide))]
      rfl
    case isFalse => rfl

/-- At the end of a line nothing begins. -/
theorem enter_atEnd (h : c.AtEnd) : enter c m = .pass c m := by
  have hname : isNameStart c.byte = false := h.kind inline_isNameStart
  have hgraphic : isGraphic c.byte = false := h.kind inline_isGraphic
  unfold enter
  simp (disch := decide) [hname, hgraphic, h.byte_ne]

theorem enter_lineOnly (c : Cursor Category) (m : Memory) :
    enter c.lineOnly m = (enter c m).lineOnly := by
  by_cases h : c.AtEnd
  · rw [enter_atEnd h, enter_atEnd h.lineOnly]
    rfl
  · unfold enter
    rw [Cursor.byte_lineOnly h, Cursor.visible_lineOnly]
    split_ifs <;> rfl

theorem enter_rests (c : Cursor Category) (m : Memory) (hplain : c.state = .plain) :
    (enter c m).Rests Calm := by
  by_cases h : c.AtEnd
  · rw [enter_atEnd h]
    exact fun _ => congrArg isCalm hplain
  · unfold enter
    split_ifs <;> exact fun hend => absurd hend h

theorem endsAlike : grammar.EndsAlike Calm where
  begin _ _ := rfl
  leave := leave_lineOnly
  dispatch c m _ := Grammar.dispatch_lineOnly (leave_lineOnly c m) fun d y _ _ => enter_lineOnly d y
  endLine {c d} m hstate htrail := by
    change endLine c m = endLine d m
    unfold endLine Cursor.visible
    rw [hstate, htrail]
  idle _ _ h _ := enter_atEnd h
  rests c m _ := Grammar.rests_dispatch (leave_rests c m) enter_rests
  calm c m hcalm hend hstart := by
    change leave c m = _
    change isCalm c.state = true at hcalm
    unfold leave
    cases hs : c.state
    case plain => rfl
    case word | operator => rw [hs] at hcalm; cases hcalm
    case comment => simp [hstart]
    case string => simp (disch := decide) [hend.byte_ne]

end Highlight.Toy
