import Highlight.Language.Toy
import Highlight.Proofs.Scan.Careful

/-!
The toy language is careful with characters. It has no escapes, so that none of its runs breaks one.
-/

namespace Highlight.Toy

open Byte

/-- In plain text a name begins at any byte outside ASCII, and what stands behind a sign is plain
text. -/
def care : Care Category Memory where
  roomy s := s != .plain && s != .operator
  outer _ := .plain

variable {c : Cursor Category} {m : Memory}

theorem leave_careful (hc : c.Spelled) (hm : c.MayStand care m) :
    (leave c m).CarefulHere care c := by
  unfold leave
  split
  case h_1 hs => exact ⟨.refl, fun _ => hm, fun h => absurd hs h⟩
  case h_2 hs =>
    split
    case isTrue => exact .stay (by rw [hs]; rfl)
    case isFalse hname =>
      exact .leave .refl (Cursor.atCharacter_of_ascii (ascii_of_not_isNameByte hname))
  case h_3 hs => exact .lineLong hc (by rw [hs]; rfl)
  case h_4 hs => exact .leave .refl (hm.atCharacter_of (by rw [hs]; rfl) not_false not_false)
  case h_5 hs =>
    split
    case isTrue hquote => exact Flow.Careful.past .refl hc (hquote ▸ by decide) _
    case isFalse => exact .stay (by rw [hs]; rfl)

theorem enter_careful (hc : c.Spelled) (hs : c.state = .plain) (hm : c.MayStand care m) :
    (enter c m).Careful care c := by
  have hat : c.AtCharacter := hm.atCharacter_of (by rw [hs]; rfl) not_false not_false
  unfold enter
  split
  case isTrue => exact .begins hat rfl
  case isFalse hname =>
    -- no byte outside ASCII is left
    have hascii := ascii_of_not_isNameStart hname
    split
    · exact .begins hat rfl
    split
    · exact .begins hat rfl
    split
    · exact .sign hc hascii _
    · exact .skip hc hascii

theorem careful : grammar.Careful care where
  begin _ _ _ hat := ⟨.refl, .atCharacter hat⟩
  leave _ _ := leave_careful
  enter _ _ := enter_careful

end Highlight.Toy
