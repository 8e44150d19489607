import Highlight.Language.Toml
import Highlight.Proofs.Scan.Careful

/-!
The rules of TOML are careful with characters. In plain text within a line they pass over what they
do not know, one byte after another, but a run begins there only at a byte of ASCII. They break a
character only behind a backslash.
-/

namespace Highlight.Toml

open Byte

/-- What stands behind a sign is plain text, where a key begins at any byte outside ASCII, but not
behind the first visible byte of a line outside brackets. -/
def care : Care Category Memory where
  roomy
    | .plain | .operator | .escape => false
    | _ => true
  escape s := s = .escape
  outer m := m.escape.outer
  loose c m := c.state = .plain ∧ 0 < c.visible ∧ m.brackets = 0

variable {words : WordSets} {c d : Place} {m : Memory}

theorem not_loose (hs : c.state ≠ .plain) : ¬care.loose c m := fun h => hs h.1

/-! ### Keys -/

theorem passQuoting_careful (c : Place) (m : Memory) :
    c.Careful care.escape (passQuoting c m).1 ∧ (passQuoting c m).1.state = c.state := by
  have hforward : c.Careful care.escape c.forward ∧ c.forward.state = c.state :=
    ⟨.forward .refl, Cursor.state_forward⟩
  have hhere : c.Careful care.escape c ∧ c.state = c.state := ⟨.refl, rfl⟩
  unfold passQuoting
  split
  · split
    · exact hforward
    · exact hhere
  · split_ifs
    · exact hforward
    · exact hforward
    · exact hhere
  · exact hhere
  · exact hhere

theorem closeTable_careful (hc : c.Spelled) (hs : care.roomy c.state = true)
    (hb : c.byte = rbracket) : (closeTable c m).CarefulHere care c := by
  -- behind the last bracket a character begins
  have hpassed : ∃ d : Place, c.Careful care.escape d ∧ d.AtCharacter ∧ d.state = c.state ∧
      (if c.forward.byte = rbracket then c.forward.forward else c.forward) = d := by
    have hone : c.Careful care.escape c.forward := .forward .refl
    split
    case isTrue hb' =>
      refine ⟨_, hone.forward, hc.forward.atCharacter_forward (hb' ▸ by decide), ?_, rfl⟩
      rw [Cursor.state_forward, Cursor.state_forward]
    case isFalse =>
      exact ⟨_, hone, hc.atCharacter_forward (hb ▸ by decide), Cursor.state_forward, rfl⟩
  obtain ⟨d, hd, hat, hstate, hpassed⟩ := hpassed
  unfold closeTable
  simp only [hpassed]
  split
  · exact .leave hd hat
  · exact .goesOn hd (hstate ▸ hs)

theorem leaveBareTable_careful (hc : c.Spelled) (hs : care.roomy c.state = true) :
    (leaveBareTable c m).CarefulHere care c := by
  unfold leaveBareTable
  split_ifs with hdot hclose
  · exact .stay hs
  · exact closeTable_careful hc hs hclose
  · exact .stay hs

theorem leaveBareKey_careful (hc : c.Spelled) (hs : care.roomy c.state = true) :
    (leaveBareKey c m).CarefulHere care c := by
  unfold leaveBareKey
  split_ifs with hdot hkey hvalue
  · have hat : c.AtCharacter := Cursor.atCharacter_of_eq hdot (by decide)
    exact Flow.Careful.past (Cursor.Careful.refl.switch_of_atCharacter hat _) hc
      (hdot ▸ by decide) _
  · exact .stay hs
  · have hname : isNameByte c.byte ≠ true := fun h => hkey (by rw [isKeyByte, h, Bool.true_or])
    exact .leave .refl (Cursor.atCharacter_of_ascii (ascii_of_not_isNameByte hname))
  · exact ⟨.recolor .refl _, .roomy rfl⟩
  · exact .stay hs

theorem leaveKey_careful (hc : c.Spelled) (hs : care.roomy c.state = true) :
    (leaveKey c m).CarefulHere care c := by
  unfold leaveKey
  split
  case isTrue hstart => exact .leave .refl (hc.atCharacter_of_atLineStart hstart)
  case isFalse =>
    obtain ⟨hd, hstate⟩ := passQuoting_careful c m
    generalize passQuoting c m = q at hd hstate
    obtain ⟨d, n⟩ := q
    refine .trans hd ?_
    have hc' : d.Spelled := hd.spelled hc
    have hs' : care.roomy d.state = true := hstate ▸ hs
    simp only
    split_ifs
    · exact .stay hs'
    · exact .stay hs'
    · exact .stay hs'
    · exact leaveBareTable_careful hc' hs'
    · exact leaveBareKey_careful hc' hs'

/-! ### Values -/

theorem endValue_careful (hd : c.Careful care.escape d) (hat : d.AtCharacter) :
    (endValue words d m).CarefulHere care c := by
  unfold endValue
  split
  case isTrue => exact ⟨hd.recolor _, .atCharacter hat⟩
  case isFalse =>
    simp only
    split
    · exact Flow.Careful.back (hd.recolor .keyword) hat _
    · exact Flow.Careful.back hd hat _

theorem leaveNumber_careful (hs : care.roomy c.state = true) :
    (leaveNumber words c m).CarefulHere care c := by
  unfold leaveNumber
  split_ifs with hnumber
  · exact .stay hs
  · exact .goesOn (.recolor .refl _) rfl
  · exact endValue_careful .refl
      (Cursor.atCharacter_of_ascii (ascii_of_not_continuesNumber hnumber))

theorem closingByte_ascii (s : Category) : s.closingByte < 0x80 := by
  cases s <;> decide

theorem leaveString_careful (hc : c.Spelled) (hs : care.roomy c.state = true) :
    (leaveString words c m).CarefulHere care c := by
  unfold leaveString
  simp only
  split_ifs with hstart hback hclose _ htriple
  · exact .leave .refl (hc.atCharacter_of_atLineStart hstart.1)
  · exact Escape.enter_careful _ hc hback.1 hs rfl fun _ => rfl
  · exact endValue_careful (.forward .refl)
      (hc.atCharacter_forward (hclose ▸ closingByte_ascii _))
  · have hlast : c.Careful care.escape c.toLastOfRun := Cursor.Careful.refl.forwardN _
    refine Flow.Careful.past hlast (hlast.spelled hc) ?_ _
    rw [Cursor.byte_toLastOfRun, hclose]
    exact closingByte_ascii _
  · exact .stay hs
  · exact .stay hs

/-! ### What begins -/

/-- Where a line begins, so does a character. -/
theorem enterLine_careful (hc : c.Spelled) (hat : c.AtCharacter) :
    (enterLine c m).Careful care c := by
  unfold enterLine
  split
  case isTrue =>
    have htable : c.Careful care.escape (c.switch .table) :=
      Cursor.Careful.refl.switch_of_atCharacter hat _
    simp only
    split
    · refine .goesOn htable.forward ?_
      rw [Cursor.state_forward]
      rfl
    · exact .begins hat rfl
  case isFalse =>
    split_ifs with happ hquote hkey hspace
    · exact .begins hat rfl
    · exact .begins hat rfl
    · exact .begins hat rfl
    · exact .skip hc (ascii_of_isSpace hspace)
    · exact .begins hat rfl

theorem enterString_careful (hat : c.AtCharacter) : (enterString c m).Careful care c := by
  unfold enterString
  simp only
  split
  case isTrue =>
    refine .beginsWith hat ?_ 2
    split <;> rfl
  case isFalse =>
    split
    · exact .begins hat rfl
    · exact .begins hat rfl

theorem ascii_of_isOperator {b : Byte} (h : isOperator b = true) : b < 0x80 := by
  simp only [isOperator, Bool.or_eq_true, beq_iff_eq] at h
  grind

theorem visible_le_forward (c : Place) : c.visible ≤ c.forward.visible := by
  cases ha : c.ahead with
  | nil => rw [Cursor.forward_nil ha]
  | cons b t =>
    rw [Cursor.forward_cons ha]
    change c.trail.visible ≤ (c.trail.pass b c.state).visible
    unfold Trail.pass
    split_ifs
    · exact Nat.le_refl _
    · exact Nat.le_refl _
    · exact Nat.le_succ _
    · exact Nat.le_succ _

/-- Within a line nothing begins within a character: what stands there is passed over, or could only
begin a key, for which a character must begin as well. -/
theorem enterValue_careful (hc : c.Spelled) (hs : c.state = .plain)
    (hkey : 0 < m.brackets → c.AtCharacter) (hline : ¬(c.visible = 0 ∧ m.brackets = 0)) :
    (enterValue c m).Careful care c := by
  unfold enterValue
  split_ifs with hquote hdigit hlower hoperator hname
  · refine enterString_careful ?_
    rcases hquote with h | h
    · exact Cursor.atCharacter_of_eq h (by decide)
    · exact Cursor.atCharacter_of_eq h (by decide)
  · have hascii : c.byte < 0x80 :=
      ascii_of_isHexDigit (by rw [isHexDigit, hdigit, Bool.true_or, Bool.true_or])
    exact .begins (Cursor.atCharacter_of_ascii hascii) rfl
  · have hascii : c.byte < 0x80 := ascii_of_isAlpha (by rw [isAlpha, hlower, Bool.true_or])
    exact .begins (Cursor.atCharacter_of_ascii hascii) rfl
  · exact .sign hc (ascii_of_isOperator hoperator) _
  · exact .begins (hkey hname.1) rfl
  · by_cases hascii : c.byte < 0x80
    · exact .skip hc hascii
    · have hbyte : isNameByte c.byte = true :=
        Decidable.of_not_not fun h => hascii (ascii_of_not_isNameByte h)
      have hbrackets : m.brackets = 0 := by
        refine Nat.eq_zero_of_not_pos fun h => hname ⟨h, ?_⟩
        rw [isKeyByte, hbyte, Bool.true_or]
      have hvisible : 0 < c.visible := Nat.pos_of_ne_zero fun h => hline ⟨h, hbrackets⟩
      refine ⟨.refl, .loose ⟨?_, ?_, hbrackets⟩⟩
      · rw [Cursor.state_forward, hs]
      · exact Nat.lt_of_lt_of_le hvisible (visible_le_forward c)

/-! ### The rules together -/

theorem leave_careful (hc : c.Spelled) (hm : c.MayStand care m) :
    (leave words c m).CarefulHere care c := by
  unfold leave
  cases hs : c.state
  case operator =>
    exact .leave .refl (hm.atCharacter_of (by rw [hs]; rfl) (by rw [hs]; nofun)
      (not_loose (by rw [hs]; nofun)))
  case number => exact leaveNumber_careful (by rw [hs]; rfl)
  case dateTime =>
    dsimp only
    split
    case isTrue => exact .stay (by rw [hs]; rfl)
    case isFalse hdate =>
      have hname : isNameByte c.byte ≠ true := fun h => hdate (by rw [h, Bool.true_or])
      exact endValue_careful .refl (Cursor.atCharacter_of_ascii (ascii_of_not_isNameByte hname))
  case identifier =>
    dsimp only
    split
    case isTrue => exact .stay (by rw [hs]; rfl)
    case isFalse hname =>
      exact endValue_careful .refl (Cursor.atCharacter_of_ascii (ascii_of_not_isNameByte hname))
  case table | key => exact leaveKey_careful hc (by rw [hs]; rfl)
  case literalString | string | tripleLiteralString | tripleString =>
    exact leaveString_careful hc (by rw [hs]; rfl)
  case escape =>
    exact Escape.leave_careful _ hc hs
      (hm.of_escape (by rw [hs]; rfl) (not_loose (by rw [hs]; nofun)))
  case error =>
    dsimp only
    split_ifs with hstart hhash
    · exact .leave .refl (hc.atCharacter_of_atLineStart hstart)
    · exact Flow.Careful.here (.begins (Cursor.atCharacter_of_eq hhash (by decide)) rfl) nofun
    · exact .stay (by rw [hs]; rfl)
  case comment => exact .lineLong hc (by rw [hs]; rfl)
  case plain => exact ⟨.refl, fun _ => hm, fun h => absurd hs h⟩
  case keyword => exact .stay (by rw [hs]; rfl)

theorem enter_careful (hc : c.Spelled) (hs : c.state = .plain) (hm : c.MayStand care m) :
    (enter c m).Careful care c := by
  have hat : c.visible = 0 ∨ 0 < m.brackets → c.AtCharacter := by
    intro h
    refine hm.atCharacter_of (by rw [hs]; rfl) (by rw [hs]; nofun) fun hloose => ?_
    obtain ⟨-, hvisible, hbrackets⟩ := hloose
    omega
  unfold enter
  split
  case isTrue hhash => exact .begins (Cursor.atCharacter_of_eq hhash (by decide)) rfl
  case isFalse =>
    split
    case isTrue hline => exact enterLine_careful hc (hat (.inl hline.1))
    case isFalse hline => exact enterValue_careful hc hs (fun h => hat (.inr h)) hline

theorem careful (words : WordSets) : (grammar words).Careful care where
  begin _ _ _ hat := ⟨.refl, .atCharacter hat⟩
  leave _ _ := leave_careful
  enter _ _ := enter_careful

end Highlight.Toml
