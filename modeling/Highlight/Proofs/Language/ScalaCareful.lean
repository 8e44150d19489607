import Highlight.Language.Scala
import Highlight.Proofs.Scan.Careful

/-!
The rules of Scala are careful with characters. Within a tag an attribute begins at any byte outside
ASCII, so the rules never stand there within a character; nor do they behind a sign, in the tag of a
comment, or in plain text. They break a character only behind a backslash.
-/

namespace Highlight.Scala

open Byte (apostrophe ascii_of_isAlpha ascii_of_not_continuesNumber backslash colon dollar dot
  greater lbrace quote slash star)

/-- Within a tag an attribute begins at any byte outside ASCII, and in plain text a name does, which
is what stands behind a sign. The tag of a comment is of letters only. -/
def care : Care Category Memory where
  roomy
    | .plain | .operator | .punctuation | .postfixOperator | .commentTag | .markupOther
    | .escape => false
    | _ => true
  escape s := s = .escape
  outer m := m.escape.outer

variable {config : Config} {c d : Place} {m : Memory}

theorem ascii_of_not_isNameByte {b : Byte} (h : isNameByte b ≠ true) : b < 0x80 := by
  refine Byte.ascii_of_not_isNameByte fun hb => h ?_
  rw [isNameByte, hb, Bool.true_or]

theorem ascii_of_not_isNameStart {b : Byte} (h : isNameStart b ≠ true) : b < 0x80 := by
  refine Byte.ascii_of_not_isNameStart fun hb => h ?_
  rw [isNameStart, hb, Bool.true_or]

/-! ### Words -/

/-- What separates two parts of a longer name is a byte of ASCII. -/
theorem passSeparator_careful (hc : c.Spelled) :
    c.Careful care.escape (passSeparator c) ∧ (passSeparator c).state = c.state := by
  unfold passSeparator
  split
  case isTrue h =>
    have hascii : c.byte < 0x80 := by
      simp only [separates, Bool.or_eq_true, Bool.and_eq_true, beq_iff_eq] at h
      rcases h with ⟨⟨h, -⟩, -⟩ | ⟨h, -⟩ <;> rw [h] <;> decide
    have hswitch : (c.switch .punctuation).Spelled := hc
    have hat : c.AtCharacter := Cursor.atCharacter_of_ascii hascii
    exact ⟨(Cursor.Careful.refl.switch_of_atCharacter hat _).forward.switch_of_atCharacter
      (hswitch.atCharacter_forward hascii) _, rfl⟩
  case isFalse => exact ⟨.refl, rfl⟩

theorem leaveWord_careful (hc : c.Spelled) (hs : care.roomy c.state = true) :
    (leaveWord config c m).CarefulHere care c := by
  obtain ⟨hd, hstate⟩ := passSeparator_careful hc
  unfold leaveWord
  generalize passSeparator c = d at hd hstate
  simp only
  split
  case isTrue => exact .goesOn hd (hstate ▸ hs)
  case isFalse hword =>
    have hat : d.AtCharacter := by
      refine Cursor.atCharacter_of_ascii (ascii_of_not_isNameByte fun h => hword ?_)
      rw [continuesWord, h, Bool.true_or]
    have hswitch : ∀ s n, (Flow.again (d.switch s) n).CarefulHere care c :=
      fun s n => Flow.Careful.back hd hat s
    split
    case isTrue =>
      split
      · exact hswitch _ _
      · have hname : c.Careful care.escape (classifyName config d m).1 :=
          .remember (.recolor hd _) _
        exact Flow.Careful.back hname hat _
    case isFalse =>
      split
      · exact hswitch _ _
      · exact hswitch _ _

/-! ### Comments -/

theorem forward_careful (hs : care.roomy c.state = true) :
    (Flow.pass c.forward m).CarefulHere care c := by
  refine .goesOn (.forward .refl) ?_
  rwa [Cursor.state_forward]

theorem closeBlockComment_careful (hc : c.Spelled) (hs : care.roomy c.state = true)
    (hb : c.next = slash) : (closeBlockComment c m).CarefulHere care c := by
  have hslash : c.forward.byte = slash := by rw [Cursor.byte_forward, hb]
  have hat : c.forward.forward.AtCharacter := hc.forward.atCharacter_forward (hslash ▸ by decide)
  unfold closeBlockComment
  simp only
  split
  · exact .leave (.forward (.forward .refl)) hat
  · exact forward_careful hs

theorem leaveBlockComment_careful (hc : c.Spelled) (hs : care.roomy c.state = true) :
    (leaveBlockComment c m).CarefulHere care c := by
  unfold leaveBlockComment
  generalize (if c.atLineStart then { m with flags := { comment := true } } else m) = n
  simp only
  split
  case isTrue hclose => exact closeBlockComment_careful hc hs (Cursor.reads_iff.1 hclose).2
  case isFalse =>
    split
    · exact forward_careful hs
    split
    case isTrue htag => exact Flow.Careful.here (.sign hc (htag.2.1 ▸ by decide) _) nofun
    case isFalse => exact .stay hs

theorem leaveCommentTag_careful (hc : c.Spelled) (hs : c.state = .commentTag)
    (hat : c.AtCharacter) : (leaveCommentTag c m).CarefulHere care c := by
  unfold leaveCommentTag
  split
  case isTrue halpha =>
    refine Flow.Careful.here (.skip hc (ascii_of_isAlpha halpha)) ?_
    rw [Flow.cursor, hs]
    decide
  case isFalse => exact Flow.Careful.back .refl hat _

/-! ### Literals -/

theorem enterInterpolation_careful (hc : c.Spelled) (hs : care.roomy c.state = true)
    (hb : c.byte = dollar) : (enterInterpolation c m).CarefulHere care c := by
  have hascii : c.byte < 0x80 := hb ▸ by decide
  unfold enterInterpolation
  split
  case isTrue hnext =>
    refine Flow.Careful.here (.pair hc hascii (hnext ▸ by decide) _) ?_
    rw [Flow.cursor, Cursor.state_forward]
    exact (by decide : Category.escape ≠ .plain)
  case isFalse =>
    split
    case isTrue hnext =>
      refine Flow.Careful.here (.pair hc hascii (hnext ▸ by decide) _) ?_
      rw [Flow.cursor, Cursor.state_forward]
      exact (by decide : Category.punctuation ≠ .plain)
    case isFalse =>
      split
      · refine Flow.Careful.here (.begins (Cursor.atCharacter_of_ascii hascii) rfl) ?_
        exact (by decide : Category.identifier ≠ .plain)
      · exact .stay hs

theorem closingByte_ascii (s : Category) : s.closingByte < 0x80 := by
  cases s <;> decide

theorem closeLiteral_careful (hc : c.Spelled) (hb : c.byte = c.state.closingByte) :
    (closeLiteral c m).CarefulHere care c := by
  have hlast : ∃ d : Place, c.Careful care.escape d ∧ d.byte = c.byte ∧
      (if c.state.isTriple then c.toLastOfRun else c) = d := by
    split
    · exact ⟨_, Cursor.Careful.refl.forwardN _, Cursor.byte_toLastOfRun, rfl⟩
    · exact ⟨c, .refl, rfl, rfl⟩
  obtain ⟨d, hd, hbyte, hlast⟩ := hlast
  unfold closeLiteral
  simp only [hlast]
  exact Flow.Careful.past hd (hd.spelled hc) (hbyte ▸ hb ▸ closingByte_ascii _) _

theorem leaveLiteral_careful (hc : c.Spelled) (hs : care.roomy c.state = true) :
    (leaveLiteral c m).CarefulHere care c := by
  unfold leaveLiteral
  simp only
  split_ifs with hstart hback hdollar hclose
  · exact .leave .refl (hc.atCharacter_of_atLineStart hstart.1)
  · exact Escape.enter_careful _ hc hback hs rfl fun _ => rfl
  · exact enterInterpolation_careful hc hs hdollar.1
  · exact closeLiteral_careful hc hclose.1
  · exact .stay hs

theorem enterString_careful (hat : c.AtCharacter) : (enterString config c m).Careful care c := by
  unfold enterString
  simp only
  split
  case isTrue =>
    refine .beginsWith hat ?_ 2
    split <;> rfl
  case isFalse =>
    split
    · exact .begins hat rfl
    · exact .begins hat rfl

theorem enterApostrophe_careful (hc : c.Spelled) (hascii : c.byte < 0x80) :
    (enterApostrophe c m).Careful care c := by
  have hat : c.AtCharacter := Cursor.atCharacter_of_ascii hascii
  unfold enterApostrophe
  split_ifs
  · exact .begins hat rfl
  · exact .sign hc hascii _
  · exact .begins hat rfl
  · exact .begins hat rfl

/-! ### Markup -/

theorem enterTag_careful (hat : c.AtCharacter) : (enterTag c m).Careful care c := by
  unfold enterTag
  split
  · have htag : c.Careful care.escape (c.switch .tag).forward :=
      (Cursor.Careful.refl.switch_of_atCharacter hat _).forward
    refine .goesOn htag ?_
    rw [Cursor.state_forward]
    rfl
  · exact .begins hat rfl

theorem state_enterTag (c : Place) (m : Memory) : (enterTag c m).cursor.state = .tag := by
  unfold enterTag
  split
  · rw [Flow.cursor, Cursor.state_forward]
    rfl
  · rfl

theorem closeTag_careful (hc : c.Spelled) (hb : c.byte = greater ∨ c.reads slash greater = true) :
    (closeTag c m).CarefulHere care c := by
  have hascii : c.byte < 0x80 := by
    rcases hb with hb | hb
    · exact hb ▸ by decide
    · exact (Cursor.reads_iff.1 hb).1 ▸ by decide
  have htag : c.Careful care.escape (c.switch .tag) :=
    Cursor.Careful.refl.switch_of_atCharacter (Cursor.atCharacter_of_ascii hascii) _
  have hlast : ∃ d : Place, c.Careful care.escape d ∧ d.byte < 0x80 ∧
      (if (c.byte == slash) = true then (c.switch .tag).forward else c.switch .tag) = d := by
    split
    case isTrue hslash =>
      refine ⟨_, htag.forward, ?_, rfl⟩
      rw [Cursor.byte_forward]
      change c.next < 0x80
      rcases hb with hb | hb
      · rw [beq_iff_eq, hb] at hslash
        exact absurd hslash (by decide)
      · exact (Cursor.reads_iff.1 hb).2 ▸ by decide
    case isFalse => exact ⟨_, htag, hascii, rfl⟩
  obtain ⟨d, hd, hbyte, hlast⟩ := hlast
  unfold closeTag
  simp only [hlast]
  exact Flow.Careful.past hd (hd.spelled hc) hbyte _

/-- Within a tag the rules stand where a character begins, between tags they may stand anywhere. -/
theorem leaveMarkup_careful (hc : c.Spelled)
    (hs : c.state = .markupText ∨ c.state = .markupOther ∧ c.AtCharacter) :
    (leaveMarkup c m).CarefulHere care c := by
  unfold leaveMarkup
  simp only
  split_ifs with hclose hequals happ hquote hname hbrace hless
  · exact closeTag_careful hc hclose
  · have hascii : c.byte < 0x80 := hequals.1 ▸ by decide
    have hat : c.AtCharacter := Cursor.atCharacter_of_ascii hascii
    exact Flow.Careful.past (Cursor.Careful.refl.switch_of_atCharacter hat _) hc hascii _
  · exact Flow.Careful.here (.sign hc (happ.1 ▸ by decide) _) nofun
  · exact Flow.Careful.here (.sign hc (hquote.1 ▸ by decide) _) nofun
  · have hat : c.AtCharacter := by
      rcases hs with hs | hs
      · rw [hs] at hname
        exact absurd hname.1 (by decide)
      · exact hs.2
    exact Flow.Careful.here (Flow.Careful.begins hat rfl) nofun
  · exact Flow.Careful.here (.sign hc (hbrace ▸ by decide) _) nofun
  · refine Flow.Careful.here (enterTag_careful (Cursor.atCharacter_of_eq hless (by decide))) ?_
    rw [state_enterTag]
    nofun
  · rcases hs with hs | ⟨hs, -⟩
    · exact .stay (by rw [hs]; rfl)
    · have hascii : c.byte < 0x80 := by
        refine ascii_of_not_isNameStart fun h => hname ⟨?_, h⟩
        rw [hs]
        rfl
      refine Flow.Careful.here (.skip hc hascii) ?_
      rw [Flow.cursor, hs]
      decide

/-! ### The rules together -/

theorem leave_careful (hc : c.Spelled) (hm : c.MayStand care m) :
    (leave config c m).CarefulHere care c := by
  have hat : care.roomy c.state = false → c.state ≠ .escape → c.AtCharacter :=
    fun hroomy hescape => hm.atCharacter_of hroomy hescape not_false
  unfold leave
  cases hs : c.state
  case operator | punctuation | postfixOperator =>
    exact .leave .refl (hat (by rw [hs]; rfl) (by rw [hs]; nofun))
  case number =>
    dsimp only
    split
    case isTrue => exact .stay (by rw [hs]; rfl)
    case isFalse hnumber =>
      exact .leave .refl (Cursor.atCharacter_of_ascii (ascii_of_not_continuesNumber hnumber))
  case identifier | annotationName | symbol | tag | attributeName =>
    exact leaveWord_careful hc (by rw [hs]; rfl)
  case lineComment => exact .lineLong hc (by rw [hs]; rfl)
  case blockComment | docComment => exact leaveBlockComment_careful hc (by rw [hs]; rfl)
  case commentTag =>
    exact leaveCommentTag_careful hc hs (hat (by rw [hs]; rfl) (by rw [hs]; nofun))
  case escape => exact Escape.leave_careful _ hc hs (hm.of_escape (by rw [hs]; rfl) not_false)
  case markupText => exact leaveMarkup_careful hc (.inl hs)
  case markupOther =>
    exact leaveMarkup_careful hc (.inr ⟨hs, hat (by rw [hs]; rfl) (by rw [hs]; nofun)⟩)
  case backquoted | character | string | interpolated | tripleString | tripleInterpolated |
      singleQuoted | doubleQuoted =>
    exact leaveLiteral_careful hc (by rw [hs]; rfl)
  case plain => exact ⟨.refl, fun _ => hm, fun h => absurd hs h⟩
  case keyword | className | traitName | enumName | functionDefinition | function =>
    exact .stay (by rw [hs]; rfl)

theorem enterOperator_careful (hc : c.Spelled) (hascii : c.byte < 0x80) :
    (enterOperator c m).Careful care c := by
  have hat : c.AtCharacter := Cursor.atCharacter_of_ascii hascii
  unfold enterOperator
  split
  case isTrue htwo => exact .pair hc hascii (htwo.2 ▸ hascii) _
  case isFalse =>
    split
    case isFalse => exact .sign hc hascii _
    case isTrue =>
      unfold enterRegionOperator
      simp only
      split
      · exact .sign hc hascii _
      split
      case isFalse => exact .sign hc hascii _
      case isTrue =>
        split
        · have hsign : c.Careful care.escape (c.switch .punctuation) :=
            Cursor.Careful.refl.switch_of_atCharacter hat _
          exact .past hsign hc hascii _
        · exact .sign hc hascii _

theorem enterBlockComment_careful (hat : c.AtCharacter) :
    (enterBlockComment c m).Careful care c := by
  have hgo : c.Careful care.escape ((c.switch .blockComment).forwardN 2) :=
    (Cursor.Careful.refl.switch_of_atCharacter hat _).forwardN 2
  have hstate : ((c.switch .blockComment).forwardN 2).state = .blockComment :=
    Cursor.state_forwardN 2
  unfold enterBlockComment
  generalize (c.switch .blockComment).forwardN 2 = d at hgo hstate
  simp only
  split
  · exact ⟨hgo.recolor _, .roomy rfl⟩
  · exact ⟨hgo, .roomy (by rw [hstate]; rfl)⟩

theorem enterPunctuation_careful (hc : c.Spelled) (hascii : c.byte < 0x80) :
    (enterPunctuation config c m).Careful care c := by
  have hat : c.AtCharacter := Cursor.atCharacter_of_ascii hascii
  unfold enterPunctuation
  split
  · exact .begins hat rfl
  split
  · exact enterBlockComment_careful hat
  split
  · exact enterString_careful hat
  split
  · exact enterApostrophe_careful hc hascii
  split
  · split
    · exact enterTag_careful hat
    · exact .sign hc hascii _
  split
  · exact .begins hat rfl
  split
  · exact .begins hat rfl
  split
  · exact .begins hat rfl
  split
  · exact .begins hat rfl
  · exact enterOperator_careful hc hascii

theorem enter_careful (hc : c.Spelled) (hs : c.state = .plain) (hm : c.MayStand care m) :
    (enter config c m).Careful care c := by
  have hat : c.AtCharacter :=
    hm.atCharacter_of (by rw [hs]; rfl) (by rw [hs]; nofun) not_false
  unfold enter
  cases hclass : ByteClass.of c.byte
  case digit | nameStart => exact .begins hat rfl
  case punctuation =>
    exact enterPunctuation_careful hc (ByteClass.ascii_of_ne_nameStart (by rw [hclass]; nofun))
  case space | lineEnd | control =>
    exact .skip hc (ByteClass.ascii_of_ne_nameStart (by rw [hclass]; nofun))

/-- The line for the shell begins with two bytes of ASCII. -/
theorem begin_careful (b : LineState) (hat : c.AtCharacter) :
    c.Careful care.escape (begin config c b).1 ∧
      (begin config c b).1.MayStand care (begin config c b).2 := by
  unfold begin
  simp only
  split
  case isTrue =>
    have hgo : c.Careful care.escape (c.switch .lineComment).forward :=
      (Cursor.Careful.refl.switch_of_atCharacter hat _).forward
    refine ⟨hgo, .roomy ?_⟩
    rw [Cursor.state_forward]
    rfl
  case isFalse => exact ⟨.refl, .atCharacter hat⟩

theorem careful (config : Config) : (grammar config).Careful care where
  begin _ b _ hat := begin_careful b hat
  leave _ _ := leave_careful
  enter _ _ := enter_careful

end Highlight.Scala
