import Highlight.Proofs.Language.Scala

/-!
The rules of Scala stay in their line, in whatever state and with whatever data they are asked. What
they pass at once are marks of comments, quotes, and the signs of holes and of markup.
-/

namespace Highlight.Scala

open Byte (newline slash star apostrophe quote dollar lbrace rbrace less greater equals dot colon
  hash bang)

variable {config : Config}

/-! ### Words -/

theorem passSeparator_within (c : Place) : c.Within (passSeparator c) := by
  unfold passSeparator
  split
  case isTrue hsep =>
    have hnl : c.byte ≠ newline := by
      simp only [separates, Bool.or_eq_true, Bool.and_eq_true, beq_iff_eq] at hsep
      rcases hsep with h | h
      · rw [h.1.1]
        decide
      · rw [h.1]
        decide
    exact ((Cursor.Within.refl.switch _).forward hnl).switch _
  case isFalse => exact .refl

theorem leaveWord_within (c : Place) (m : Memory) : c.Within (leaveWord config c m).cursor := by
  unfold leaveWord
  refine (passSeparator_within c).trans ?_
  generalize passSeparator c = c
  simp only
  split_ifs
  · exact .refl
  · split
    · exact .switch .refl _
    · exact ((Cursor.Within.refl.recolor _).remember _).switch _
  · exact .switch .refl _
  · exact .switch .refl _

/-! ### Comments -/

theorem enterBlockComment_within {c : Place} (hb : c.byte = slash) (hn : c.next = star)
    (m : Memory) : c.Within (enterBlockComment c m).cursor := by
  have hgo : c.Within ((c.switch .blockComment).forwardN 2) :=
    (Cursor.Within.refl.switch _).forwardN_two hb (by decide) hn (by decide)
  unfold enterBlockComment
  simp only [Flow.cursor]
  split
  · exact hgo.recolor _
  · exact hgo

theorem closeBlockComment_within {c : Place} (h : c.reads star slash = true) (m : Memory) :
    c.Within (closeBlockComment c m).cursor := by
  obtain ⟨hb, hn⟩ := Cursor.reads_iff.1 h
  have hstar : c.Within c.forward := Cursor.Within.refl.forward_of_eq hb (by decide)
  unfold closeBlockComment
  simp only
  split
  · exact hstar.forwardSwitch_of_eq (Cursor.byte_forward.trans hn) (by decide) _
  · exact hstar

theorem leaveBlockComment_within (c : Place) (m : Memory) :
    c.Within (leaveBlockComment c m).cursor := by
  unfold leaveBlockComment
  generalize (if c.atLineStart then { m with flags := { comment := true } } else m) = n
  simp only
  split_ifs with hclose hopen htag
  · exact closeBlockComment_within hclose n
  · exact Cursor.Within.refl.forward_of_eq (Cursor.reads_iff.1 hopen).1 (by decide)
  · exact .switch .refl _
  · exact .refl

/-! ### Quoted forms -/

theorem enterInterpolation_within {c : Place} (hb : c.byte = dollar) (m : Memory) :
    c.Within (enterInterpolation c m).cursor := by
  unfold enterInterpolation
  split_ifs
  · exact (Cursor.Within.refl.switch _).forward_of_eq hb (by decide)
  · exact (Cursor.Within.refl.switch _).forward_of_eq hb (by decide)
  · exact .switch .refl _
  · exact .refl

theorem closingByte_ne_newline (s : Category) : s.closingByte ≠ newline := by
  unfold Category.closingByte
  split <;> decide

theorem closeLiteral_within {c : Place} (hb : c.byte = c.state.closingByte) (m : Memory) :
    c.Within (closeLiteral c m).cursor := by
  have hnl := closingByte_ne_newline c.state
  unfold closeLiteral
  simp only [Flow.cursor]
  split
  · -- the last quote of the run is passed, and it is a quote as the first one is
    have hlast : c.Within c.toLastOfRun := Cursor.Within.refl.toLastOfRun (hb ▸ hnl)
    exact hlast.forwardSwitch_of_eq (Cursor.byte_toLastOfRun.trans hb) hnl _
  · exact Cursor.Within.refl.forwardSwitch_of_eq hb hnl _

theorem leaveLiteral_within (c : Place) (m : Memory) : c.Within (leaveLiteral c m).cursor := by
  unfold leaveLiteral
  simp only
  split_ifs with hstart hback hdollar hclose
  · exact .switch .refl _
  · exact Escape.enter_within _ _ (by rw [hback]; decide) _ _
  · exact enterInterpolation_within hdollar.1 m
  · exact closeLiteral_within hclose.1 m
  · exact .refl

theorem enterString_within {c : Place} (hb : c.byte = quote) (m : Memory) :
    c.Within (enterString config c m).cursor := by
  unfold enterString
  simp only
  split
  case isTrue htwo =>
    have hnext : c.next = quote := by
      simp only [Cursor.readsNext, Bool.and_eq_true, beq_iff_eq] at htwo
      exact htwo.1
    exact (Cursor.Within.refl.switch _).forwardN_two hb (by decide) hnext (by decide)
  case isFalse => exact .switch .refl _

theorem enterApostrophe_within (c : Place) (m : Memory) :
    c.Within (enterApostrophe c m).cursor := by
  unfold enterApostrophe
  split_ifs <;> exact .switch .refl _

/-! ### Markup -/

theorem enterTag_within {c : Place} (hb : c.byte = less) (m : Memory) :
    c.Within (enterTag c m).cursor := by
  unfold enterTag
  split
  · exact (Cursor.Within.refl.switch _).forward_of_eq hb (by decide)
  · exact .switch .refl _

/-- A tag ends with a greater-than sign, which a slash may precede. -/
theorem closeTag_within {c : Place} (h : c.byte = greater ∨ c.reads slash greater = true)
    (m : Memory) : c.Within (closeTag c m).cursor := by
  have hswitch : c.Within (c.switch .tag) := .switch .refl _
  unfold closeTag
  simp only [Flow.cursor, beq_iff_eq]
  by_cases hempty : c.byte = slash
  · have hnext : c.next = greater := by
      rcases h with h | h
      · rw [hempty] at h
        exact absurd h (by decide)
      · exact (Cursor.reads_iff.1 h).2
    have hpass : c.Within (c.switch .tag).forward := hswitch.forward_of_eq hempty (by decide)
    simp only [if_pos hempty]
    exact hpass.forwardSwitch_of_eq (Cursor.byte_forward.trans hnext) (by decide) _
  · have hb : c.byte = greater :=
      h.resolve_right fun h => hempty (Cursor.reads_iff.1 h).1
    simp only [if_neg hempty]
    exact hswitch.forwardSwitch_of_eq hb (by decide) _

theorem leaveMarkup_within (c : Place) (m : Memory) : c.Within (leaveMarkup c m).cursor := by
  unfold leaveMarkup
  simp only
  split_ifs with hclose hequals _ _ _ _ hless
  · exact closeTag_within hclose m
  · exact (Cursor.Within.refl.switch _).forwardSwitch_of_eq hequals.1 (by decide) _
  · exact .switch .refl _
  · exact .switch .refl _
  · exact .switch .refl _
  · exact .switch .refl _
  · exact enterTag_within hless m
  · exact .refl

/-! ### The rules together -/

theorem leave_within (c : Place) (m : Memory) : c.Within (leave config c m).cursor := by
  unfold leave
  cases c.state
  case operator | punctuation | postfixOperator => exact .switch .refl _
  case number =>
    dsimp only
    split
    · exact .refl
    · exact .switch .refl _
  case identifier | annotationName | symbol | tag | attributeName => exact leaveWord_within c m
  case lineComment =>
    dsimp only
    split
    · exact .switch .refl _
    · exact .refl
  case blockComment | docComment => exact leaveBlockComment_within c m
  case commentTag =>
    dsimp only
    unfold leaveCommentTag
    split
    · exact .refl
    · exact .switch .refl _
  case escape => exact Escape.leave_within _ _ _
  case markupText | markupOther => exact leaveMarkup_within c m
  case backquoted | character | string | interpolated | tripleString | tripleInterpolated |
      singleQuoted | doubleQuoted => exact leaveLiteral_within c m
  case plain | keyword | className | traitName | enumName | functionDefinition | function =>
    exact .refl

theorem enterRegionOperator_within (c : Place) (m : Memory) :
    c.Within (enterRegionOperator c m).cursor := by
  unfold enterRegionOperator
  simp only
  split_ifs with hopen hclose
  · exact .switch .refl _
  · split
    · exact (Cursor.Within.refl.switch _).forwardSwitch_of_eq hclose (by decide) _
    · exact .switch .refl _
  · exact .switch .refl _

theorem enterOperator_within (c : Place) (m : Memory) : c.Within (enterOperator c m).cursor := by
  unfold enterOperator
  split
  case isTrue htwo =>
    have hnl : c.byte ≠ newline := by
      rcases htwo.1 with hb | hb <;> rw [hb] <;> decide
    exact (Cursor.Within.refl.switch _).forward hnl
  case isFalse =>
    split
    · exact enterRegionOperator_within c m
    · exact .switch .refl _

theorem enterPunctuation_within (c : Place) (m : Memory) :
    c.Within (enterPunctuation config c m).cursor := by
  refine enterPunctuation_cases (motive := fun r => c.Within r.cursor) ?line ?block ?string ?letter
    ?tag ?sign ?name ?operator
  case line | name => exact .switch .refl _
  case block => exact fun hslash hstar => enterBlockComment_within hslash hstar m
  case string => exact fun hquote => enterString_within hquote m
  case letter => exact enterApostrophe_within c m
  case tag => exact fun hless => enterTag_within hless m
  case sign => exact fun s _ => .switch .refl s
  case operator => exact enterOperator_within c m

theorem staysInLine (config : Config) : (grammar config).StaysInLine where
  begin c before := by
    change c.Within (begin config c before).1
    unfold begin
    split
    case isTrue hshell =>
      exact (Cursor.Within.refl.switch _).forward_of_eq (Cursor.reads_iff.1 hshell.2).1 (by decide)
    case isFalse => exact .refl
  leave := leave_within
  enter c m := by
    change c.Within (enter config c m).cursor
    unfold enter
    cases ByteClass.of c.byte
    case digit | nameStart => exact .switch .refl _
    case punctuation => exact enterPunctuation_within c m
    case space | lineEnd | control => exact .refl

end Highlight.Scala
