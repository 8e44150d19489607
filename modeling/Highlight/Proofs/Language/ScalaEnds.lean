import Highlight.Proofs.Language.ScalaMoves
import Highlight.Proofs.Scan.LineEnd

/-!
Where the rules of Scala let go of a byte, and how they come to the end of a line.
-/

namespace Highlight.Scala

open Byte (Blind Inline atSign apostrophe backquote backslash bang carriageReturn colon
  continuesNumber dollar dot equals greater hash inline_isNameByte inline_isNameStart isAlpha
  isDigit lbrace less minus newline plus precedesTag question quote rbrace rbracket rparen slash
  star startsNumber)

variable {config : Config} {c : Place} {m : Memory}

/-! ### Settling -/

/-- Words, tags of comments and escapes hand their byte over to what they stand in, which passes on
whatever it ends at. -/
def rank : Category → Nat
  | .identifier | .annotationName | .symbol | .tag | .attributeName | .commentTag | .escape => 1
  | _ => 0

/-- Escapes and references stand in strings. -/
structure Literal (m : Memory) : Prop where
  escape : rank m.escape.outer = 0
  reference : ∀ s ∈ m.reference, rank s = 0

theorem passSeparator_suffix : (passSeparator c).ahead <:+ c.ahead ∧
    (passSeparator c).state = c.state := by
  refine ⟨(passSeparator_within c).onward.ahead, ?_⟩
  unfold passSeparator
  split <;> rfl

theorem leaveWord_settling (hs : rank c.state = 1) (hm : Literal m) :
    (leaveWord config c m).Settling rank Literal c := by
  obtain ⟨hahead, hstate⟩ := passSeparator_suffix (c := c)
  refine Flow.Settling.after ?_ hahead (Nat.le_of_eq (congrArg rank hstate))
  rw [← hstate] at hs
  unfold leaveWord
  generalize passSeparator c = c at hs
  simp only
  split_ifs
  · exact hm
  · split
    case h_1 outer hreference =>
      have hzero : rank outer = 0 := hm.reference outer hreference
      refine ⟨⟨hm.escape, nofun⟩, .inr ?_⟩
      rw [hs]
      exact hzero ▸ Nat.zero_lt_one
    case h_2 =>
      refine ⟨⟨?_, ?_⟩, .inr (by rw [hs]; exact Nat.zero_lt_one)⟩ <;> unfold classifyName <;>
        simp only <;> split
      · exact hm.escape
      · exact hm.escape
      · exact hm.reference
      · exact hm.reference
  · exact ⟨hm, .inr (by rw [hs]; exact Nat.zero_lt_one)⟩
  · exact ⟨hm, .inr (by rw [hs]; exact Nat.zero_lt_one)⟩

theorem leaveLiteral_settling (hs : rank c.state = 0) (hm : Literal m) :
    (leaveLiteral c m).Settling rank Literal c := by
  unfold leaveLiteral
  simp only
  split_ifs with hstart hback hdollar hclose
  · exact hm
  · exact Escape.enter_settling _ _ hm fun e he => ⟨by rw [he, hs], hm.reference⟩
  · unfold enterInterpolation
    split_ifs
    · exact ⟨hs, hm.reference⟩
    · exact ⟨hm.escape, hm.reference⟩
    · refine ⟨hm.escape, fun s h => ?_⟩
      obtain rfl := Option.some.inj h
      exact hs
    · exact hm
  · have hzero : c.byte ≠ 0 := by
      rw [hclose.1]
      unfold Category.closingByte
      split <;> decide
    unfold closeLiteral
    simp only
    split
    · refine .moved hm ?_ (by rwa [Cursor.byte_toLastOfRun]) _
      rw [Cursor.toLastOfRun, Cursor.ahead_forwardN]
      exact List.drop_suffix _ _
    · exact .moved hm (List.suffix_refl _) hzero _
  · exact hm

theorem leaveBlockComment_settling (hm : Literal m) :
    (leaveBlockComment c m).Settling rank Literal c := by
  unfold leaveBlockComment closeBlockComment
  simp only
  split_ifs <;> exact ⟨hm.escape, hm.reference⟩

theorem enterTag_settling (hm : Literal m) : (enterTag c m).Settling rank Literal c := by
  unfold enterTag
  split_ifs <;> exact ⟨hm.escape, hm.reference⟩

theorem closeTag_settling (h : c.byte = greater ∨ c.reads slash greater = true)
    (hm : Literal m) : (closeTag c m).Settling rank Literal c := by
  unfold closeTag
  simp only [beq_iff_eq]
  by_cases hempty : c.byte = slash
  · have hnext : c.next = greater := by
      rcases h with h | h
      · rw [hempty] at h
        exact absurd h (by decide)
      · exact (Cursor.reads_iff.1 h).2
    simp only [if_pos hempty]
    refine .moved (c := c) (d := (c.switch .tag).forward) ⟨hm.escape, hm.reference⟩
      (Cursor.Onward.forward (c.switch .tag)).ahead ?_ _
    rw [Cursor.byte_forward]
    change c.next ≠ 0
    rw [hnext]
    decide
  · have hb : c.byte = greater :=
      h.resolve_right fun h => hempty (Cursor.reads_iff.1 h).1
    simp only [if_neg hempty]
    refine .moved (c := c) (d := c.switch .tag) hm (List.suffix_refl _) ?_ _
    change c.byte ≠ 0
    rw [hb]
    decide

theorem leaveMarkup_settling (hm : Literal m) : (leaveMarkup c m).Settling rank Literal c := by
  unfold leaveMarkup
  simp only
  split_ifs with hclose hequals
  · exact closeTag_settling hclose hm
  · exact .moved (c := c) (d := c.switch .punctuation) hm (List.suffix_refl _)
      (by change c.byte ≠ 0; rw [hequals.1]; decide) _
  · exact hm
  · exact hm
  · exact hm
  · exact ⟨hm.escape, hm.reference⟩
  · exact enterTag_settling hm
  · exact hm

theorem enterOperator_settling (hm : Literal m) : (enterOperator c m).Settling rank Literal c := by
  unfold enterOperator
  split
  case isTrue => exact hm
  case isFalse =>
    split
    case isTrue =>
      unfold enterRegionOperator
      simp only
      split_ifs with hopen hclose
      · exact ⟨hm.escape, hm.reference⟩
      · split
        · refine .moved (c := c) (d := c.switch .punctuation) ⟨hm.escape, hm.reference⟩
            (List.suffix_refl _) ?_ _
          rw [show (c.switch .punctuation).byte = rbrace from hclose]
          decide
        · exact hm
      · exact hm
    case isFalse =>
      change Literal _
      split
      · exact ⟨hm.escape, hm.reference⟩
      · exact hm

theorem enterPunctuation_settling (hm : Literal m) :
    (enterPunctuation config c m).Settling rank Literal c := by
  refine enterPunctuation_cases (motive := fun r => r.Settling rank Literal c) ?line ?block ?string
    ?letter ?tag ?sign ?name ?operator
  case line =>
    unfold enterLineComment
    change Literal _
    split
    · exact ⟨hm.escape, hm.reference⟩
    · exact hm
  case block =>
    intro hslash _
    unfold enterBlockComment
    simp only
    refine .passed (n := 1) ?_ (by rw [hslash]; decide) ?_
    · split
      · exact ⟨hm.escape, hm.reference⟩
      · exact ⟨hm.escape, hm.reference⟩
    · have hahead : ((c.switch .blockComment).forwardN 2).ahead = c.ahead.drop 2 :=
        Cursor.ahead_forwardN 2
      split <;> exact hahead
  case string =>
    intro _
    unfold enterString
    simp only
    split <;> exact hm
  case letter =>
    unfold enterApostrophe
    split_ifs <;> exact hm
  case tag => exact fun _ => enterTag_settling hm
  case sign => exact fun _ _ => hm
  case name => exact ⟨hm.escape, nofun⟩
  case operator => exact enterOperator_settling hm

theorem settles (config : Config) : (grammar config).Settles rank Literal where
  low s := by cases s <;> decide
  plain := rfl
  begin _ _ := ⟨rfl, nofun⟩
  leave c m hm := by
    change (leave config c m).Settling rank Literal c
    unfold leave
    cases hs : c.state
    case operator | punctuation | postfixOperator => exact hm
    case number | lineComment =>
      dsimp only
      split <;> exact hm
    case identifier | annotationName | symbol | tag | attributeName =>
      exact leaveWord_settling (by rw [hs]; rfl) hm
    case blockComment | docComment => exact leaveBlockComment_settling hm
    case commentTag =>
      dsimp only
      unfold leaveCommentTag
      split
      · exact hm
      · exact ⟨hm, .inr (by rw [hs]; exact Nat.zero_lt_one)⟩
    case escape =>
      exact Escape.leave_settling _ ⟨hm.escape, hm.reference⟩
        (by rw [hs]; exact hm.escape ▸ Nat.zero_lt_one)
    case markupText | markupOther => exact leaveMarkup_settling hm
    case backquoted | character | string | interpolated | tripleString | tripleInterpolated |
        singleQuoted | doubleQuoted => exact leaveLiteral_settling (by rw [hs]; rfl) hm
    case plain | keyword | className | traitName | enumName | functionDefinition | function =>
      exact hm
  enter c m hm := by
    change (enter config c m).Settling rank Literal c
    unfold enter
    cases ByteClass.of c.byte
    case digit => exact hm
    case nameStart => exact ⟨hm.escape, nofun⟩
    case punctuation => exact enterPunctuation_settling hm
    case space | lineEnd | control => exact hm
  endLine _ _ hm := ⟨hm.escape, hm.reference⟩

/-! ### Ends of lines -/

theorem inline_isNameByte' : Inline isNameByte := by decide
theorem inline_isNameStart' : Inline isNameStart := by decide

theorem classifyName_lineOnly (c : Place) (m : Memory) :
    classifyName config c.lineOnly m =
      ((classifyName config c m).1.lineOnly, (classifyName config c m).2) := by
  unfold classifyName
  simp only [Occurrence.classify_lineOnly]
  rfl

theorem separates_lineOnly : separates c.lineOnly = separates c :=
  Cursor.blind_byte (f := fun b => b == dot && c.state != .identifier && c.state != .symbol ||
    b == colon && c.state.isMarkupName) ⟨by simp, by simp⟩ c

/-- A separator stands within the line. -/
theorem not_atEnd_of_separates (h : separates c = true) : ¬c.AtEnd := by
  simp only [separates, Bool.or_eq_true, Bool.and_eq_true, beq_iff_eq] at h
  rcases h with h | h
  · exact Cursor.not_atEnd_of_eq h.1.1 (by decide)
  · exact Cursor.not_atEnd_of_eq h.1 (by decide)

theorem passSeparator_lineOnly : passSeparator c.lineOnly = (passSeparator c).lineOnly := by
  unfold passSeparator
  rw [separates_lineOnly]
  split
  case isTrue hsep =>
    have hnot : ¬c.AtEnd := not_atEnd_of_separates hsep
    rw [← Cursor.lineOnly_switch, Cursor.forwardSwitch_lineOnly (c := c.switch .punctuation) hnot]
    rfl
  case isFalse => rfl

theorem continuesWord_lineOnly : continuesWord c.lineOnly = continuesWord c :=
  Cursor.blind_byte (f := fun b => isNameByte b || b == minus && c.state.isMarkupName)
    ⟨by simp [inline_isNameByte'.blind.zero], by simp [inline_isNameByte'.blind.carriageReturn]⟩ c

theorem leaveWord_lineOnly (c : Place) (m : Memory) :
    leaveWord config c.lineOnly m = (leaveWord config c m).lineOnly := by
  unfold leaveWord
  rw [passSeparator_lineOnly]
  generalize passSeparator c = d
  dsimp +instances only [Cursor.state_lineOnly]
  simp only [continuesWord_lineOnly, classifyName_lineOnly]
  split_ifs
  · rfl
  · cases m.reference <;> rfl
  · rfl
  · rfl

theorem closeBlockComment_lineOnly (h : c.reads star slash = true) :
    closeBlockComment c.lineOnly m = (closeBlockComment c m).lineOnly := by
  obtain ⟨hb, hn⟩ := Cursor.reads_iff.1 h
  have hslash : ¬c.forward.AtEnd :=
    Cursor.not_atEnd_of_eq (Cursor.byte_forward.trans hn) (by decide)
  unfold closeBlockComment
  rw [Cursor.forward_lineOnly (Cursor.not_atEnd_of_eq hb (by decide))]
  simp only [Cursor.forwardSwitch_lineOnly hslash, Cursor.nextVisible_lineOnly]
  split_ifs <;> rfl

theorem leaveBlockComment_lineOnly (c : Place) (m : Memory) :
    leaveBlockComment c.lineOnly m = (leaveBlockComment c m).lineOnly := by
  have htag : c.lineOnly.byte = atSign ∧ isAlpha c.lineOnly.next = true ↔
      c.byte = atSign ∧ isAlpha c.next = true := by
    rw [Cursor.byte_lineOnly_eq (show atSign.Inner by decide)]
    refine and_congr_right fun h => ?_
    rw [Cursor.blind_next (show Inline isAlpha by decide).blind
      (Cursor.not_atEnd_of_eq h (by decide))]
  unfold leaveBlockComment
  dsimp +instances only [Cursor.state_lineOnly, Cursor.atLineStart_lineOnly, Cursor.behind_lineOnly]
  rw [Cursor.reads_lineOnly (by decide) (by decide), Cursor.reads_lineOnly (by decide) (by decide)]
  generalize (if c.atLineStart then { m with flags := { comment := true } } else m) = n
  simp only [← and_assoc (b := isAlpha _ = true), htag]
  split_ifs with hclose hopen
  · exact closeBlockComment_lineOnly hclose
  · rw [Cursor.forward_lineOnly
      (Cursor.not_atEnd_of_eq (Cursor.reads_iff.1 hopen).1 (by decide))]
    rfl
  · rfl
  · rfl

theorem enterInterpolation_lineOnly (hb : c.byte = dollar) :
    enterInterpolation c.lineOnly m = (enterInterpolation c m).lineOnly := by
  have hnot : ¬c.AtEnd := Cursor.not_atEnd_of_eq hb (by decide)
  have hgo : ∀ s, (c.lineOnly.switch s).forward = (c.switch s).forward.lineOnly := fun s =>
    Cursor.forward_lineOnly (c := c.switch s) hnot
  unfold enterInterpolation
  simp (disch := decide) only [Cursor.next_lineOnly_eq (h := hnot),
    Cursor.blind_next inline_isNameStart'.blind hnot, hgo]
  split_ifs <;> rfl

theorem closingByte_inner (s : Category) : s.closingByte.Inner := by
  unfold Category.closingByte
  split <;> decide

theorem closeLiteral_lineOnly (hb : c.byte = c.state.closingByte) :
    closeLiteral c.lineOnly m = (closeLiteral c m).lineOnly := by
  have hinner : c.byte.Inner := hb ▸ closingByte_inner c.state
  have hnot := Cursor.not_atEnd hinner
  have hlast : ¬c.toLastOfRun.AtEnd := Cursor.not_atEnd (by rwa [Cursor.byte_toLastOfRun])
  unfold closeLiteral
  dsimp +instances only [Cursor.state_lineOnly]
  simp only [Cursor.toLastOfRun_lineOnly hnot, Flow.lineOnly_again]
  split
  · rw [Cursor.forwardSwitch_lineOnly hlast]
  · rw [Cursor.forwardSwitch_lineOnly hnot]

theorem leaveLiteral_lineOnly (c : Place) (m : Memory) :
    leaveLiteral c.lineOnly m = (leaveLiteral c m).lineOnly := by
  have hclosing := closingByte_inner c.state
  have hclose : c.lineOnly.byte = c.state.closingByte ∧
      (c.state.endsWithLine = true ∨ c.lineOnly.readsNext quote quote = true) ↔
      c.byte = c.state.closingByte ∧
        (c.state.endsWithLine = true ∨ c.readsNext quote quote = true) := by
    rw [Cursor.byte_lineOnly_eq hclosing]
    refine and_congr_right fun h => ?_
    rw [Cursor.readsNext_lineOnly (by decide) (by decide) (Cursor.not_atEnd_of_eq h hclosing)]
  unfold leaveLiteral
  dsimp +instances only [Cursor.state_lineOnly, Cursor.atLineStart_lineOnly]
  simp (disch := decide) only [Cursor.byte_lineOnly_eq, hclose]
  split_ifs with hstart hback hdollar hclosed
  · rfl
  · exact Escape.enter_lineOnly _ _ (Cursor.not_atEnd_of_eq hback (by decide))
  · exact enterInterpolation_lineOnly hdollar.1
  · exact closeLiteral_lineOnly hclosed.1
  · rfl

theorem enterTag_lineOnly (h : ¬c.AtEnd) :
    enterTag c.lineOnly m = (enterTag c m).lineOnly := by
  have hgo : (c.lineOnly.switch .tag).forward = (c.switch .tag).forward.lineOnly :=
    Cursor.forward_lineOnly (c := c.switch .tag) h
  unfold enterTag
  simp only [Cursor.next_lineOnly_eq (show slash.Inner by decide) h, hgo]
  split <;> rfl

theorem closeTag_lineOnly (h : c.byte = greater ∨ c.reads slash greater = true) :
    closeTag c.lineOnly m = (closeTag c m).lineOnly := by
  have hinner : c.byte.Inner := by
    rcases h with h | h
    · rw [h]
      decide
    · rw [(Cursor.reads_iff.1 h).1]
      decide
  have hnot := Cursor.not_atEnd hinner
  unfold closeTag
  simp only [Cursor.byte_lineOnly hnot, beq_iff_eq]
  by_cases hempty : c.byte = slash
  · have hnext : c.next = greater := by
      rcases h with h | h
      · rw [hempty] at h
        exact absurd h (by decide)
      · exact (Cursor.reads_iff.1 h).2
    have hgo : (c.lineOnly.switch .tag).forward = (c.switch .tag).forward.lineOnly :=
      Cursor.forward_lineOnly (c := c.switch .tag) hnot
    have hlast : ¬(c.switch .tag).forward.AtEnd :=
      Cursor.not_atEnd_of_eq (Cursor.byte_forward.trans hnext) (by decide)
    simp only [if_pos hempty, hgo, Cursor.forwardSwitch_lineOnly hlast]
    rfl
  · simp only [if_neg hempty]
    rw [← Cursor.lineOnly_switch, Cursor.forwardSwitch_lineOnly (c := c.switch .tag) hnot]
    rfl

theorem leaveMarkup_lineOnly (c : Place) (m : Memory) :
    leaveMarkup c.lineOnly m = (leaveMarkup c m).lineOnly := by
  unfold leaveMarkup
  dsimp +instances only [Cursor.state_lineOnly]
  simp (disch := decide) only [Cursor.byte_lineOnly_eq, Cursor.reads_lineOnly,
    Cursor.blind_byte inline_isNameStart'.blind]
  refine Flow.ite_lineOnly (fun hclose => closeTag_lineOnly hclose) fun _ => ?_
  refine Flow.ite_lineOnly (fun hequals => ?_) fun _ => ?_
  · rw [← Cursor.lineOnly_switch, Cursor.forwardSwitch_lineOnly (c := c.switch .punctuation)
      (Cursor.not_atEnd_of_eq (b := equals) hequals.1 (by decide))]
    rfl
  refine Flow.ite_lineOnly (fun _ => rfl) fun _ => ?_
  refine Flow.ite_lineOnly (fun _ => rfl) fun _ => ?_
  refine Flow.ite_lineOnly (fun _ => rfl) fun _ => ?_
  refine Flow.ite_lineOnly (fun _ => rfl) fun _ => ?_
  exact Flow.ite_lineOnly
    (fun hless => enterTag_lineOnly (Cursor.not_atEnd_of_eq hless (by decide))) fun _ => rfl

theorem leave_lineOnly (c : Place) (m : Memory) :
    leave config c.lineOnly m = (leave config c m).lineOnly := by
  unfold leave
  rw [Cursor.state_lineOnly, Cursor.continuesNumber_lineOnly, Cursor.atLineStart_lineOnly]
  cases c.state
  case operator | punctuation | postfixOperator => rfl
  case number | lineComment => dsimp only; split <;> rfl
  case identifier | annotationName | symbol | tag | attributeName => exact leaveWord_lineOnly c m
  case blockComment | docComment => exact leaveBlockComment_lineOnly c m
  case commentTag =>
    dsimp only
    unfold leaveCommentTag
    rw [Cursor.blind_byte (show Inline isAlpha by decide).blind]
    split <;> rfl
  case escape => exact Escape.leave_lineOnly m.escape
  case markupText | markupOther => exact leaveMarkup_lineOnly c m
  case backquoted | character | string | interpolated | tripleString | tripleInterpolated |
      singleQuoted | doubleQuoted => exact leaveLiteral_lineOnly c m
  case plain | keyword | className | traitName | enumName | functionDefinition | function => rfl

/-! ### What begins -/

/-- At the end of a line nothing begins. -/
theorem enter_atEnd (h : c.AtEnd) : enter config c m = .pass c m := by
  unfold enter
  rcases Text.AtEnd.getD_zero h with e | e | e <;> rw [show c.byte = _ from e] <;> rfl

theorem enterBlockComment_lineOnly (hb : c.byte = slash) (hn : c.next = star) :
    enterBlockComment c.lineOnly m = (enterBlockComment c m).lineOnly := by
  have hgo : (c.lineOnly.switch .blockComment).forwardN 2 =
      ((c.switch .blockComment).forwardN 2).lineOnly :=
    Cursor.forwardN_two_lineOnly (c := c.switch .blockComment)
      (Cursor.not_atEnd_of_eq (b := slash) hb (by decide))
      (Cursor.not_atEnd_of_eq (Cursor.byte_forward.trans hn) (by decide))
  unfold enterBlockComment
  dsimp +instances only [Cursor.visible_lineOnly]
  generalize (if c.visible = 0 then m.markComment else m) = n
  simp only [hgo]
  generalize (c.switch .blockComment).forwardN 2 = d
  have hdoc : d.lineOnly.byte = star ∧ d.lineOnly.next ≠ star ↔ d.byte = star ∧ d.next ≠ star := by
    rw [Cursor.byte_lineOnly_eq (show star.Inner by decide)]
    refine and_congr_right fun h => not_congr ?_
    exact Cursor.next_lineOnly_eq (by decide) (Cursor.not_atEnd_of_eq h (by decide))
  simp only [hdoc]
  split_ifs <;> rfl

theorem enterString_lineOnly (hb : c.byte = quote) :
    enterString config c.lineOnly m = (enterString config c m).lineOnly := by
  have hnot : ¬c.AtEnd := Cursor.not_atEnd_of_eq hb (by decide)
  have hsame : startsInterpolated config c.lineOnly = startsInterpolated config c := rfl
  unfold enterString
  rw [hsame, Cursor.readsNext_lineOnly (by decide) (by decide) hnot]
  simp only
  split
  case isTrue htwo =>
    have hnext : c.next = quote := by
      simp only [Cursor.readsNext, Bool.and_eq_true, beq_iff_eq] at htwo
      exact htwo.1
    rw [← Cursor.lineOnly_switch, Cursor.forwardN_two_lineOnly (c := c.switch _) hnot
      (Cursor.not_atEnd_of_eq (Cursor.byte_forward.trans hnext) (by decide))]
    rfl
  case isFalse => rfl

/-- With nothing between it and the end of the line, an apostrophe begins a character. -/
theorem enterApostrophe_atEnd (h : c.forward.AtEnd) :
    enterApostrophe c m = .pass (c.switch .character) m := by
  have hbrace : c.next ≠ lbrace := Cursor.byte_forward (c := c) ▸ h.byte_ne (by decide)
  have hname : isNameStart c.next = false :=
    Cursor.byte_forward (c := c) ▸ h.kind inline_isNameStart'
  unfold enterApostrophe
  simp [hbrace, hname]

theorem enterApostrophe_lineOnly (h : ¬c.AtEnd) :
    enterApostrophe c.lineOnly m = (enterApostrophe c m).lineOnly := by
  by_cases hend : c.forward.AtEnd
  · rw [enterApostrophe_atEnd hend, enterApostrophe_atEnd]
    · rfl
    · rw [Cursor.forward_lineOnly h]
      exact hend.lineOnly
  · have hpeek : c.lineOnly.peek 2 = apostrophe ↔ c.peek 2 = apostrophe := by
      rw [← Cursor.peek_forward, Cursor.forward_lineOnly h, ← Cursor.peek_forward (c := c)]
      exact Cursor.next_lineOnly_eq (by decide) hend
    unfold enterApostrophe
    simp (disch := decide) only [hpeek, Cursor.next_lineOnly_eq (h := h),
      Cursor.blind_next inline_isNameStart'.blind h]
    split_ifs <;> rfl

theorem opensTag_lineOnly (h : ¬c.AtEnd) : opensTag c.lineOnly = opensTag c := by
  have hname : (isNameByte c.lineOnly.next || c.lineOnly.next == bang ||
      c.lineOnly.next == question) = (isNameByte c.next || c.next == bang || c.next == question) :=
    Cursor.blind_next (f := fun b => isNameByte b || b == bang || b == question)
      ⟨by decide, by decide⟩ h
  unfold opensTag
  rw [hname]
  rfl

theorem enterRegionOperator_lineOnly (h : ¬c.AtEnd) :
    enterRegionOperator c.lineOnly m = (enterRegionOperator c m).lineOnly := by
  have hbyte : (c.lineOnly.switch .punctuation).byte = (c.switch .punctuation).byte :=
    Cursor.byte_lineOnly h
  unfold enterRegionOperator
  simp only [hbyte]
  split_ifs with hopen hclose
  · rfl
  · cases m.regions.pop? with
    | none => rfl
    | some q =>
      simp only
      rw [← Cursor.lineOnly_switch, Cursor.forwardSwitch_lineOnly (c := c.switch .punctuation) h]
      rfl
  · rfl

theorem enterOperator_lineOnly (h : ¬c.AtEnd) :
    enterOperator c.lineOnly m = (enterOperator c m).lineOnly := by
  have htwo : (c.byte = plus ∨ c.byte = minus) ∧ c.lineOnly.next = c.byte ↔
      (c.byte = plus ∨ c.byte = minus) ∧ c.next = c.byte := by
    refine and_congr_right fun hb => Cursor.next_lineOnly_eq ?_ h
    rcases hb with hb | hb <;> rw [hb] <;> decide
  unfold enterOperator
  dsimp +instances only [Cursor.visible_lineOnly]
  simp only [Cursor.byte_lineOnly h, htwo, enterRegionOperator_lineOnly h]
  split
  case isTrue =>
    rw [← Cursor.lineOnly_switch, Cursor.forward_lineOnly (c := c.switch .postfixOperator) h]
    rfl
  case isFalse => split_ifs <;> rfl

theorem enterPunctuation_lineOnly (h : ¬c.AtEnd) :
    enterPunctuation config c.lineOnly m = (enterPunctuation config c m).lineOnly := by
  have hnumber : startsNumber c.byte c.lineOnly.next = startsNumber c.byte c.next :=
    Cursor.blind_next (f := startsNumber c.byte)
      ⟨by simp [startsNumber, isDigit], by simp [startsNumber, isDigit]⟩ h
  unfold enterPunctuation
  simp (disch := decide) only [Cursor.byte_lineOnly h, Cursor.next_lineOnly_eq (h := h), hnumber,
    opensTag_lineOnly h, Cursor.blind_next inline_isNameStart'.blind h]
  refine Flow.ite_lineOnly (fun _ => rfl) fun _ => ?_
  refine Flow.ite_lineOnly (fun hblock => enterBlockComment_lineOnly hblock.1 hblock.2) fun _ => ?_
  refine Flow.ite_lineOnly (fun hquote => enterString_lineOnly hquote) fun _ => ?_
  refine Flow.ite_lineOnly (fun _ => enterApostrophe_lineOnly h) fun _ => ?_
  refine Flow.ite_lineOnly (fun _ => ?_) fun _ => ?_
  · exact Flow.ite_lineOnly (fun _ => enterTag_lineOnly h) fun _ => rfl
  refine Flow.ite_lineOnly (fun _ => rfl) fun _ => ?_
  refine Flow.ite_lineOnly (fun _ => rfl) fun _ => ?_
  refine Flow.ite_lineOnly (fun _ => rfl) fun _ => ?_
  exact Flow.ite_lineOnly (fun _ => rfl) fun _ => enterOperator_lineOnly h

theorem enter_lineOnly (c : Place) (m : Memory) :
    enter config c.lineOnly m = (enter config c m).lineOnly := by
  by_cases h : c.AtEnd
  · rw [enter_atEnd h, enter_atEnd h.lineOnly]
    rfl
  · unfold enter
    rw [Cursor.byte_lineOnly h]
    cases ByteClass.of c.byte
    case digit | nameStart | space | lineEnd | control => rfl
    case punctuation => exact enterPunctuation_lineOnly h

theorem begin_lineOnly (c : Place) (before : LineState) :
    begin config c.lineOnly before =
      ((begin config c before).1.lineOnly, (begin config c before).2) := by
  unfold begin
  rw [Cursor.reads_lineOnly (by decide) (by decide), show c.lineOnly.pos = c.pos from rfl]
  split
  case isTrue hshell =>
    have hnot : ¬c.AtEnd := Cursor.not_atEnd_of_eq (Cursor.reads_iff.1 hshell.2).1 (by decide)
    rw [← Cursor.lineOnly_switch, Cursor.forward_lineOnly (c := c.switch .lineComment) hnot]
    rfl
  case isFalse => rfl

/-! ### Rest -/

/-- Everything but comments, strings and markup ends with its line at the latest. -/
def isCalm : Category → Bool
  | .operator | .punctuation | .postfixOperator | .number | .identifier | .annotationName | .symbol
  | .tag | .attributeName | .commentTag | .escape => false
  | _ => true

/-- What goes on over the end of a line is settled when the line has begun. -/
def Calm (s : Category) (_ : Trail Category) (_ : Memory) : Prop := isCalm s = true

theorem leaveWord_rests (c : Place) (m : Memory) : (leaveWord config c m).Rests Calm := by
  unfold leaveWord
  generalize passSeparator c = d
  simp only
  split_ifs with hword
  · have hkind : Inline fun b => isNameByte b || b == minus && d.state.isMarkupName := by
      cases d.state.isMarkupName <;> decide
    exact .inner (Cursor.not_atEnd_of_kind hkind hword)
  · cases m.reference <;> trivial
  · trivial
  · trivial

theorem leaveBlockComment_rests (hs : isCalm c.state = true) (m : Memory) :
    (leaveBlockComment c m).Rests Calm := by
  unfold leaveBlockComment
  generalize (if c.atLineStart then { m with flags := { comment := true } } else m) = n
  simp only
  split_ifs with hclose hopen htag
  · have hslash : ¬c.forward.AtEnd :=
      Cursor.not_atEnd_of_eq (Cursor.byte_forward.trans (Cursor.reads_iff.1 hclose).2) (by decide)
    unfold closeBlockComment
    simp only
    split
    · exact fun _ => rfl
    · exact .inner hslash
  · exact .inner (Cursor.not_atEnd_of_eq (Cursor.byte_forward.trans (Cursor.reads_iff.1 hopen).2)
      (by decide))
  · have hnot : ¬c.AtEnd := Cursor.not_atEnd_of_eq htag.2.1 (by decide)
    exact .inner hnot
  · exact fun _ => hs

theorem leaveLiteral_rests (hs : isCalm c.state = true) (m : Memory) :
    (leaveLiteral c m).Rests Calm := by
  unfold leaveLiteral
  simp only
  split_ifs with hstart hback hdollar hclose
  · exact fun _ => rfl
  · exact Escape.enter_rests _ _ (Cursor.not_atEnd_of_eq hback (by decide))
  · have hnot : ¬c.AtEnd := Cursor.not_atEnd_of_eq hdollar.1 (by decide)
    unfold enterInterpolation
    split_ifs with htwo hhole
    · exact .inner (Cursor.not_atEnd_of_eq (Cursor.byte_forward.trans htwo) (by decide))
    · exact .inner (Cursor.not_atEnd_of_eq (Cursor.byte_forward.trans hhole) (by decide))
    · exact .inner hnot
    · exact .inner hnot
  · trivial
  · exact fun _ => hs

theorem enterTag_rests (h : ¬c.AtEnd) (m : Memory) : (enterTag c m).Rests Calm := by
  unfold enterTag
  split
  case isTrue hslash =>
    exact .inner (Cursor.not_atEnd_of_eq (Cursor.byte_forward.trans hslash) (by decide))
  case isFalse => exact .inner h

theorem leaveMarkup_rests (hs : isCalm c.state = true) (m : Memory) :
    (leaveMarkup c m).Rests Calm := by
  have hinner : ∀ {d : Place} {b : Byte} {n : Memory}, c.byte = b → b.Inner → d.ahead = c.ahead →
      (Flow.pass d n).Rests Calm := by
    intro d b n hb hb' hd hend
    rw [Cursor.AtEnd, hd] at hend
    exact absurd hend (Cursor.not_atEnd_of_eq hb hb')
  unfold leaveMarkup
  simp only
  split_ifs with hclose hequals happ hquote hname hopen hless
  · trivial
  · trivial
  · exact hinner happ.1 (by decide) rfl
  · exact hinner hquote.1 (by decide) rfl
  · have hnot : ¬c.AtEnd := Cursor.not_atEnd_of_kind inline_isNameStart' hname.2
    exact .inner hnot
  · exact hinner hopen (by decide) rfl
  · exact enterTag_rests (Cursor.not_atEnd_of_eq hless (by decide)) m
  · exact fun _ => hs

theorem leave_rests (c : Place) (m : Memory) : (leave config c m).Rests Calm := by
  unfold leave
  cases hs : c.state
  case operator | punctuation | postfixOperator => exact fun _ => rfl
  case number =>
    dsimp only
    split
    case isTrue hnumber =>
      exact .inner fun hend => by simp [hend.continuesNumber] at hnumber
    case isFalse => exact fun _ => rfl
  case identifier | annotationName | symbol | tag | attributeName => exact leaveWord_rests c m
  case lineComment =>
    dsimp only
    split
    · exact fun _ => rfl
    · exact fun _ => congrArg isCalm hs
  case blockComment | docComment => exact leaveBlockComment_rests (congrArg isCalm hs) m
  case commentTag =>
    dsimp only
    unfold leaveCommentTag
    split
    case isTrue halpha =>
      exact .inner (Cursor.not_atEnd_of_kind (show Inline isAlpha by decide) halpha)
    case isFalse => trivial
  case escape => exact Escape.leave_rests _
  case markupText | markupOther => exact leaveMarkup_rests (congrArg isCalm hs) m
  case backquoted | character | string | interpolated | tripleString | tripleInterpolated |
      singleQuoted | doubleQuoted => exact leaveLiteral_rests (congrArg isCalm hs) m
  case plain | keyword | className | traitName | enumName | functionDefinition | function =>
    exact fun _ => congrArg isCalm hs

theorem enterString_rests (hb : c.byte = quote) (m : Memory) :
    (enterString config c m).Rests Calm := by
  have hnot : ¬c.AtEnd := Cursor.not_atEnd_of_eq hb (by decide)
  unfold enterString
  simp only
  split
  case isTrue htwo =>
    have hlast : c.peek 2 = quote := by
      simp only [Cursor.readsNext, Bool.and_eq_true, beq_iff_eq] at htwo
      exact htwo.2
    refine .inner (Cursor.not_atEnd_of_eq (b := quote) ?_ (by decide))
    rw [Cursor.byte, Cursor.peek_forwardN]
    exact hlast
  case isFalse => exact .inner hnot

theorem enterOperator_rests (h : ¬c.AtEnd) (m : Memory) : (enterOperator c m).Rests Calm := by
  unfold enterOperator
  split
  case isTrue htwo =>
    have hinner : c.byte.Inner := by rcases htwo.1 with hb | hb <;> rw [hb] <;> decide
    refine .inner (Cursor.not_atEnd ?_)
    rw [Cursor.byte_forward]
    exact htwo.2 ▸ hinner
  case isFalse =>
    split
    case isTrue =>
      unfold enterRegionOperator
      simp only
      split_ifs
      · exact .inner h
      · cases m.regions.pop? with
        | none => exact .inner h
        | some q => trivial
      · exact .inner h
    case isFalse => exact .inner h

theorem enter_rests (c : Place) (m : Memory) (hplain : c.state = .plain) :
    (enter config c m).Rests Calm := by
  by_cases h : c.AtEnd
  · rw [enter_atEnd h]
    exact fun _ => congrArg isCalm hplain
  · unfold enter
    cases ByteClass.of c.byte
    case digit | nameStart | space | lineEnd | control => exact .inner h
    case punctuation =>
      refine enterPunctuation_cases (motive := fun r => r.Rests Calm) ?line ?block ?string ?letter
        ?tag ?sign ?name ?operator
      case line | name => exact .inner h
      case block => exact fun _ _ => trivial
      case string => exact fun hquote => enterString_rests hquote m
      case letter =>
        unfold enterApostrophe
        split_ifs <;> exact .inner h
      case tag => exact fun _ => enterTag_rests h m
      case sign => exact fun _ _ => .inner h
      case operator => exact enterOperator_rests h m

theorem endsAlike (config : Config) : (grammar config).EndsAlike Calm where
  begin := begin_lineOnly
  leave := leave_lineOnly
  dispatch c m _ := Grammar.dispatch_lineOnly (leave_lineOnly c m) fun d y _ _ => enter_lineOnly d y
  endLine {c d} m hstate htrail := by
    change endLine c m = endLine d m
    unfold endLine lineFlags Cursor.visible
    rw [hstate, htrail]
  idle _ _ h _ := enter_atEnd h
  rests c m _ := Grammar.rests_dispatch (leave_rests c m) enter_rests
  calm c m hcalm hend hstart := by
    have hreads : ∀ {a b : Byte}, a.Inner → c.reads a b = false := by
      intro a b ha
      rw [Cursor.reads, beq_eq_false_iff_ne.2 (hend.byte_ne ha), Bool.false_and]
    change leave config c m = _
    change isCalm c.state = true at hcalm
    unfold leave
    cases hs : c.state
    case operator | punctuation | postfixOperator | number | identifier | annotationName | symbol |
        tag | attributeName | commentTag | escape => rw [hs] at hcalm; cases hcalm
    case lineComment => simp [hstart]
    case blockComment | docComment =>
      dsimp only
      unfold leaveBlockComment
      simp (disch := decide) [hstart, hreads, hend.byte_ne]
    case markupText | markupOther =>
      dsimp only
      unfold leaveMarkup
      simp (disch := decide) [hreads, hend.byte_ne, hend.kind inline_isNameStart']
    case backquoted | character | string | interpolated | tripleString | tripleInterpolated |
        singleQuoted | doubleQuoted =>
      have hclosing := hend.byte_ne (closingByte_inner c.state)
      dsimp only
      unfold leaveLiteral
      simp (disch := decide) [hstart, hclosing, hend.byte_ne]
    case plain | keyword | className | traitName | enumName | functionDefinition | function => rfl

end Highlight.Scala
