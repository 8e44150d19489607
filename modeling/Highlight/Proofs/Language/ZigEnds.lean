import Highlight.Proofs.Language.PlaceholderLine
import Highlight.Proofs.Language.ZigMoves

/-!
Where the rules of Zig let go of a byte, and how they come to the end of a line.
-/

namespace Highlight.Zig

open Byte

variable {config : Config} {c : Place} {m : Memory}

/-! ### Settling -/

/-- An escape hands its byte over to the literal it stands in, which passes on whatever it ends at.
-/
def rank (s : Category) : Nat := if s = .escape then 1 else 0

/-- No escape stands in another. -/
def Literal (m : Memory) : Prop := rank m.escape.outer = 0

/-- A placeholder is passed as a whole, or not at all. -/
theorem readPlaceholder_cases (c : Place) (m : Memory) :
    readPlaceholder c m = .pass c m ∨
      ∃ d n, readPlaceholder c m = .again d m ∧ d.state = c.state ∧
        d.ahead = c.ahead.drop (n + 1) := by
  obtain ⟨-, hclear⟩ :=
    Placeholder.read_local (if c.state = .string then some quote else none) (.refl c.ahead)
  unfold readPlaceholder
  simp only
  cases hp : Placeholder.read (if c.state = .string then some quote else none) c.ahead with
  | none => exact .inl rfl
  | some p =>
    obtain ⟨-, hle, hle'⟩ := hclear p hp
    have hstart := Placeholder.specStart_pos _ hp
    refine .inr ⟨_, p.length - 1, rfl, rfl, ?_⟩
    simp only [Cursor.switch, Cursor.ahead_forwardN]
    split_ifs
    all_goals
      simp only [Cursor.ahead_forwardN, List.drop_drop]
      congr 1
      omega

theorem readPlaceholder_settling (hb : c.byte = lbrace) (hm : Literal m) :
    (readPlaceholder c m).Settling rank Literal c := by
  rcases readPlaceholder_cases c m with h | ⟨d, n, h, -, hahead⟩ <;> rw [h]
  · exact hm
  · exact .passed hm (by rw [hb]; decide) hahead

theorem leaveLiteral_settling (hs : c.state ≠ .escape) (hm : Literal m) :
    (leaveLiteral config c m).Settling rank Literal c := by
  have hrank : rank c.state = 0 := if_neg hs
  unfold leaveLiteral
  split_ifs with hstart hback hchar hstring hbrace
  · exact hm
  · exact Escape.enter_settling _ _ hm fun e he => by rw [Literal, he, hrank]
  · exact .moved hm (List.suffix_refl _) (by rw [hchar.1]; decide) _
  · exact .moved hm (List.suffix_refl _) (by rw [hstring.1]; decide) _
  · unfold leaveBrace
    split_ifs with htwo hopen
    · exact hrank
    · exact readPlaceholder_settling hopen hm
    · exact hm
  · exact hm

theorem settles (config : Config) : (grammar config).Settles rank Literal where
  low s := by
    unfold rank
    split <;> decide
  plain := rfl
  begin _ _ := rfl
  leave c m hm := by
    change (leave config c m).Settling rank Literal c
    unfold leave
    cases hs : c.state
    case operator => exact hm
    case number | builtin | lineComment | docComment | topComment =>
      dsimp only
      split <;> exact hm
    case identifier =>
      dsimp only
      split
      · exact hm
      · exact hm
    case character | string | multilineString =>
      exact leaveLiteral_settling (by rw [hs]; decide) hm
    case escape => exact Escape.leave_settling _ hm (by rw [hs, hm]; decide)
    case plain | keyword | typeName | functionDefinition | function | placeholder | specifier =>
      exact hm
  enter c m hm := by
    change (enter c m).Settling rank Literal c
    unfold enter
    cases ByteClass.of c.byte
    case digit | nameStart => exact hm
    case punctuation =>
      dsimp only
      unfold enterPunctuation enterComment
      split_ifs <;> exact hm
    case space | lineEnd | control => exact hm
  endLine _ _ hm := hm

/-! ### Ends of lines -/

theorem classifyName_lineOnly (c : Place) (m : Memory) :
    classifyName config c.lineOnly m =
      ((classifyName config c m).1.lineOnly, (classifyName config c m).2) := by
  unfold classifyName
  simp only [Occurrence.classify_lineOnly]
  rfl

theorem readPlaceholder_lineOnly (c : Place) (m : Memory) :
    readPlaceholder c.lineOnly m = (readPlaceholder c m).lineOnly := by
  obtain ⟨hread, hline⟩ :=
    Placeholder.read_lineOnly (if c.state = .string then some quote else none) c.ahead
  obtain ⟨-, hclear⟩ :=
    Placeholder.read_local (if c.state = .string then some quote else none) (.refl c.ahead)
  have hcloser : (if c.lineOnly.state = .string then some quote else none) =
      (if c.state = .string then some quote else none) := rfl
  unfold readPlaceholder
  simp only
  rw [hcloser, show c.lineOnly.ahead = Text.lineOnly c.ahead from rfl, hread]
  cases hp : Placeholder.read (if c.state = .string then some quote else none) c.ahead with
  | none => rfl
  | some p =>
    have hlength := hline p hp
    obtain ⟨-, hle, hle'⟩ := hclear p hp
    -- a cursor `i` bytes into the placeholder may pass what is left of it
    have hgo : ∀ {d : Place} {i n : Nat}, d.ahead = c.ahead.drop i → i + n ≤ p.length →
        d.lineOnly.forwardN n = (d.forwardN n).lineOnly := by
      intro d i n hd hn
      refine Cursor.forwardN_lineOnly ?_
      rw [hd]
      exact Text.le_length_line_drop (Nat.le_trans hn hlength)
    have h₁ : (c.lineOnly.switch .placeholder).forwardN p.specStart =
        ((c.switch .placeholder).forwardN p.specStart).lineOnly :=
      hgo (d := c.switch .placeholder) (i := 0) rfl (by omega)
    have e₁ : ((c.switch .placeholder).forwardN p.specStart).ahead = c.ahead.drop p.specStart :=
      Cursor.ahead_forwardN _
    simp only [h₁, Flow.lineOnly_again]
    generalize (c.switch .placeholder).forwardN p.specStart = d at e₁
    split
    case isTrue heq =>
      rw [hgo (heq ▸ e₁) (by omega)]
      rfl
    case isFalse =>
      have h₂ := hgo (d := d.switch .specifier) (n := p.specStop - p.specStart) e₁ (by omega)
      have e₂ : ((d.switch .specifier).forwardN (p.specStop - p.specStart)).ahead =
          c.ahead.drop p.specStop := by
        rw [Cursor.ahead_forwardN]
        change d.ahead.drop _ = _
        rw [e₁, List.drop_drop, Nat.add_sub_cancel' hle]
      rw [← Cursor.lineOnly_switch, h₂, ← Cursor.lineOnly_switch,
        hgo (d := Cursor.switch _ .placeholder) e₂ (by omega)]
      rfl

theorem leaveBrace_lineOnly (hb : c.byte = lbrace ∨ c.byte = rbrace) :
    leaveBrace c.lineOnly m = (leaveBrace c m).lineOnly := by
  have hinner : c.byte.Inner := by rcases hb with h | h <;> rw [h] <;> decide
  have hnot := Cursor.not_atEnd hinner
  unfold leaveBrace
  simp only [Cursor.byte_lineOnly hnot, Cursor.next_lineOnly_eq hinner hnot]
  split_ifs with htwo hopen
  · rw [← Cursor.lineOnly_switch, Cursor.forward_lineOnly (c := c.switch .escape) hnot]
    rfl
  · exact readPlaceholder_lineOnly c m
  · rfl

theorem leaveLiteral_lineOnly (c : Place) (m : Memory) :
    leaveLiteral config c.lineOnly m = (leaveLiteral config c m).lineOnly := by
  unfold leaveLiteral
  simp (disch := decide) only [Cursor.byte_lineOnly_eq, Cursor.atLineStart_lineOnly,
    Cursor.state_lineOnly]
  split_ifs with hstart hback hchar hstring hbrace
  · rfl
  · exact Escape.enter_lineOnly _ _ (Cursor.not_atEnd_of_eq hback.1 (by decide))
  · rw [Cursor.forwardSwitch_lineOnly (Cursor.not_atEnd_of_eq hchar.1 (by decide))]
    rfl
  · rw [Cursor.forwardSwitch_lineOnly (Cursor.not_atEnd_of_eq hstring.1 (by decide))]
    rfl
  · exact leaveBrace_lineOnly hbrace.1
  · rfl

theorem leave_lineOnly (c : Place) (m : Memory) :
    leave config c.lineOnly m = (leave config c m).lineOnly := by
  unfold leave
  rw [Cursor.state_lineOnly, Cursor.continuesNumber_lineOnly, Cursor.atLineStart_lineOnly,
    Cursor.blind_byte inline_isNameByte.blind]
  cases c.state
  case operator => rfl
  case number | builtin | lineComment | docComment | topComment => dsimp only; split <;> rfl
  case identifier =>
    simp only [classifyName_lineOnly]
    split <;> rfl
  case character | string | multilineString => exact leaveLiteral_lineOnly c m
  case escape => exact Escape.leave_lineOnly m.escape
  case plain | keyword | typeName | functionDefinition | function | placeholder | specifier => rfl

/-- At the end of a line nothing begins. -/
theorem enter_atEnd (h : c.AtEnd) : enter c m = .pass c m := by
  unfold enter
  rcases Text.AtEnd.getD_zero h with e | e | e <;> rw [show c.byte = _ from e] <;> rfl

theorem enterComment_lineOnly (hb : c.byte = slash) (hn : c.next = slash) :
    enterComment c.lineOnly m = (enterComment c m).lineOnly := by
  have hgo : (c.lineOnly.switch .lineComment).forwardN 2 =
      ((c.switch .lineComment).forwardN 2).lineOnly :=
    Cursor.forwardN_two_lineOnly (c := c.switch .lineComment)
      (Cursor.not_atEnd_of_eq (b := slash) hb (by decide))
      (Cursor.not_atEnd_of_eq (Cursor.byte_forward.trans hn) (by decide))
  have hmark : (if c.lineOnly.visible = 0 then m.markComment else m) =
      if c.visible = 0 then m.markComment else m := rfl
  unfold enterComment
  simp only [hgo, Flow.lineOnly_pass]
  rw [hmark]
  generalize (if c.visible = 0 then m.markComment else m) = n
  generalize (c.switch .lineComment).forwardN 2 = d
  have hdoc : d.lineOnly.byte = slash ∧ d.lineOnly.next ≠ slash ↔
      d.byte = slash ∧ d.next ≠ slash := by
    rw [Cursor.byte_lineOnly_eq (show slash.Inner by decide)]
    refine and_congr_right fun h => not_congr ?_
    exact Cursor.next_lineOnly_eq (by decide) (Cursor.not_atEnd_of_eq h (by decide))
  simp only [hdoc, Cursor.byte_lineOnly_eq (show bang.Inner by decide)]
  split_ifs <;> rfl

theorem enterPunctuation_lineOnly (h : ¬c.AtEnd) :
    enterPunctuation c.lineOnly m = (enterPunctuation c m).lineOnly := by
  have hnumber : startsNumber c.byte c.lineOnly.next = startsNumber c.byte c.next :=
    Cursor.blind_next (f := startsNumber c.byte)
      ⟨by simp [startsNumber, isDigit], by simp [startsNumber, isDigit]⟩ h
  have hname : isNameStart c.lineOnly.next = isNameStart c.next :=
    Cursor.blind_next inline_isNameStart.blind h
  unfold enterPunctuation
  simp (disch := decide) only [Cursor.byte_lineOnly h, Cursor.next_lineOnly_eq (h := h), hnumber,
    hname]
  split_ifs with hslash
  · exact enterComment_lineOnly hslash.1 hslash.2
  all_goals rfl

theorem enter_lineOnly (c : Place) (m : Memory) : enter c.lineOnly m = (enter c m).lineOnly := by
  by_cases h : c.AtEnd
  · rw [enter_atEnd h, enter_atEnd h.lineOnly]
    rfl
  · unfold enter
    rw [Cursor.byte_lineOnly h]
    cases ByteClass.of c.byte
    case digit | nameStart | space | lineEnd | control => rfl
    case punctuation => exact enterPunctuation_lineOnly h

/-! ### Rest -/

/-- Everything but comments and strings ends with its line at the latest. -/
def isCalm : Category → Bool
  | .operator | .number | .identifier | .builtin | .escape => false
  | _ => true

/-- What goes on over the end of a line is settled when the line has begun. -/
def Calm (s : Category) (_ : Trail Category) (_ : Memory) : Prop := isCalm s = true

theorem leaveLiteral_rests (hs : isCalm c.state = true) :
    (leaveLiteral config c m).Rests Calm := by
  unfold leaveLiteral
  split_ifs with hstart hback hchar hstring hbrace
  · exact fun _ => rfl
  · exact Escape.enter_rests _ _ (Cursor.not_atEnd_of_eq hback.1 (by decide))
  · trivial
  · trivial
  · have hinner : c.byte.Inner := by rcases hbrace.1 with h | h <;> rw [h] <;> decide
    unfold leaveBrace
    split_ifs with htwo
    · refine .inner (Cursor.not_atEnd ?_)
      rwa [Cursor.byte_forward, show (c.switch .escape).next = c.byte from htwo]
    · rcases readPlaceholder_cases c m with h | ⟨d, n, h, -⟩ <;> rw [h]
      · exact fun _ => hs
      · trivial
    · exact fun _ => hs
  · exact fun _ => hs

theorem leave_rests (c : Place) (m : Memory) : (leave config c m).Rests Calm := by
  unfold leave
  cases hs : c.state
  case operator => exact fun _ => rfl
  case number =>
    dsimp only
    split
    case isTrue hnumber =>
      exact .inner fun hend => by simp [hend.continuesNumber] at hnumber
    case isFalse => exact fun _ => rfl
  case identifier | builtin =>
    dsimp only
    split
    case isTrue hname => exact .inner (Cursor.not_atEnd_of_kind inline_isNameByte hname)
    case isFalse => exact fun _ => rfl
  case lineComment | docComment | topComment =>
    dsimp only
    split
    · exact fun _ => rfl
    · exact fun _ => congrArg isCalm hs
  case character | string | multilineString => exact leaveLiteral_rests (congrArg isCalm hs)
  case escape => exact Escape.leave_rests _
  case plain | keyword | typeName | functionDefinition | function | placeholder | specifier =>
    exact fun _ => congrArg isCalm hs

theorem enter_rests (c : Place) (m : Memory) (hplain : c.state = .plain) :
    (enter c m).Rests Calm := by
  by_cases h : c.AtEnd
  · rw [enter_atEnd h]
    exact fun _ => congrArg isCalm hplain
  · unfold enter
    cases ByteClass.of c.byte
    case digit | nameStart | space | lineEnd | control => exact .inner h
    case punctuation =>
      dsimp only
      unfold enterPunctuation
      split_ifs
      · -- a comment may end right after its slashes
        unfold enterComment
        generalize (if c.visible = 0 then m.markComment else m) = n
        simp only
        split_ifs
        · exact fun _ => rfl
        · exact fun _ => rfl
        · exact fun _ => congrArg isCalm (Cursor.state_forwardN 2)
      all_goals exact .inner h

theorem endsAlike (config : Config) : (grammar config).EndsAlike Calm where
  begin _ _ := rfl
  leave := leave_lineOnly
  dispatch c m _ := Grammar.dispatch_lineOnly (leave_lineOnly c m) fun d y _ _ => enter_lineOnly d y
  endLine {c d} m _ htrail := by
    change endLine c m = endLine d m
    unfold endLine Cursor.visible
    rw [htrail]
  idle _ _ h _ := enter_atEnd h
  rests c m _ := Grammar.rests_dispatch (leave_rests c m) enter_rests
  calm c m hcalm hend hstart := by
    change leave config c m = _
    change isCalm c.state = true at hcalm
    unfold leave
    cases hs : c.state
    case operator | number | identifier | builtin | escape => rw [hs] at hcalm; cases hcalm
    case lineComment | docComment | topComment => simp [hstart]
    case character | string | multilineString =>
      dsimp only
      unfold leaveLiteral
      simp (disch := decide) [hstart, hend.byte_ne]
    case plain | keyword | typeName | functionDefinition | function | placeholder | specifier =>
      rfl

end Highlight.Zig
