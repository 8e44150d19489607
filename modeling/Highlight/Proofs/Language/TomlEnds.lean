import Highlight.Proofs.Language.TomlMoves
import Highlight.Proofs.Scan.LineEnd

/-!
Where the rules of TOML let go of a byte, and how they come to the end of a line.
-/

namespace Highlight.Toml

open Byte

variable {words : WordSets} {c d : Place} {m : Memory}

/-! ### Settling -/

/-- A value may turn out to be a key, and a key an error; an escape stands in a string. -/
def rank : Category → Nat
  | .number | .dateTime | .identifier => 2
  | .key | .escape => 1
  | _ => 0

/-- No escape stands in another. -/
def Literal (m : Memory) : Prop := rank m.escape.outer = 0

/-- The end of a value is always looked at again, as a key or in the plain category. -/
theorem endValue_again (words : WordSets) (c : Place) (m : Memory) :
    ∃ d n, endValue words c m = .again d n ∧ d.ahead = c.ahead ∧ rank d.state ≤ 1 ∧
      n.escape = m.escape := by
  unfold endValue
  split
  case isTrue => exact ⟨_, _, rfl, rfl, Nat.le_refl 1, rfl⟩
  case isFalse =>
    refine ⟨_, _, rfl, ?_, Nat.zero_le _, rfl⟩
    split <;> rfl

theorem endValue_settling (hm : Literal m)
    (h : d.ahead.length < c.ahead.length ∨ d.ahead.length = c.ahead.length ∧ 1 < rank c.state) :
    (endValue words d m).Settling rank Literal c := by
  obtain ⟨e, n, hrule, hahead, hrank, hescape⟩ := endValue_again words d m
  rw [hrule]
  refine ⟨by rwa [Literal, hescape], ?_⟩
  rw [hahead]
  omega

theorem leaveNumber_settling (hs : c.state = .number) (hm : Literal m) :
    (leaveNumber words c m).Settling rank Literal c := by
  unfold leaveNumber
  split_ifs
  · exact hm
  · exact hm
  · exact endValue_settling hm (.inr ⟨rfl, by rw [hs]; decide⟩)

theorem state_passQuoting : (passQuoting c m).1.state = c.state ∧
    (passQuoting c m).2.escape = m.escape := by
  unfold passQuoting
  split
  · split <;> simp
  · split_ifs <;> simp
  · simp
  · simp

theorem leaveKey_settling (hs : c.state = .table ∨ c.state = .key) (hm : Literal m) :
    (leaveKey c m).Settling rank Literal c := by
  unfold leaveKey
  split
  case isTrue => exact hm
  case isFalse =>
    have hmoves := passQuoting_within c m
    obtain ⟨hstate, hescape⟩ := state_passQuoting (c := c) (m := m)
    revert hmoves hstate hescape
    generalize passQuoting c m = q
    obtain ⟨d, n⟩ := q
    simp only
    intro hmoves hstate hescape
    have hn : Literal n := by rwa [Literal, hescape]
    split_ifs with _ _ _ htable
    · exact hn
    · exact hn
    · exact hn
    · unfold leaveBareTable closeTable
      split_ifs <;> exact hn
    · unfold leaveBareKey
      have hkey : c.state = .key := hs.resolve_left fun h => htable (hstate.trans h)
      split_ifs with hdot
      · exact .moved hn (d := d.switch .operator) hmoves.onward.ahead
          (by change d.byte ≠ 0; rw [hdot]; decide) _
      · exact hn
      · exact hn
      · exact ⟨hn, .inr (by rw [hkey]; exact Nat.zero_lt_one)⟩
      · exact hn

theorem closingByte_ne_zero (s : Category) : s.closingByte ≠ 0 := by
  unfold Category.closingByte
  split <;> decide

theorem leaveString_settling (hs : rank c.state = 0) (hm : Literal m) :
    (leaveString words c m).Settling rank Literal c := by
  have hzero := closingByte_ne_zero c.state
  unfold leaveString
  simp only
  split_ifs with hstart hback hclose _ htriple
  · exact hm
  · exact Escape.enter_settling _ _ hm fun e he => by rw [Literal, he, hs]
  · refine endValue_settling hm (.inl ?_)
    rw [Cursor.ahead_forward]
    cases ha : c.ahead with
    | nil => exact absurd (by simp [Cursor.byte, Cursor.peek, ha, ← hclose]) hzero
    | cons b t => exact Nat.lt_succ_self _
  · refine .moved hm ?_ (by rw [Cursor.byte_toLastOfRun, hclose]; exact hzero) _
    rw [Cursor.toLastOfRun, Cursor.ahead_forwardN]
    exact List.drop_suffix _ _
  · exact hm
  · exact hm

theorem settles (words : WordSets) : (grammar words).Settles rank Literal where
  low s := by cases s <;> decide
  plain := rfl
  begin _ _ := rfl
  leave c m hm := by
    change (leave words c m).Settling rank Literal c
    unfold leave
    cases hs : c.state
    case operator => exact hm
    case number => exact leaveNumber_settling hs hm
    case dateTime | identifier =>
      dsimp only
      split
      · exact hm
      · exact endValue_settling hm (.inr ⟨rfl, by rw [hs]; decide⟩)
    case table => exact leaveKey_settling (.inl hs) hm
    case key => exact leaveKey_settling (.inr hs) hm
    case literalString | string | tripleLiteralString | tripleString =>
      exact leaveString_settling (by rw [hs]; rfl) hm
    case escape => exact Escape.leave_settling _ hm (by rw [hs, hm]; decide)
    case error => split_ifs <;> exact hm
    case comment =>
      dsimp only
      split <;> exact hm
    case plain | keyword => exact hm
  enter c m hm := by
    change (enter c m).Settling rank Literal c
    unfold enter enterLine enterValue enterString
    simp only
    split_ifs <;> exact hm
  endLine _ _ hm := hm

/-! ### Ends of lines -/

theorem endValue_lineOnly (c : Place) (m : Memory) :
    endValue words c.lineOnly m = (endValue words c m).lineOnly := by
  unfold endValue
  dsimp +instances only [Cursor.state_lineOnly, Cursor.currentWord_lineOnly]
  simp only [Cursor.nextVisible_lineOnly]
  split_ifs <;> rfl

theorem leaveNumber_lineOnly (c : Place) (m : Memory) :
    leaveNumber words c.lineOnly m = (leaveNumber words c m).lineOnly := by
  have hdate :
      (c.lineOnly.byte = minus ∨ c.lineOnly.byte = colon) ∧ isDigit c.lineOnly.next = true ↔
        (c.byte = minus ∨ c.byte = colon) ∧ isDigit c.next = true := by
    simp (disch := decide) only [Cursor.byte_lineOnly_eq]
    refine and_congr_right fun h => ?_
    have hnot : ¬c.AtEnd := Cursor.not_atEnd (by rcases h with h | h <;> rw [h] <;> decide)
    rw [Cursor.blind_next inline_isDigit.blind hnot]
  unfold leaveNumber
  rw [Cursor.continuesNumber_lineOnly, endValue_lineOnly]
  simp only [hdate]
  split_ifs <;> rfl

theorem continuesDateTime_atEnd (h : c.AtEnd) (next : Byte) :
    continuesDateTime c.byte next = false := by
  rcases Text.AtEnd.getD_zero h with e | e | e <;> rw [show c.byte = _ from e] <;>
    simp [continuesDateTime]

theorem continuesDateTime_lineOnly :
    continuesDateTime c.lineOnly.byte c.lineOnly.next = continuesDateTime c.byte c.next := by
  by_cases h : c.AtEnd
  · rw [continuesDateTime_atEnd h, continuesDateTime_atEnd h.lineOnly]
  · rw [Cursor.byte_lineOnly h]
    exact Cursor.blind_next (f := continuesDateTime c.byte)
      ⟨by simp [continuesDateTime, isDigit], by simp [continuesDateTime, isDigit]⟩ h

theorem passQuoting_lineOnly (c : Place) (m : Memory) :
    passQuoting c.lineOnly m = ((passQuoting c m).1.lineOnly, (passQuoting c m).2) := by
  unfold passQuoting
  simp (disch := decide) only [Cursor.byte_lineOnly_eq]
  cases m.key
  case literal =>
    dsimp only
    split
    case isTrue happ =>
      rw [Cursor.forward_lineOnly (Cursor.not_atEnd_of_eq happ (by decide))]
    case isFalse => rfl
  case quoted =>
    dsimp only
    split_ifs with hback hquote
    · rw [Cursor.forward_lineOnly (Cursor.not_atEnd_of_eq hback (by decide))]
    · rw [Cursor.forward_lineOnly (Cursor.not_atEnd_of_eq hquote (by decide))]
    · rfl
  case bare | done => rfl

theorem closeTable_lineOnly (hb : c.byte = rbracket) :
    closeTable c.lineOnly m = (closeTable c m).lineOnly := by
  have hgo : (if c.forward.lineOnly.byte = rbracket then c.forward.lineOnly.forward
      else c.forward.lineOnly) =
      (if c.forward.byte = rbracket then c.forward.forward else c.forward).lineOnly := by
    simp (disch := decide) only [Cursor.byte_lineOnly_eq]
    split
    case isTrue hb' => exact Cursor.forward_lineOnly (Cursor.not_atEnd_of_eq hb' (by decide))
    case isFalse => rfl
  unfold closeTable
  rw [Cursor.forward_lineOnly (Cursor.not_atEnd_of_eq hb (by decide))]
  simp only
  rw [hgo]
  generalize (if c.forward.byte = rbracket then c.forward.forward else c.forward) = d
  simp only [Cursor.nextVisible_lineOnly]
  split <;> rfl

theorem leaveBareKey_lineOnly (c : Place) (m : Memory) :
    leaveBareKey c.lineOnly m = (leaveBareKey c m).lineOnly := by
  have hkey : Inline isKeyByte := by decide
  unfold leaveBareKey
  rw [Cursor.blind_byte hkey.blind]
  simp (disch := decide) only [Cursor.byte_lineOnly_eq, Cursor.nextVisible_lineOnly,
    Cursor.trail_lineOnly]
  split_ifs with hdot
  · rw [← Cursor.lineOnly_switch, Cursor.forwardSwitch_lineOnly (c := c.switch .operator)
      (Cursor.not_atEnd_of_eq (b := dot) hdot (by decide))]
    rfl
  all_goals rfl

theorem leaveKey_lineOnly (c : Place) (m : Memory) :
    leaveKey c.lineOnly m = (leaveKey c m).lineOnly := by
  unfold leaveKey
  rw [Cursor.atLineStart_lineOnly, passQuoting_lineOnly]
  split
  case isTrue => rfl
  case isFalse =>
    generalize passQuoting c m = q
    obtain ⟨d, n⟩ := q
    dsimp +instances only [Cursor.state_lineOnly]
    simp (disch := decide) only [Cursor.byte_lineOnly_eq]
    split_ifs
    · rfl
    · rfl
    · rfl
    · unfold leaveBareTable
      simp (disch := decide) only [Cursor.byte_lineOnly_eq]
      split_ifs with hdot hclose
      · rfl
      · exact closeTable_lineOnly hclose
      · rfl
    · exact leaveBareKey_lineOnly d n

theorem closingByte_inner (s : Category) : s.closingByte.Inner := by
  unfold Category.closingByte
  split <;> decide

theorem leaveString_lineOnly (c : Place) (m : Memory) :
    leaveString words c.lineOnly m = (leaveString words c m).lineOnly := by
  have hclosing := closingByte_inner c.state
  unfold leaveString
  dsimp +instances only [Cursor.state_lineOnly, Cursor.atLineStart_lineOnly]
  simp (disch := decide) only [Cursor.byte_lineOnly_eq, Cursor.byte_lineOnly_eq hclosing]
  by_cases hclose : c.byte = c.state.closingByte
  · have hnot : ¬c.AtEnd := Cursor.not_atEnd_of_eq hclose hclosing
    have hinner : c.byte.Inner := hclose ▸ hclosing
    simp only [if_pos hclose, Cursor.byte_lineOnly hnot,
      Cursor.readsNext_lineOnly hinner hinner hnot, Cursor.forward_lineOnly hnot,
      endValue_lineOnly, Cursor.toLastOfRun_lineOnly hnot]
    split_ifs with hstart hback
    · rfl
    · exact Escape.enter_lineOnly _ _ hnot
    · rfl
    · rw [Cursor.forwardSwitch_lineOnly (Cursor.not_atEnd (by rwa [Cursor.byte_toLastOfRun]))]
      rfl
    · rfl
  · simp only [if_neg hclose]
    split_ifs with hstart hback
    · rfl
    · exact Escape.enter_lineOnly _ _ (Cursor.not_atEnd_of_eq hback.1 (by decide))
    · rfl

theorem leave_lineOnly (c : Place) (m : Memory) :
    leave words c.lineOnly m = (leave words c m).lineOnly := by
  unfold leave
  rw [Cursor.state_lineOnly, Cursor.atLineStart_lineOnly, continuesDateTime_lineOnly,
    Cursor.blind_byte inline_isNameByte.blind, endValue_lineOnly]
  simp (disch := decide) only [Cursor.byte_lineOnly_eq]
  cases c.state
  case operator => rfl
  case number => exact leaveNumber_lineOnly c m
  case dateTime | identifier | comment => dsimp only; split <;> rfl
  case table | key => exact leaveKey_lineOnly c m
  case literalString | string | tripleLiteralString | tripleString => exact leaveString_lineOnly c m
  case escape => exact Escape.leave_lineOnly m.escape
  case error => dsimp only; split_ifs <;> rfl
  case plain | keyword => rfl

/-- At the end of a line nothing begins. Beyond the end of the text, an error would. -/
theorem enter_atEnd (h : c.AtEnd) (hne : c.ahead ≠ []) : enter c m = .pass c m := by
  unfold enter enterLine enterValue
  rcases eq_of_isLineEnd (h.isLineEnd hne) with e | e <;> rw [e] <;>
    simp [isKeyByte, isNameByte, isNameStart, isAlpha, isLower, isUpper, isDigit, isOperator,
      isSpace, isLineEnd, isBlank]

theorem enterString_lineOnly (hb : c.byte = apostrophe ∨ c.byte = quote) :
    enterString c.lineOnly m = (enterString c m).lineOnly := by
  have hinner : c.byte.Inner := by rcases hb with h | h <;> rw [h] <;> decide
  have hnot := Cursor.not_atEnd hinner
  unfold enterString
  simp only [Cursor.byte_lineOnly hnot, Cursor.readsNext_lineOnly hinner hinner hnot]
  split
  case isTrue htwo =>
    have hnext : c.next = c.byte := by
      simp only [Cursor.readsNext, Bool.and_eq_true, beq_iff_eq] at htwo
      exact htwo.1
    rw [← Cursor.lineOnly_switch, Cursor.forwardN_two_lineOnly (c := c.switch _) hnot]
    · rfl
    · refine Cursor.not_atEnd ?_
      rw [Cursor.byte_forward]
      exact hnext ▸ hinner
  case isFalse => rfl

theorem enterLine_lineOnly (h : ¬c.AtEnd) :
    enterLine c.lineOnly m = (enterLine c m).lineOnly := by
  have hnext : (c.lineOnly.switch .table).next = lbracket ↔ (c.switch .table).next = lbracket :=
    Cursor.next_lineOnly_eq (c := c.switch .table) (by decide) h
  unfold enterLine
  simp only [Cursor.byte_lineOnly h, hnext]
  split_ifs with hopen htwo
  · rw [← Cursor.lineOnly_switch, Cursor.forward_lineOnly (c := c.switch .table) h]
    rfl
  all_goals rfl

theorem enter_lineOnly (hne : c.ahead ≠ []) : enter c.lineOnly m = (enter c m).lineOnly := by
  by_cases h : c.AtEnd
  · rw [enter_atEnd h hne, enter_atEnd h.lineOnly (by simp [Cursor.lineOnly, Text.lineOnly])]
    rfl
  · unfold enter
    dsimp +instances only [Cursor.visible_lineOnly]
    rw [Cursor.byte_lineOnly h, enterLine_lineOnly h]
    split_ifs
    · rfl
    · rfl
    · rfl
    · unfold enterValue
      rw [Cursor.byte_lineOnly h]
      split_ifs with hquote
      · exact enterString_lineOnly hquote
      all_goals rfl

/-! ### Rest -/

/-- What is plain behind a rule has something ahead, if the place had before. -/
def StaysAhead (c : Place) : Rule → Prop
  | .pass d _ => d.state = .plain → d.ahead = [] → c.ahead = []
  | .again _ _ => True

theorem ahead_ne_nil_of_nextVisible {b : Byte} (h : c.nextVisible = b) (hb : b ≠ 0) :
    c.ahead ≠ [] := by
  intro hnil
  rw [Cursor.nextVisible, hnil] at h
  exact hb h.symm

theorem leaveKey_staysAhead (hs : c.state = .table ∨ c.state = .key) (m : Memory) :
    StaysAhead c (leaveKey c m) := by
  have hplain : ∀ {d : Place} {n : Memory}, d.state = c.state → StaysAhead c (.pass d n) := by
    intro d n hd hd'
    rw [hd] at hd'
    rcases hs with h | h <;> rw [h] at hd' <;> cases hd'
  unfold leaveKey
  split
  case isTrue => exact fun _ h => h
  case isFalse =>
    obtain ⟨hstate, -⟩ := state_passQuoting (c := c) (m := m)
    revert hstate
    generalize passQuoting c m = q
    obtain ⟨d, n⟩ := q
    simp only
    intro hstate
    split_ifs
    · exact hplain hstate
    · exact hplain hstate
    · exact hplain hstate
    · unfold leaveBareTable closeTable
      split_ifs
      · exact hplain hstate
      · have hgo : (if d.forward.byte = rbracket then d.forward.forward else d.forward).state =
            c.state := by
          split <;> simpa using hstate
        simp only
        generalize (if d.forward.byte = rbracket then d.forward.forward else d.forward) = e at hgo
        split
        case isTrue hvisible =>
          exact fun _ hnil => absurd hnil (ahead_ne_nil_of_nextVisible hvisible (by decide))
        case isFalse => exact hplain hgo
      · exact hplain hstate
    · unfold leaveBareKey
      split_ifs with _ _ hvisible
      · trivial
      · exact hplain hstate
      · exact fun _ hnil => absurd hnil (ahead_ne_nil_of_nextVisible hvisible (by decide))
      · trivial
      · exact hplain hstate

theorem leaveString_staysAhead (c : Place) (m : Memory) :
    StaysAhead c (leaveString words c m) := by
  obtain ⟨e, n, hend, -⟩ := endValue_again words c.forward m
  have hescape : ∀ {d : Place} {n : Memory}, d.state = .escape → StaysAhead c (.pass d n) := by
    intro d n hd hd'
    rw [hd] at hd'
    cases hd'
  unfold leaveString
  simp only [hend]
  split_ifs
  · exact fun _ h => h
  · unfold Escape.enter
    split
    case isTrue => exact fun _ h => h
    case isFalse =>
      simp only
      split
      · exact hescape (by rw [Cursor.state_forward, Cursor.state_forward]; rfl)
      · exact hescape (by rw [Cursor.state_forward]; rfl)
  · trivial
  · trivial
  · exact fun _ h => h
  · exact fun _ h => h

theorem leave_staysAhead (words : WordSets) (c : Place) (m : Memory) :
    StaysAhead c (leave words c m) := by
  obtain ⟨e, n, hend, -⟩ := endValue_again words c m
  unfold leave
  cases hs : c.state
  case operator => exact fun _ h => h
  case number =>
    dsimp only
    unfold leaveNumber
    rw [hend]
    split_ifs
    · exact fun _ h => h
    · exact fun _ h => h
    · trivial
  case dateTime | identifier =>
    dsimp only
    rw [hend]
    split
    · exact fun _ h => h
    · trivial
  case table => exact leaveKey_staysAhead (.inl hs) m
  case key => exact leaveKey_staysAhead (.inr hs) m
  case literalString | string | tripleLiteralString | tripleString =>
    exact leaveString_staysAhead c m
  case escape =>
    dsimp only
    unfold Escape.leave
    simp only
    split
    · trivial
    · exact fun _ h => h
  case error => dsimp only; split_ifs <;> exact fun _ h => h
  case comment => dsimp only; split <;> exact fun _ h => h
  case plain | keyword => exact fun _ h => h

/-- Values and escapes end with their line at the latest, and a key at its end has become an error
unless a point was its last visible byte. -/
def Calm (s : Category) (t : Trail Category) (m : Memory) : Prop :=
  match s with
  | .operator | .number | .dateTime | .identifier | .escape => False
  | .key => m.key = .bare → t.byte = dot
  | _ => True

theorem calm_of_quoted {d : Place} {n : Memory} (hs : d.state = .table ∨ d.state = .key)
    (hn : n.key ≠ .bare) : Calm d.state d.trail n := by
  rcases hs with h | h <;> rw [h]
  · trivial
  · exact fun hbare => absurd hbare hn

theorem leaveKey_rests (hs : c.state = .table ∨ c.state = .key) (m : Memory) :
    (leaveKey c m).Rests Calm := by
  unfold leaveKey
  split
  case isTrue => exact fun _ => trivial
  case isFalse =>
    obtain ⟨hstate, -⟩ := state_passQuoting (c := c) (m := m)
    rw [← hstate] at hs
    revert hs
    generalize passQuoting c m = q
    obtain ⟨d, n⟩ := q
    simp only
    intro hs
    split_ifs with hquoted happ hquote htable
    · exact fun _ => calm_of_quoted hs hquoted
    · exact .inner (Cursor.not_atEnd_of_eq happ (by decide))
    · exact .inner (Cursor.not_atEnd_of_eq hquote (by decide))
    · unfold leaveBareTable closeTable
      split_ifs with hdot
      · exact .inner (Cursor.not_atEnd_of_eq hdot (by decide))
      · have hgo : (if d.forward.byte = rbracket then d.forward.forward else d.forward).state =
            .table := by
          split <;> simpa using htable
        simp only
        generalize (if d.forward.byte = rbracket then d.forward.forward else d.forward) = e at hgo
        split
        · exact fun _ => trivial
        · exact fun _ => calm_of_quoted (.inl hgo) KeyPart.noConfusion
      · exact fun _ => by rw [htable]; trivial
    · unfold leaveBareKey
      split_ifs with hdot hkey hequals herror
      · trivial
      · exact .inner (Cursor.not_atEnd_of_kind (show Inline isKeyByte by decide) hkey)
      · exact fun _ => trivial
      · trivial
      · intro hend
        have hvisible : d.nextVisible ≠ dot := by
          rw [hend.nextVisible]
          decide
        rw [hs.resolve_left htable]
        exact fun _ => Classical.not_not.1 fun h => herror ⟨hvisible, h⟩

theorem leaveString_rests (hs : Calm c.state c.trail m) :
    (leaveString words c m).Rests Calm := by
  obtain ⟨e, n, hend, -⟩ := endValue_again words c.forward m
  unfold leaveString
  simp only [hend]
  split_ifs with hstart hback
  · exact fun _ => trivial
  · exact Escape.enter_rests _ _ (Cursor.not_atEnd_of_eq hback.1 (by decide))
  · trivial
  · trivial
  · exact fun _ => hs
  · exact fun _ => hs

theorem leave_rests (c : Place) (m : Memory) : (leave words c m).Rests Calm := by
  obtain ⟨e, n, hend, -⟩ := endValue_again words c m
  unfold leave
  cases hs : c.state
  case operator => exact fun _ => trivial
  case number =>
    dsimp only
    unfold leaveNumber
    rw [hend]
    split_ifs with hnumber hdate
    · exact .inner fun hend => by simp [hend.continuesNumber] at hnumber
    · refine .inner (d := c.recolor _) (Cursor.not_atEnd (c := c) ?_)
      rcases hdate.1 with h | h <;> rw [h] <;> decide
    · trivial
  case dateTime =>
    dsimp only
    rw [hend]
    split
    case isTrue hdate =>
      refine .inner fun hend => ?_
      simp [hend.kind inline_isNameByte, continuesDateTime_atEnd hend] at hdate
    case isFalse => trivial
  case identifier =>
    dsimp only
    rw [hend]
    split
    case isTrue hname => exact .inner (Cursor.not_atEnd_of_kind inline_isNameByte hname)
    case isFalse => trivial
  case table => exact leaveKey_rests (.inl hs) m
  case key => exact leaveKey_rests (.inr hs) m
  case literalString | string | tripleLiteralString | tripleString =>
    exact leaveString_rests (by rw [hs]; trivial)
  case escape => exact Escape.leave_rests _
  case error =>
    dsimp only
    split_ifs
    · exact fun _ => trivial
    · exact fun _ => trivial
    · exact fun _ => by rw [hs]; trivial
  case comment =>
    dsimp only
    split
    · exact fun _ => trivial
    · exact fun _ => by rw [hs]; trivial
  case plain | keyword => exact fun _ => by rw [hs]; trivial

theorem enterString_rests (hb : c.byte = apostrophe ∨ c.byte = quote) :
    (enterString c m).Rests Calm := by
  have hinner : c.byte.Inner := by rcases hb with h | h <;> rw [h] <;> decide
  unfold enterString
  simp only
  split
  case isTrue htwo =>
    have hlast : c.peek 2 = c.byte := by
      simp only [Cursor.readsNext, Bool.and_eq_true, beq_iff_eq] at htwo
      exact htwo.2
    refine .inner (Cursor.not_atEnd ?_)
    rw [Cursor.byte, Cursor.peek_forwardN]
    exact hlast ▸ hinner
  case isFalse => exact .inner (d := c.switch _) (Cursor.not_atEnd (c := c) hinner)

theorem enter_rests (c : Place) (m : Memory) (hplain : c.state = .plain) :
    (enter c m).Rests Calm := by
  have hcalm : Calm c.state c.trail m := by rw [hplain]; trivial
  by_cases h : c.AtEnd
  · by_cases hne : c.ahead = []
    · have hbyte : c.byte = 0 := by simp [Cursor.byte, Cursor.peek, hne]
      have hvalue : enterValue c m = .pass c m := by
        simp [enterValue, hbyte, isDigit, isLower, isOperator, isKeyByte, isNameByte, isNameStart,
          isAlpha, isUpper]
      have hline : enterLine c m = .pass (c.switch .error) m := by
        simp [enterLine, hbyte, isDigit, isLower, isKeyByte, isNameByte, isNameStart, isAlpha,
          isUpper, isSpace, isBlank, isLineEnd]
      unfold enter
      rw [if_neg (h.byte_ne (by decide)), hvalue, hline]
      split
      · exact fun _ => trivial
      · exact fun _ => hcalm
    · rw [enter_atEnd h hne]
      exact fun _ => hcalm
  · unfold enter
    split
    · exact .inner h
    split
    · unfold enterLine
      split_ifs with hopen
      · simp only
        split
        case isTrue htwo =>
          exact .inner (Cursor.not_atEnd_of_eq (Cursor.byte_forward.trans htwo) (by decide))
        case isFalse => exact .inner h
      all_goals exact .inner h
    · unfold enterValue
      split_ifs with hquote
      · exact enterString_rests hquote
      all_goals exact .inner h

/-- A key or a table head that is calm at the end of its line is left as it is. -/
theorem leaveKey_calm (hs : c.state = .table ∨ c.state = .key) (hcalm : Calm c.state c.trail m)
    (hend : c.AtEnd) (hstart : c.atLineStart = false) : leaveKey c m = .pass c m := by
  have hkeep : passQuoting c m = (c, m) := by
    unfold passQuoting
    cases m.key <;> simp (disch := decide) [hend.byte_ne]
  have hkey : isKeyByte c.byte = false := hend.kind (by decide)
  unfold leaveKey leaveBareTable leaveBareKey
  rw [hkeep]
  simp (disch := decide) only [hstart, Bool.false_eq_true, if_false, hend.byte_ne, hkey,
    hend.nextVisible]
  by_cases hbare : m.key = .bare
  · rcases hs with h | h
    · simp [hbare, h]
    · rw [h] at hcalm
      simp [hbare, h, hcalm hbare]
  · simp [hbare]

theorem endsAlike (words : WordSets) : (grammar words).EndsAlike Calm where
  begin _ _ := rfl
  leave := leave_lineOnly
  dispatch c m hne := by
    refine Grammar.dispatch_lineOnly (leave_lineOnly c m) fun d y hrule hplain => ?_
    refine enter_lineOnly fun hnil => hne ?_
    have hstays := leave_staysAhead words c m
    rw [show leave words c m = .pass d y from hrule] at hstays
    exact hstays hplain hnil
  endLine {c d} m hstate htrail := by
    change endLine c m = endLine d m
    unfold endLine Cursor.visible
    rw [hstate, htrail]
  idle _ _ h hne := enter_atEnd h hne
  rests c m _ := Grammar.rests_dispatch (leave_rests c m) enter_rests
  calm c m hcalm hend hstart := by
    change leave words c m = _
    change Calm c.state c.trail m at hcalm
    unfold leave
    cases hs : c.state
    case operator | number | dateTime | identifier | escape => rw [hs] at hcalm; exact hcalm.elim
    case table => exact leaveKey_calm (.inl hs) hcalm hend hstart
    case key => exact leaveKey_calm (.inr hs) hcalm hend hstart
    case literalString | string | tripleLiteralString | tripleString =>
      have hclosing := hend.byte_ne (closingByte_inner c.state)
      dsimp only
      unfold leaveString
      simp (disch := decide) [hstart, hclosing, hend.byte_ne]
    case error => simp (disch := decide) [hstart, hend.byte_ne]
    case comment => simp [hstart]
    case plain | keyword => rfl

end Highlight.Toml
