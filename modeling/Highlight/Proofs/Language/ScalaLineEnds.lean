import Highlight.Proofs.Language.ScalaComments
import Highlight.Proofs.Session.Summed

/-!
What Scala keeps of a line and the category of its newline belong together. A scan that starts
behind the newline takes its state from the category and the depth of comments from what is kept of
the line. Wherever a scan comes by, it is in a block comment just if the depth of comments is
positive, and no region, escape or reference returns to one (`Keyed`); so category and depth agree
at the end of every line, and what a scan keeps beside them does not matter there
(`newline_category`).
-/

namespace Highlight.Scala

open Byte (newline)

variable {config : Config} {c d : Place} {m y : Memory}

instance (s : Category) : Decidable s.ofBlock := inferInstanceAs (Decidable (_ ∨ _ ∨ _))

theorem ofBlock_forward : c.forward.state.ofBlock ↔ c.state.ofBlock := by
  rw [Cursor.state_forward]

/-! ### Outside of comments -/

/-- No state to go back to is one of a block comment. -/
structure Memory.Outside (m : Memory) : Prop where
  held : ∀ s ∈ m.regions.held, ¬s.ofBlock
  outer : ¬m.escape.outer.ofBlock
  reference : ∀ s ∈ m.reference, ¬s.ofBlock

/-- What a rule asks for opens no comment and closes none. -/
structure Memory.Apart (m : Memory) (r : Rule) : Prop where
  state : ¬r.cursor.state.ofBlock
  outside : r.data.Outside
  depth : r.data.commentDepth = m.commentDepth

/-- The flags and what is known of names matter to no state to go back to. -/
theorem Memory.Outside.of_eq (h : m.Outside) (hregions : y.regions = m.regions)
    (hescape : y.escape = m.escape) (hreference : y.reference = m.reference) : y.Outside :=
  ⟨hregions ▸ h.held, hescape ▸ h.outer, hreference ▸ h.reference⟩

/-- A comment that begins its line is marked. -/
theorem Memory.Outside.begun (h : m.Outside) :
    (if c.visible = 0 then m.markComment else m).Outside := by
  split
  · exact h.of_eq rfl rfl rfl
  · exact h

theorem Memory.Outside.escape (h : m.Outside) {e : Escape Category} (he : ¬e.outer.ofBlock) :
    { m with escape := e }.Outside :=
  ⟨h.held, he, h.reference⟩

theorem Memory.Outside.push (h : m.Outside) {s : Category} (hs : ¬s.ofBlock) :
    { m with regions := m.regions.push s }.Outside := by
  refine ⟨fun t ht => ?_, h.outer, h.reference⟩
  simp only [ReturnStack.push] at ht
  split at ht
  · rcases List.mem_cons.1 ht with rfl | ht
    · exact hs
    · exact h.held t ht
  · exact h.held t ht

/-- The state that a region returns to is one of those held, and all others stay. -/
theorem Memory.Outside.pop (h : m.Outside) {s : Category} {regions : ReturnStack Category}
    (hpop : m.regions.pop? = some (s, regions)) :
    ¬s.ofBlock ∧ { m with regions := regions }.Outside := by
  unfold ReturnStack.pop? at hpop
  split at hpop
  · cases hpop
  · next a rest hheld =>
    obtain ⟨rfl, rfl⟩ := Prod.mk.inj (Option.some.inj hpop)
    refine ⟨h.held _ (hheld ▸ List.mem_cons_self), fun t ht => ?_, h.outer, h.reference⟩
    dsimp only at ht
    split at ht
    · exact h.held t (hheld ▸ List.mem_cons_of_mem _ ht)
    · exact h.held t ht

section Rules

variable (h : m.Outside) (hs : ¬c.state.ofBlock)

/-- A rule that goes on in a given category, with the same states to go back to. -/
theorem Memory.Apart.of_state {r : Rule} {s : Category} (hstate : r.cursor.state = s)
    (hs : decide s.ofBlock = false) (h : r.data.Outside)
    (hdepth : r.data.commentDepth = m.commentDepth) : m.Apart r :=
  ⟨hstate ▸ of_decide_eq_false hs, h, hdepth⟩

theorem Memory.Apart.ite {p : Prop} [Decidable p] {r r' : Rule} (h : m.Apart r)
    (h' : m.Apart r') : m.Apart (if p then r else r') :=
  iteInduction (fun _ => h) fun _ => h'

include h

theorem outside_classifyName (config : Config) (c : Place) :
    (classifyName config c m).2.Outside ∧
      (classifyName config c m).2.commentDepth = m.commentDepth := by
  unfold classifyName
  dsimp only
  split
  all_goals exact ⟨h.of_eq rfl rfl rfl, rfl⟩

theorem apart_enterName : m.Apart (enterName c m) :=
  .of_state rfl rfl ⟨h.held, h.outer, nofun⟩ rfl

theorem apart_enterTag : m.Apart (enterTag c m) := by
  unfold enterTag
  split
  · exact .of_state Cursor.state_forward rfl (h.of_eq rfl rfl rfl) rfl
  · exact .of_state rfl rfl (h.of_eq rfl rfl rfl) rfl

theorem apart_enterRegionOperator : m.Apart (enterRegionOperator c m) := by
  unfold enterRegionOperator
  dsimp only
  split_ifs
  · exact .of_state rfl rfl (h.push (of_decide_eq_false rfl)) rfl
  · cases hpop : m.regions.pop? with
    | some p =>
      obtain ⟨hstate, houtside⟩ := h.pop hpop
      exact ⟨hstate, houtside, rfl⟩
    | none => exact .of_state rfl rfl h rfl
  · exact .of_state rfl rfl h rfl

theorem apart_enterOperator : m.Apart (enterOperator c m) := by
  unfold enterOperator
  split_ifs
  · exact .of_state Cursor.state_forward rfl h rfl
  · exact apart_enterRegionOperator h
  all_goals exact .of_state rfl rfl (h.of_eq rfl rfl rfl) rfl

theorem apart_enterString : m.Apart (enterString config c m) := by
  unfold enterString
  dsimp only
  split_ifs
  · exact .of_state (Cursor.state_forwardN 2) rfl h rfl
  · exact .of_state (Cursor.state_forwardN 2) rfl h rfl
  all_goals exact .of_state rfl rfl h rfl

theorem apart_enterApostrophe : m.Apart (enterApostrophe c m) := by
  unfold enterApostrophe
  split_ifs
  all_goals exact .of_state rfl rfl h rfl

include hs

theorem apart_leaveEscape : m.Apart (m.escape.leave c fun e => { m with escape := e }) := by
  unfold Escape.leave
  dsimp only
  split
  · split
    all_goals exact ⟨h.outer, h.escape h.outer, rfl⟩
  · exact ⟨hs, h.escape h.outer, rfl⟩

theorem apart_leaveWord : m.Apart (leaveWord config c m) := by
  have hstate : (passSeparator c).state = c.state := by
    unfold passSeparator
    split <;> rfl
  rw [← hstate] at hs
  unfold leaveWord
  generalize passSeparator c = d at hs
  dsimp only
  split_ifs
  · exact ⟨hs, h, rfl⟩
  · cases hreference : m.reference with
    | some outer =>
      exact ⟨h.reference outer hreference, ⟨h.held, h.outer, nofun⟩, rfl⟩
    | none =>
      obtain ⟨houtside, hdepth⟩ := outside_classifyName h config d
      exact .of_state rfl rfl houtside hdepth
  all_goals exact .of_state rfl rfl h rfl

theorem apart_enterInterpolation : m.Apart (enterInterpolation c m) := by
  unfold enterInterpolation
  split_ifs
  · exact .of_state Cursor.state_forward rfl (h.escape hs) rfl
  · exact .of_state Cursor.state_forward rfl (h.push hs) rfl
  · refine .of_state rfl rfl ⟨h.held, h.outer, fun s hmem => ?_⟩ rfl
    exact Option.some.inj hmem ▸ hs
  · exact ⟨hs, h, rfl⟩

theorem apart_leaveLiteral : m.Apart (leaveLiteral c m) := by
  unfold leaveLiteral
  dsimp only
  split_ifs
  · exact .of_state rfl rfl h rfl
  · unfold Escape.enter
    dsimp only
    split_ifs
    · exact ⟨hs, h, rfl⟩
    · exact .of_state (Cursor.state_forward.trans Cursor.state_forward) rfl (h.escape hs) rfl
    · exact .of_state Cursor.state_forward rfl (h.escape hs) rfl
  · exact apart_enterInterpolation h hs
  · unfold closeLiteral
    dsimp only
    by_cases hvalue : c.state = .singleQuoted ∨ c.state = .doubleQuoted
    · exact .of_state (if_pos hvalue) rfl h rfl
    · exact .of_state (if_neg hvalue) rfl h rfl
  · exact ⟨hs, h, rfl⟩

theorem apart_leaveMarkup : m.Apart (leaveMarkup c m) := by
  have hclose : m.Apart (closeTag c m) := by
    unfold closeTag
    dsimp only
    split_ifs
    all_goals exact .of_state rfl rfl (h.of_eq rfl rfl rfl) rfl
  have hgo : ∀ s, decide s.ofBlock = false → m.Apart (.pass (c.switch s) m) := fun s hstate =>
    .of_state rfl hstate h rfl
  unfold leaveMarkup
  refine .ite hclose (.ite (.of_state rfl rfl h rfl) ?_)
  refine .ite (hgo _ rfl) (.ite (hgo _ rfl) (.ite (hgo _ rfl) ?_))
  exact .ite (.of_state rfl rfl (h.push hs) rfl) (.ite (apart_enterTag h) ⟨hs, h, rfl⟩)

end Rules

/-! ### At every place -/

/-- The depth of comments is positive just within a block comment, and no state to go back to is
one of a block comment. -/
structure Keyed (c : Place) (m : Memory) : Prop where
  outside : m.Outside
  depth : 0 < m.commentDepth ↔ c.state.ofBlock

namespace Keyed

/-- A rule that neither opens nor closes a comment, asked outside of all comments. -/
theorem apart (h : Keyed c m) (hs : ¬c.state.ofBlock) {r : Rule} (hr : m.Apart r) :
    Keyed r.cursor r.data :=
  ⟨hr.outside, by rw [hr.depth, h.depth]; exact iff_of_false hs hr.state⟩

/-- Within a comment only the flags and the depth change. -/
theorem within (h : m.Outside) (hs : c.state.ofBlock) (hdepth : 0 < m.commentDepth) : Keyed c m :=
  ⟨h, iff_of_true hdepth hs⟩

theorem leaveBlockComment (h : Keyed c m) (hs : c.state.ofBlock) :
    Keyed (leaveBlockComment c m).cursor (leaveBlockComment c m).data := by
  have hdepth : 0 < (onLine c m).commentDepth := by rw [commentDepth_onLine, h.depth]; exact hs
  have houtside : (onLine c m).Outside := by
    unfold onLine
    split
    all_goals exact h.outside.of_eq rfl rfl rfl
  unfold Scala.leaveBlockComment
  rw [← onLine]
  generalize onLine c m = y at hdepth houtside
  dsimp only
  split_ifs
  · -- the last level closed, or one of several
    unfold closeBlockComment
    dsimp only
    split_ifs with hlast
    iterate 2
      · exact ⟨houtside.of_eq rfl rfl rfl,
          iff_of_false (Nat.not_lt.2 (Nat.le_of_eq hlast)) (of_decide_eq_false rfl)⟩
    · exact within (houtside.of_eq rfl rfl rfl) (ofBlock_forward.2 hs) (Nat.pos_of_ne_zero hlast)
  · exact within (houtside.of_eq rfl rfl rfl) (ofBlock_forward.2 hs) (Nat.succ_pos _)
  · exact within houtside (.inr (.inr rfl)) hdepth
  · exact within houtside hs hdepth

theorem leaveCommentTag (h : Keyed c m) (hs : c.state.ofBlock) :
    Keyed (leaveCommentTag c m).cursor (leaveCommentTag c m).data := by
  unfold Scala.leaveCommentTag
  split
  · exact h
  · exact within h.outside (.inr (.inl rfl)) (h.depth.2 hs)

theorem enterBlockComment (h : Keyed c m) :
    Keyed (enterBlockComment c m).cursor (enterBlockComment c m).data := by
  have hgo : ((c.switch .blockComment).forwardN 2).state = .blockComment := Cursor.state_forwardN 2
  unfold Scala.enterBlockComment
  dsimp only
  refine within (h.outside.begun.of_eq rfl rfl rfl) ?_ Nat.one_pos
  change (if _ then _ else _ : Place).state.ofBlock
  split
  · exact .inr (.inl rfl)
  · exact .inl hgo

theorem leave (h : Keyed c m) : Keyed (leave config c m).cursor (leave config c m).data := by
  by_cases hs : c.state.ofBlock
  · have hdispatch : c.state.isBlock = true ∨ c.state = .commentTag := by
      rcases hs with hs | hs | hs <;> simp [hs, Category.isBlock]
    rcases hdispatch with hblock | htag
    · rw [show Scala.leave config c m = _ from leave_eq_leaveBlockComment config hblock m]
      exact h.leaveBlockComment hs
    · rw [show Scala.leave config c m = _ from leave_eq_leaveCommentTag config htag m]
      exact h.leaveCommentTag hs
  · refine h.apart hs ?_
    have hplain : m.Apart (.pass (c.switch .plain) m) := .of_state rfl rfl h.outside rfl
    have hsame : m.Apart (.pass c m) := ⟨hs, h.outside, rfl⟩
    unfold Scala.leave
    cases hstate : c.state
    case number | lineComment =>
      dsimp only
      split_ifs
      all_goals assumption
    case operator | punctuation | postfixOperator => exact hplain
    case identifier | annotationName | symbol | tag | attributeName =>
      exact apart_leaveWord h.outside hs
    case blockComment | docComment | commentTag =>
      exact absurd (by simp [hstate, Category.ofBlock]) hs
    case escape => exact apart_leaveEscape h.outside hs
    case markupText | markupOther => exact apart_leaveMarkup h.outside hs
    case backquoted | character | string | interpolated | tripleString | tripleInterpolated |
        singleQuoted | doubleQuoted =>
      exact apart_leaveLiteral h.outside hs
    all_goals exact hsame

theorem enterPunctuation (h : Keyed c m) (hs : ¬c.state.ofBlock) :
    Keyed (enterPunctuation config c m).cursor (enterPunctuation config c m).data := by
  refine enterPunctuation_cases (motive := fun r => Keyed r.cursor r.data) ?line ?block ?string
    ?letter ?tag ?sign ?name ?operator
  case line =>
    refine h.apart hs (.of_state rfl rfl h.outside.begun ?_)
    change (if _ then _ else _ : Memory).commentDepth = _
    split <;> rfl
  case block => exact fun _ _ => h.enterBlockComment
  case string => exact fun _ => h.apart hs (apart_enterString h.outside)
  case letter => exact h.apart hs (apart_enterApostrophe h.outside)
  case tag => exact fun _ => h.apart hs (apart_enterTag h.outside)
  case sign =>
    refine fun s hsign => h.apart hs (.of_state (s := s) rfl ?_ h.outside rfl)
    revert s
    decide
  case name => exact h.apart hs (apart_enterName h.outside)
  case operator => exact h.apart hs (apart_enterOperator h.outside)

theorem enter (h : Keyed c m) (hplain : c.state = .plain) :
    Keyed (enter config c m).cursor (enter config c m).data := by
  have hs : ¬c.state.ofBlock := by simp [hplain, Category.ofBlock]
  unfold Scala.enter
  split
  · exact h.apart hs (.of_state rfl rfl h.outside rfl)
  · exact h.apart hs (apart_enterName h.outside)
  · exact h.enterPunctuation hs
  all_goals exact h.apart hs ⟨hs, h.outside, rfl⟩

end Keyed

end Highlight.Scala
