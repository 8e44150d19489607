import Highlight.Proofs.Language.ScalaMoves
import Highlight.Proofs.Scan.Room
import Highlight.Proofs.Session.Forgets

/-!
How many states to return to are held shows in no scan that needs no more. The rules of Scala ask
of the regions only whether one is open, open one and close one; all other rules leave them alone
and do the same in any regions. So a scan goes the same way with room for any number of states, as
long as no more regions than that were ever open.
-/

namespace Highlight.Scala

open Byte

/-- The data in other regions. -/
def Memory.inRegions (m : Memory) (r : ReturnStack Category) : Memory := { m with regions := r }

/-- The rule has nothing to do with regions. -/
def Aside (rule : Memory → Rule) : Prop :=
  ∀ m r, rule (m.inRegions r) = (rule m).mapData (·.inRegions r)

variable {config : Config} {c : Place} {m : Memory} {r : ReturnStack Category}

/-! ### Rules that have nothing to do with regions -/

theorem aside_pass (c : Place) : Aside (.pass c) := fun _ _ => rfl

theorem aside_again (c : Place) : Aside (.again c) := fun _ _ => rfl

theorem aside_enterLineComment : Aside (enterLineComment c) := by
  intro m r
  simp only [enterLineComment, Flow.mapData_pass, apply_ite (Memory.inRegions · r)]
  rfl

theorem aside_enterBlockComment : Aside (enterBlockComment c) := by
  intro m r
  simp only [enterBlockComment, Flow.mapData_again]
  by_cases h : c.visible = 0
  · simp only [if_pos h]
    rfl
  · simp only [if_neg h]
    rfl

theorem aside_closeBlockComment : Aside (closeBlockComment c) := by
  intro m r
  simp only [closeBlockComment, Flow.mapData_ite, Flow.mapData_pass,
    apply_ite (Memory.inRegions · r)]
  rfl

theorem aside_leaveBlockComment : Aside (leaveBlockComment c) := by
  intro m r
  have hmark : (if c.atLineStart = true then
      { m.inRegions r with flags := { comment := true } } else m.inRegions r) =
      (if c.atLineStart = true then { m with flags := { comment := true } } else m).inRegions r := by
    rw [apply_ite (Memory.inRegions · r)]
    rfl
  unfold leaveBlockComment
  simp only [hmark, aside_closeBlockComment _ r, Flow.mapData_ite, Flow.mapData_pass]
  rfl

theorem aside_leaveCommentTag : Aside (leaveCommentTag c) := by
  intro m r
  simp only [leaveCommentTag, Flow.mapData_ite]
  rfl

theorem aside_closeLiteral : Aside (closeLiteral c) := fun _ _ => rfl

theorem aside_enterString : Aside (enterString config c) := by
  intro m r
  simp only [enterString, Flow.mapData_ite]
  rfl

theorem aside_enterApostrophe : Aside (enterApostrophe c) := by
  intro m r
  simp only [enterApostrophe, Flow.mapData_ite]
  rfl

theorem aside_enterEscape (e : EscapeSyntax) (s : Category) :
    Aside fun m => Escape.enter e s c m fun e => { m with escape := e } := by
  intro m r
  simp only [Escape.enter, Flow.mapData_ite]
  rfl

theorem aside_leaveEscape : Aside fun m => m.escape.leave c fun e => { m with escape := e } := by
  intro m r
  simp only [Escape.leave, Flow.mapData_ite]
  rfl

theorem aside_enterTag : Aside (enterTag c) := by
  intro m r
  simp only [enterTag, Flow.mapData_ite]
  rfl

theorem aside_closeTag : Aside (closeTag c) := by
  intro m r
  unfold closeTag
  by_cases h : (c.byte == slash) = true
  · simp only [h, if_true]
    rfl
  · simp only [h, Bool.false_eq_true, if_false]
    rfl

theorem aside_enterName : Aside (enterName c) := fun _ _ => rfl

theorem aside_leaveWord : Aside (leaveWord config c) := by
  intro m r
  have hclassify : ∀ c, classifyName config c (m.inRegions r) =
      ((classifyName config c m).1, (classifyName config c m).2.inRegions r) := by
    intro c
    simp only [classifyName, apply_ite (Memory.inRegions · r)]
    rfl
  have hreference : (m.inRegions r).reference = m.reference := rfl
  unfold leaveWord
  cases h : m.reference with
  | none =>
    simp only [hreference, h, hclassify, Flow.mapData_ite, Flow.mapData_pass, Flow.mapData_again]
  | some outer =>
    simp only [hreference, h, Flow.mapData_ite, Flow.mapData_pass, Flow.mapData_again]
    rfl

/-! ### Rules that open and close regions -/

/-- Regions with room for `cap` states, and with room for `n`. -/
def room (cap n : Nat) : Room Memory where
  moved m := m.inRegions (m.regions.recap n)
  sound m := m.regions.depth ≤ m.regions.peak ∧ m.regions.cap = cap
  enough m := m.regions.peak ≤ cap ∧ m.regions.peak ≤ n

variable {cap n : Nat}

/-- What has nothing to do with regions is the same with room for any number of states. -/
theorem Aside.sharesRoom {rule : Memory → Rule} (h : Aside rule) (m : Memory) :
    (rule m).SharesRoom (room cap n) m (rule ((room cap n).moved m)) := by
  have hself : rule m = (rule m).mapData (·.inRegions m.regions) := h m m.regions
  have hsame := h m (m.regions.recap n)
  revert hself hsame
  cases rule m with
  | pass c z | again c z =>
    intro hself hsame
    have hregions : z.regions = m.regions := congrArg (·.data.regions) hself
    refine ⟨fun hs => ?_, fun he => ?_, fun _ _ => hsame.trans ?_⟩
    · simpa only [room, Flow.data, hregions] using hs
    · simpa only [room, Flow.data, hregions] using he
    · simp only [room, Flow.mapData, hregions]

/-- A region that is opened needs room for one state more, which the peak tells. -/
theorem sharesRoom_push (c : Place) (m : Memory) (a : Category) :
    (Flow.pass c { m with regions := m.regions.push a } : Rule).SharesRoom (room cap n) m
      (.pass c ((room cap n).moved m |>.inRegions
        ((m.regions.recap n).push a))) := by
  refine ⟨fun hs => ⟨Nat.le_max_right _ _, hs.2⟩, fun he => ?_, fun hs he => ?_⟩
  · exact ⟨(Nat.le_max_left _ _).trans he.1, (Nat.le_max_left _ _).trans he.2⟩
  · have hcap : m.regions.depth < m.regions.cap :=
      hs.2 ▸ (Nat.le_max_right m.regions.peak (m.regions.depth + 1)).trans he.1
    have hn : m.regions.depth < n :=
      (Nat.le_max_right m.regions.peak (m.regions.depth + 1)).trans he.2
    rw [ReturnStack.push_recap hcap hn]
    rfl

theorem enterInterpolation_sharesRoom (c : Place) (m : Memory) :
    (enterInterpolation c m).SharesRoom (room cap n) m
      (enterInterpolation c ((room cap n).moved m)) := by
  unfold enterInterpolation
  refine .ite (fun _ => ⟨id, id, fun _ _ => rfl⟩) fun _ => ?_
  refine .ite (fun _ => sharesRoom_push _ m _) fun _ => ?_
  exact .ite (fun _ => ⟨id, id, fun _ _ => rfl⟩) fun _ => (aside_pass c).sharesRoom m

theorem leaveLiteral_sharesRoom (c : Place) (m : Memory) :
    (leaveLiteral c m).SharesRoom (room cap n) m (leaveLiteral c ((room cap n).moved m)) := by
  unfold leaveLiteral
  refine .ite (fun _ => (aside_pass _).sharesRoom m) fun _ => ?_
  refine .ite (fun _ => (aside_enterEscape _ _).sharesRoom m) fun _ => ?_
  refine .ite (fun _ => enterInterpolation_sharesRoom c m) fun _ => ?_
  exact .ite (fun _ => aside_closeLiteral.sharesRoom m) fun _ => (aside_pass c).sharesRoom m

theorem leaveMarkup_sharesRoom (c : Place) (m : Memory) :
    (leaveMarkup c m).SharesRoom (room cap n) m (leaveMarkup c ((room cap n).moved m)) := by
  unfold leaveMarkup
  refine .ite (fun _ => aside_closeTag.sharesRoom m) fun _ => ?_
  refine .ite (fun _ => (aside_again _).sharesRoom m) fun _ => ?_
  refine .ite (fun _ => (aside_pass _).sharesRoom m) fun _ => ?_
  refine .ite (fun _ => (aside_pass _).sharesRoom m) fun _ => ?_
  refine .ite (fun _ => (aside_pass _).sharesRoom m) fun _ => ?_
  refine .ite (fun _ => sharesRoom_push _ m _) fun _ => ?_
  exact .ite (fun _ => aside_enterTag.sharesRoom m) fun _ => (aside_pass c).sharesRoom m

/-- As long as all regions are held, closing one brings back the same state. -/
theorem pop?_moved (hs : (room cap n).sound m) (he : (room cap n).enough m) :
    ((room cap n).moved m).regions.pop? =
      m.regions.pop?.map (Prod.map id (ReturnStack.recap · n)) :=
  ReturnStack.pop?_recap (hs.2 ▸ hs.1.trans he.1) (hs.1.trans he.2)

theorem enterRegionOperator_sharesRoom (c : Place) (m : Memory) :
    (enterRegionOperator c m).SharesRoom (room cap n) m
      (enterRegionOperator c ((room cap n).moved m)) := by
  unfold enterRegionOperator
  refine .ite (fun _ => sharesRoom_push _ m _) fun _ => ?_
  refine .ite (fun _ => ?_) fun _ => (aside_pass _).sharesRoom m
  cases hpop : m.regions.pop? with
  | none =>
    refine ⟨id, id, fun hs he => ?_⟩
    rw [pop?_moved hs he, hpop]
    rfl
  | some popped =>
    obtain ⟨outer, regions⟩ := popped
    obtain ⟨hdepth, hpeak⟩ := ReturnStack.depth_peak_pop hpop
    have hbefore : (room cap n).enough { m with regions := regions } → (room cap n).enough m :=
      fun he => ⟨hpeak ▸ he.1, hpeak ▸ he.2⟩
    refine ⟨fun hs => ⟨?_, ?_⟩, hbefore, fun hs he => ?_⟩
    · exact (hdepth.trans hs.1).trans hpeak.ge
    · exact (ReturnStack.cap_pop hpop).trans hs.2
    · rw [pop?_moved hs (hbefore he), hpop]
      rfl

theorem enterOperator_sharesRoom (c : Place) (m : Memory) :
    (enterOperator c m).SharesRoom (room cap n) m (enterOperator c ((room cap n).moved m)) := by
  unfold enterOperator
  refine .ite (fun _ => (aside_pass _).sharesRoom m) fun _ => ?_
  refine .ite (fun _ => enterRegionOperator_sharesRoom c m) fun _ => ?_
  have hmark : Aside fun m => .pass (c.switch .operator)
      (if c.visible = 0 ∧ (c.byte = rbrace ∨ c.byte = rbracket ∨ c.byte = rparen) then m.markCloser
        else m) := by
    intro m r
    simp only [Flow.mapData_pass, apply_ite (Memory.inRegions · r)]
    rfl
  exact hmark.sharesRoom m

/-! ### All rules -/

theorem leave_sharesRoom (c : Place) (m : Memory) :
    (leave config c m).SharesRoom (room cap n) m (leave config c ((room cap n).moved m)) := by
  unfold leave
  cases c.state
  case operator | punctuation | postfixOperator => exact (aside_pass _).sharesRoom m
  case number =>
    exact .ite (fun _ => (aside_pass _).sharesRoom m) fun _ => (aside_pass _).sharesRoom m
  case identifier | annotationName | symbol | tag | attributeName =>
    exact aside_leaveWord.sharesRoom m
  case lineComment =>
    exact .ite (fun _ => (aside_pass _).sharesRoom m) fun _ => (aside_pass _).sharesRoom m
  case blockComment | docComment => exact aside_leaveBlockComment.sharesRoom m
  case commentTag => exact aside_leaveCommentTag.sharesRoom m
  case escape => exact aside_leaveEscape.sharesRoom m
  case markupText | markupOther => exact leaveMarkup_sharesRoom c m
  case backquoted | character | string | interpolated | tripleString | tripleInterpolated |
      singleQuoted | doubleQuoted => exact leaveLiteral_sharesRoom c m
  case plain | keyword | className | traitName | enumName | functionDefinition | function =>
    exact (aside_pass c).sharesRoom m

theorem enterPunctuation_sharesRoom (c : Place) (m : Memory) :
    (enterPunctuation config c m).SharesRoom (room cap n) m
      (enterPunctuation config c ((room cap n).moved m)) := by
  unfold enterPunctuation
  refine .ite (fun _ => aside_enterLineComment.sharesRoom m) fun _ => ?_
  refine .ite (fun _ => aside_enterBlockComment.sharesRoom m) fun _ => ?_
  refine .ite (fun _ => aside_enterString.sharesRoom m) fun _ => ?_
  refine .ite (fun _ => aside_enterApostrophe.sharesRoom m) fun _ => ?_
  refine .ite (fun _ => ?_) fun _ => ?_
  · exact .ite (fun _ => aside_enterTag.sharesRoom m) fun _ => (aside_pass _).sharesRoom m
  refine .ite (fun _ => (aside_pass _).sharesRoom m) fun _ => ?_
  refine .ite (fun _ => (aside_pass _).sharesRoom m) fun _ => ?_
  refine .ite (fun _ => aside_enterName.sharesRoom m) fun _ => ?_
  exact .ite (fun _ => (aside_pass _).sharesRoom m) fun _ => enterOperator_sharesRoom c m

theorem enter_sharesRoom (c : Place) (m : Memory) :
    (enter config c m).SharesRoom (room cap n) m (enter config c ((room cap n).moved m)) := by
  unfold enter
  cases ByteClass.of c.byte
  case digit => exact (aside_pass _).sharesRoom m
  case nameStart => exact aside_enterName.sharesRoom m
  case punctuation => exact enterPunctuation_sharesRoom c m
  case space | lineEnd | control => exact (aside_pass c).sharesRoom m

/-- **The room for states to return to is all that its bound changes.** -/
theorem sharesRoom (config : Config) (n : Nat) :
    (grammar config).SharesRoom (room (max config.stackCap 1) (max n 1))
      (grammar { config with stackCap := n }) where
  begin _ _ := rfl
  sound_begin _ _ := ⟨Nat.le_refl 0, rfl⟩
  leave := leave_sharesRoom
  enter := enter_sharesRoom
  endLine _ _ := rfl
  sound_endLine _ _ := id
  before_endLine _ _ := id
  nesting _ := rfl

/-- **The bound on the states held is invisible until it is exceeded.** The scan of a whole text
succeeds, and if never more regions were open in it than may be held under either bound, a bound of
zero being as good as one, then with the other bound the scan finds the same, and leaves the same
categories and line states. Whatever was scanned before with either session makes no difference. -/
theorem stackCap_invisible (config : Config) (n : Nat) (s s' : Session Category) (text : Text) :
    ∃ found, (s.highlight (grammar config) text).2 = .ok found ∧
      (found.nesting.deepest ≤ max config.stackCap 1 → found.nesting.deepest ≤ max n 1 →
        s'.highlight (grammar { config with stackCap := n }) text =
          s.highlight (grammar config) text) := by
  have hs := Session.highlight_of_staysInLine (staysInLine config) s text
  have hs' := Session.highlight_of_staysInLine (staysInLine { config with stackCap := n }) s' text
  refine ⟨_, congrArg Prod.snd hs, fun hown hother => ?_⟩
  have hfresh := (sharesRoom config n).fresh_moved text ⟨hown, hother⟩
  rw [hs, hs', Pass.freshStore, hfresh]
  rfl

/-- A brace in a hole of a string opens a second region: room for two is as good as room for seven,
and room for one is not. -/
theorem stackCap_invisible_brace :
    let config : Config := { words := {}, stackCap := 2 }
    let text : Text := [lowerA, quote, dollar, lbrace, lbrace, rbrace, rbrace, quote]
    let highlighted (n : Nat) := Session.highlight (grammar { config with stackCap := n }) {} text
    ∃ found, (highlighted 2).2 = .ok found ∧ found.nesting.deepest = 2 ∧
      highlighted 7 = highlighted 2 ∧ (highlighted 1).1.styles ≠ (highlighted 2).1.styles := by
  intro config text highlighted
  obtain ⟨found, hfound, hsame⟩ := stackCap_invisible config 7 {} {} text
  have hdeepest : found.nesting.deepest = 2 := by
    have hcomputed : (highlighted 2).2.toOption.map (·.nesting.deepest) = some 2 := by
      decide +kernel
    have hreads : (highlighted 2).2 = .ok found := hfound
    rw [hreads] at hcomputed
    exact Option.some.inj hcomputed
  refine ⟨found, hfound, hdeepest, hsame ?_ ?_, by decide +kernel⟩
  · rw [hdeepest]
    decide
  · rw [hdeepest]
    decide

end Highlight.Scala
