import Highlight.Proofs.Language.ScalaPlaces

/-!
The places that a scan of markup comes by: within tags, in attribute values, between tags, and at
the braces of holes.
-/

namespace Highlight.Scala

open Byte (colon dot equals greater isAlpha lbrace less lparen minus newline quote rbrace rparen
  slash space)
open Pass (Visits)

variable {config : Config} {text u : Text} {b : Byte} {c : Place} {m : Memory}
  {marks : List (Option Category)} {R : ReturnStack Category} {n : Nat}

/-! ### Letters -/

theorem isNameByte_of_isAlpha (hb : isAlpha b = true) : isNameByte b = true := by
  simp [isNameByte, Byte.isNameByte, Byte.isNameStart, hb]

/-! ### Names and attributes -/

/-- What the rule for words says of the name of a tag or of an attribute. -/
theorem leave_markupName (hs : c.state = .tag ∨ c.state = .attributeName) (hdot : c.byte ≠ dot)
    (hcolon : c.byte ≠ colon) :
    leave config c m =
      if isNameByte c.byte || c.byte == minus then .pass c m
      else .again (c.switch .markupOther) m := by
  have hpass : passSeparator c = c := by simp [passSeparator, separates, hdot, hcolon]
  rcases hs with hs | hs
  all_goals
    simp only [leave, hs, leaveWord, hpass, continuesWord, Category.isMarkupName, Bool.and_true]
    rfl

/-- A name in markup goes on. -/
theorem Comes.markupName {s : Category} (hs : s = .tag ∨ s = .attributeName)
    (h : Comes config text ⟨.inside s, marks, b :: u, R, n⟩) (hb : isAlpha b = true) :
    Comes config text ⟨.inside s, marks ++ [some s], u, R, n⟩ := by
  have hplain : s ≠ .plain := by rcases hs with rfl | rfl <;> decide
  refine h.goesOn hplain (ne_of_holds hb (by decide)) fun c m hc => ?_
  have hbyte : c.byte = b := byte_of_ahead hc.ahead
  rw [leave_markupName (hc.stance ▸ hs) (hbyte ▸ ne_of_holds hb (by decide))
    (hbyte ▸ ne_of_holds hb (by decide)), hbyte, isNameByte_of_isAlpha hb]
  rfl

/-- A byte at which a name in markup ends. -/
def endsMarkupName (b : Byte) : Bool :=
  b == space || b == equals || b == slash || b == greater

/-- A name in markup ends. -/
theorem Comes.endsMarkupName {s : Category} (hs : s = .tag ∨ s = .attributeName)
    (h : Comes config text ⟨.inside s, marks, b :: u, R, n⟩) (hb : endsMarkupName b = true) :
    Comes config text ⟨.inside .markupOther, marks, b :: u, R, n⟩ := by
  obtain ⟨c, m, hv, h⟩ := h
  have hbyte : c.byte = b := byte_of_ahead h.ahead
  have hnot : b ≠ dot ∧ b ≠ colon ∧ (isNameByte b || b == minus) = false := by
    simp only [Scala.endsMarkupName, Bool.or_eq_true, beq_iff_eq] at hb
    rcases hb with ((rfl | rfl) | rfl) | rfl <;> decide
  have hleave : leave config c m = .again (c.switch .markupOther) m := by
    rw [leave_markupName (h.stance ▸ hs) (hbyte ▸ hnot.1) (hbyte ▸ hnot.2.1), hbyte, hnot.2.2]
    rfl
  exact ⟨_, _, visits_again hv h.ahead (dispatch_of_again hleave),
    h.turn (.inside .markupOther) rfl h.regions h.elements h.unnested⟩

/-- A space in a tag. -/
theorem Comes.spaceInTag
    (h : Comes config text ⟨.inside .markupOther, marks, Byte.space :: u, R, n⟩) :
    Comes config text ⟨.inside .markupOther, marks ++ [some .markupOther], u, R, n⟩ := by
  refine h.goesOn (by decide) (by decide) fun c m hc => ?_
  have hs : c.state = .markupOther := hc.stance
  simp only [leave, hs, leaveMarkup, Cursor.reads, byte_of_ahead hc.ahead]
  rfl

/-- The name of an attribute begins. -/
theorem Comes.opensAttribute (h : Comes config text ⟨.inside .markupOther, marks, b :: u, R, n⟩)
    (hb : isAlpha b = true) :
    Comes config text ⟨.inside .attributeName, marks ++ [some .attributeName], u, R, n⟩ := by
  refine h.begins (by decide) (ne_of_holds hb (by decide)) fun c m hc => ⟨m, ?_, hc.regions,
    hc.elements, hc.unnested⟩
  have hs : c.state = .markupOther := hc.stance
  have hne (a : Byte) (ha : isAlpha a = false) : b ≠ a := ne_of_holds hb ha
  have hstart : isNameStart b = true := by simp [isNameStart, Byte.isNameStart, hb]
  have hreads : c.reads slash greater = false := by
    simp [Cursor.reads, byte_of_ahead hc.ahead, hne slash (by decide)]
  simp only [leave, hs, leaveMarkup, hreads, byte_of_ahead hc.ahead, hne greater (by decide),
    hne equals (by decide), hne Byte.apostrophe (by decide), hne quote (by decide), hstart]
  rfl

/-- The sign between the name of an attribute and its value. -/
theorem Comes.equalsSign (h : Comes config text ⟨.inside .markupOther, marks, equals :: u, R, n⟩) :
    Comes config text ⟨.inside .markupOther, marks ++ [some .punctuation], u, R, n⟩ := by
  obtain ⟨c, m, hv, h⟩ := h
  have hs : c.state = .markupOther := h.stance
  have hleave : leave config c m =
      .again ((c.switch .punctuation).forwardSwitch .markupOther) m := by
    simp only [leave, hs, leaveMarkup, Cursor.reads, byte_of_ahead h.ahead]
    rfl
  refine ⟨_, _, visits_again hv h.ahead (dispatch_of_again hleave), ?_⟩
  have hpassed := h.begins (t := .punctuation) (.inside .punctuation) rfl
    (Stance.inside_ne_name _) (by decide) h.regions h.elements h.unnested
  exact hpassed.turn (.inside .markupOther) rfl h.regions h.elements h.unnested

/-- The value of an attribute begins. -/
theorem Comes.opensValue (h : Comes config text ⟨.inside .markupOther, marks, quote :: u, R, n⟩) :
    Comes config text ⟨.inside .doubleQuoted, marks ++ [some .doubleQuoted], u, R, n⟩ := by
  refine h.begins (by decide) (by decide) fun c m hc => ⟨m, ?_, hc.regions, hc.elements,
    hc.unnested⟩
  have hs : c.state = .markupOther := hc.stance
  simp only [leave, hs, leaveMarkup, Cursor.reads, byte_of_ahead hc.ahead]
  rfl

/-- A letter in the value of an attribute. -/
theorem Comes.valueLetter (h : Comes config text ⟨.inside .doubleQuoted, marks, b :: u, R, n⟩)
    (hb : isAlpha b = true) :
    Comes config text ⟨.inside .doubleQuoted, marks ++ [some .doubleQuoted], u, R, n⟩ := by
  refine h.goesOn (by decide) (ne_of_holds hb (by decide)) fun c m hc => ?_
  have hs : c.state = .doubleQuoted := hc.stance
  have hquote : b ≠ Category.doubleQuoted.closingByte := ne_of_holds hb (by decide)
  have hbackslash : b ≠ Byte.backslash := ne_of_holds hb (by decide)
  have hdollar : b ≠ Byte.dollar := ne_of_holds hb (by decide)
  simp only [leave, hs, leaveLiteral, hc.started, byte_of_ahead hc.ahead, hquote, hbackslash,
    hdollar]
  rfl

/-- The value of an attribute ends. -/
theorem Comes.closesValue (h : Comes config text ⟨.inside .doubleQuoted, marks, quote :: u, R, n⟩) :
    Comes config text ⟨.inside .markupOther, marks ++ [some .doubleQuoted], u, R, n⟩ := by
  refine h.ends (t := .markupOther) (by decide) fun c m hc => ?_
  have hs : c.state = .doubleQuoted := hc.stance
  simp only [leave, hs, leaveLiteral, hc.started, byte_of_ahead hc.ahead, closeLiteral]
  rfl

/-! ### Tags -/

/-- Where a scan goes on behind a tag, by the number of elements that are open. -/
def behindTag (n : Nat) : Category := if n = 0 then .plain else .markupText

/-- A tag ends. -/
theorem Comes.closesTag (h : Comes config text ⟨.inside .markupOther, marks, greater :: u, R, n⟩) :
    Comes config text ⟨.of (behindTag n), marks ++ [some .tag], u, R, n⟩ := by
  obtain ⟨c, m, hv, h⟩ := h
  have hs : c.state = .markupOther := h.stance
  have hn : m.elements = n := h.elements
  have hleave : leave config c m = .again ((c.switch .tag).forwardSwitch (behindTag n)) m := by
    simp only [leave, hs, leaveMarkup, closeTag, byte_of_ahead h.ahead, ← hn]
    rfl
  refine ⟨_, _, visits_again hv h.ahead (dispatch_of_again hleave), ?_⟩
  have hpassed := h.begins (t := .tag) (.inside .tag) rfl (Stance.inside_ne_name _) (by decide)
    h.regions h.elements h.unnested
  exact hpassed.turn (.of (behindTag n)) (Stance.holds_of rfl) h.regions h.elements h.unnested

/-- A tag ends that closes its own element. -/
theorem Comes.closesEmptyTag
    (h : Comes config text ⟨.inside .markupOther, marks, slash :: greater :: u, R, n + 1⟩) :
    Comes config text ⟨.of (behindTag n), marks ++ [some .tag, some .tag], u, R, n⟩ := by
  obtain ⟨c, m, hv, h⟩ := h
  have hs : c.state = .markupOther := h.stance
  have hn : m.elements - 1 = n := by
    rw [show m.elements = n + 1 from h.elements, Nat.add_sub_cancel]
  have hleave : leave config c m = .again ((c.switch .tag).forward.forwardSwitch (behindTag n))
      { m with elements := m.elements - 1 } := by
    have hreads : c.reads slash greater = true := by
      simp [Cursor.reads, byte_of_ahead h.ahead, next_of_ahead h.ahead]
    simp only [leave, hs, leaveMarkup, hreads, closeTag, byte_of_ahead h.ahead, ← hn]
    rfl
  refine ⟨_, _, visits_again hv h.ahead (dispatch_of_again hleave), ?_⟩
  have hslash := h.begins (t := .tag) (.inside .tag) rfl (Stance.inside_ne_name _) (by decide)
    h.regions h.elements h.unnested
  have hgreater := hslash.goesOn Cursor.state_forward (Stance.inside_ne_name _) (by decide)
  rw [List.append_assoc] at hgreater
  exact hgreater.turn (.of (behindTag n)) (Stance.holds_of rfl) h.regions hn h.unnested

/-- The tag of an element begins in the text of another one. -/
theorem Comes.opensTag (h : Comes config text ⟨.inside .markupText, marks, less :: b :: u, R, n⟩)
    (hb : isAlpha b = true) :
    Comes config text ⟨.inside .tag, marks ++ [some .tag], b :: u, R, n + 1⟩ := by
  refine h.begins (by decide) (by decide) fun c m hc => ⟨{ m with elements := m.elements + 1 }, ?_,
    hc.regions, congrArg (· + 1) hc.elements, hc.unnested⟩
  have hs : c.state = .markupText := hc.stance
  have hslash : b ≠ slash := ne_of_holds hb (by decide)
  simp only [leave, hs, leaveMarkup, Cursor.reads, byte_of_ahead hc.ahead, enterTag,
    next_of_ahead hc.ahead, hslash]
  rfl

/-- The tag that closes an element begins. -/
theorem Comes.opensEndTag
    (h : Comes config text ⟨.inside .markupText, marks, less :: slash :: u, R, n + 1⟩) :
    Comes config text ⟨.inside .tag, marks ++ [some .tag, some .tag], u, R, n⟩ := by
  refine h.beginsTwo (by decide) (by decide) (by decide) fun c m hc =>
    ⟨{ m with elements := m.elements - 1 }, ?_, hc.regions, ?_, hc.unnested⟩
  · have hs : c.state = .markupText := hc.stance
    simp only [leave, hs, leaveMarkup, Cursor.reads, byte_of_ahead hc.ahead, enterTag,
      next_of_ahead hc.ahead]
    rfl
  · rw [show m.elements = n + 1 from hc.elements, Nat.add_sub_cancel]

/-- The rule for a less-than sign directly behind a bracket, before a letter. -/
theorem enter_less (hmarkup : config.markup = true) (hb : isAlpha b = true)
    (ha : c.ahead = less :: b :: u) (hbehind : c.behind = lparen ∨ c.behind = lbrace) :
    enter config c m = .pass (c.switch .tag) { m with elements := m.elements + 1 } := by
  have hopens : opensTag c = true := by
    rcases hbehind with hbehind | hbehind
    all_goals simp [opensTag, next_of_ahead ha, isNameByte_of_isAlpha hb, hbehind]
  have hslash : b ≠ slash := ne_of_holds hb (by decide)
  simp only [enter, byte_of_ahead ha, enterPunctuation, hmarkup, hopens, enterTag,
    next_of_ahead ha, hslash]
  rfl

/-- The tag of an element begins in program text, directly behind a bracket. -/
theorem Visits.opensTag (hmarkup : config.markup = true) (hb : isAlpha b = true)
    (hv : Visits (grammar config) text c m)
    (h : Spot.Holds ⟨.code, marks, less :: b :: u, R, n⟩ c m)
    (hbehind : c.behind = lparen ∨ c.behind = lbrace) :
    Comes config text ⟨.inside .tag, marks ++ [some .tag], b :: u, R, n + 1⟩ := by
  obtain ⟨d, hprev, hspot, hrule⟩ := h.enters config
  have hbehind' : d.behind = c.behind := congrArg (·.getD 0) hprev
  have henter := enter_less (m := m) hmarkup hb hspot.ahead (hbehind' ▸ hbehind)
  exact Visits.begins hv (more_of_ahead h.ahead) hspot (hrule.trans henter) rfl nofun (by decide)
    h.regions (congrArg (· + 1) h.elements) h.unnested

/-! ### Between tags -/

/-- A byte that stands for itself between tags. -/
def isPlainInMarkup (b : Byte) : Bool := isAlpha b || b == space || b == rbrace

/-- What stands for itself between tags belongs to their text, also a brace that closes. -/
theorem Comes.markupText (h : Comes config text ⟨.inside .markupText, marks, b :: u, R, n⟩)
    (hb : isPlainInMarkup b = true) :
    Comes config text ⟨.inside .markupText, marks ++ [some .markupText], u, R, n⟩ := by
  have hne (a : Byte) (ha : isPlainInMarkup a = false) : b ≠ a := ne_of_holds hb ha
  refine h.goesOn (by decide) (hne newline (by decide)) fun c m hc => ?_
  have hs : c.state = .markupText := hc.stance
  have hreads : c.reads slash greater = false := by
    simp [Cursor.reads, byte_of_ahead hc.ahead, hne slash (by decide)]
  simp only [leave, hs, leaveMarkup, hreads, byte_of_ahead hc.ahead, hne greater (by decide),
    hne lbrace (by decide), hne less (by decide)]
  simp

/-- The rule for a brace between tags. -/
theorem leave_lbrace (config : Config) (m : Memory) (hs : c.state = .markupText)
    (hb : c.byte = lbrace) :
    leave config c m =
      .pass (c.switch .punctuation) { m with regions := m.regions.push c.state } := by
  simp only [leave, hs, leaveMarkup, Cursor.reads, hb]
  rfl

/-- A hole opens between tags. -/
theorem Comes.opensMarkupHole
    (h : Comes config text ⟨.inside .markupText, marks, lbrace :: u, R, n⟩) :
    ∃ c m, Visits (grammar config) text c m ∧ c.behind = lbrace ∧
      Spot.Holds ⟨.code, marks ++ [some .punctuation], u, R.push .markupText, n⟩ c m := by
  obtain ⟨c, m, hv, h⟩ := h
  have hs : c.state = .markupText := h.stance
  have hleave := leave_lbrace config m hs (byte_of_ahead h.ahead)
  have hpassed := h.begins (t := .punctuation) (y := { m with regions := m.regions.push c.state })
    .code (.inr (.inr rfl)) nofun (by decide) (by rw [hs, h.regions]) h.elements h.unnested
  refine ⟨_, _, hv.pass (more_of_ahead h.ahead) (dispatch_of_pass hleave nofun) ?_, ?_, hpassed⟩
  · change c.byte ≠ newline
    rw [byte_of_ahead h.ahead]
    decide
  · rw [Cursor.forward_cons (c := c.switch .punctuation) h.ahead]
    rfl

/-! ### Parentheses -/

/-- The category of a parenthesis that closes, by the number of regions that are open. -/
def closerCategory (depth : Nat) : Category := if depth = 0 then .operator else .punctuation

/-- The rule for a parenthesis that closes. -/
theorem enter_rparen (config : Config) (m : Memory) (hb : c.byte = rparen) :
    ∃ y, enter config c m = .pass (c.switch (closerCategory m.regions.depth)) y ∧
      y.regions = m.regions ∧ y.elements = m.elements ∧ y.flags.nested = m.flags.nested := by
  have hclass : enter config c m =
      if !m.regions.isEmpty then enterRegionOperator c m
      else .pass (c.switch .operator)
        (if c.visible = 0 ∧ (c.byte = rbrace ∨ c.byte = Byte.rbracket ∨ c.byte = rparen) then
          m.markCloser else m) := by
    simp only [enter, enterPunctuation, enterOperator, hb]
    rfl
  have hregion : enterRegionOperator c m = .pass (c.switch .punctuation) m := by
    have hb' : (c.switch .punctuation).byte = rparen := hb
    simp only [enterRegionOperator, hb']
    rfl
  rw [hclass, hregion]
  by_cases hdepth : m.regions.depth = 0
  · rw [if_neg (by simp [ReturnStack.isEmpty, hdepth]), closerCategory, if_pos hdepth]
    refine ⟨_, rfl, ?_⟩
    split_ifs <;> exact ⟨rfl, rfl, rfl⟩
  · rw [if_pos (by simp [ReturnStack.isEmpty, hdepth]), closerCategory, if_neg hdepth]
    exact ⟨m, rfl, rfl, rfl, rfl⟩

/-- A parenthesis closes in program text. -/
theorem Comes.closesParenthesis (h : Comes config text ⟨.code, marks, Byte.rparen :: u, R, n⟩) :
    Comes config text ⟨.code, marks ++ [some (closerCategory R.depth)], u, R, n⟩ := by
  obtain ⟨c, m, hv, h⟩ := h
  obtain ⟨d, -, hspot, hrule⟩ := h.enters config
  obtain ⟨y, henter, hR, he, hflags⟩ := enter_rparen config m (byte_of_ahead hspot.ahead)
  have hdepth : m.regions.depth = R.depth := congrArg (·.depth) h.regions
  rw [hdepth] at henter
  have hst : Stance.code.Holds (d.switch (closerCategory R.depth)) y := by
    change _ ∨ _ ∨ _
    unfold closerCategory
    split_ifs
    · exact .inr (.inl rfl)
    · exact .inr (.inr rfl)
  exact Visits.begins hv (more_of_ahead h.ahead) hspot (hrule.trans henter) hst nofun (by decide)
    (hR.trans h.regions) (he.trans h.elements) (hflags.trans h.unnested)

end Highlight.Scala
