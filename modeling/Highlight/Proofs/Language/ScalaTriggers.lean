import Highlight.Proofs.Language.ScalaMoves
import Highlight.Proofs.Session.Renamed

/-!
What the choices of the user act through. Which strings are interpolated makes a difference only at
a dollar sign: in a text without one, strings that are interpolated and strings that are not are
told apart by name alone. To see this, every rule is asked at a place where interpolated strings
have been given the names of plain ones (`Category.blur`), and answers what it answers without,
under the same names. Whether tags are read as markup makes a difference only at a less-than sign.
-/

namespace Highlight.Scala

open Byte

/-- The name of a category, the same for strings that are interpolated and strings that are not. -/
def Category.blur : Category → Category
  | .interpolated => .string
  | .tripleInterpolated => .tripleString
  | s => s

open Category (blur)

namespace Category

/-- The name of the category is that of no other. -/
def isSharp : Category → Bool
  | .string | .tripleString | .interpolated | .tripleInterpolated => false
  | _ => true

theorem renames_blur : Palette.Renames blur :=
  ⟨fun s => by cases s <;> decide, fun s => by cases s <;> rfl, fun s => by cases s <;> rfl⟩

theorem blur_eq_iff {s t : Category} (ht : t.isSharp = true) : s.blur = t ↔ s = t := by
  cases t <;> cases ht <;> cases s <;> decide

theorem blur_beq {s t : Category} (ht : t.isSharp = true) : (s.blur == t) = (s == t) := by
  rw [Bool.eq_iff_iff, beq_iff_eq, beq_iff_eq, blur_eq_iff ht]

theorem blur_of_isSharp {s : Category} (hs : s.isSharp = true) : s.blur = s :=
  (blur_eq_iff hs).2 rfl

@[simp] theorem isTriple_blur (s : Category) : s.blur.isTriple = s.isTriple := by cases s <;> rfl

@[simp] theorem endsWithLine_blur (s : Category) : s.blur.endsWithLine = s.endsWithLine := by
  cases s <;> rfl

@[simp] theorem isMarkupName_blur (s : Category) : s.blur.isMarkupName = s.isMarkupName := by
  cases s <;> rfl

@[simp] theorem closingByte_blur (s : Category) : s.blur.closingByte = s.closingByte := by
  cases s <;> rfl

end Category

/-- What a scan keeps, with the same names for strings that are interpolated and strings that are
not. -/
def Memory.blur (m : Memory) : Memory :=
  { m with
    regions := m.regions.map Category.blur
    escape := m.escape.map Category.blur
    reference := m.reference.map Category.blur }

open Category (renames_blur blur_eq_iff blur_beq blur_of_isSharp)

variable {c : Place} {m : Memory} {config : Config}

/-! ### Moves -/

theorem switch_blur {s : Category} (hs : s.isSharp = true) (c : Place) :
    (c.map blur).switch s = (c.switch s).map blur := by
  rw [Cursor.map_switch, blur_of_isSharp hs]

theorem forward_blur (c : Place) : (c.map blur).forward = c.forward.map blur :=
  (Cursor.map_forward c renames_blur).symm

theorem forwardN_blur (c : Place) (n : Nat) : (c.map blur).forwardN n = (c.forwardN n).map blur :=
  (Cursor.map_forwardN c renames_blur n).symm

theorem forwardSwitch_blur {s : Category} (hs : s.isSharp = true) (c : Place) :
    (c.map blur).forwardSwitch s = (c.forwardSwitch s).map blur := by
  rw [Cursor.map_forwardSwitch c renames_blur, blur_of_isSharp hs]

theorem toLastOfRun_blur (c : Place) : (c.map blur).toLastOfRun = c.toLastOfRun.map blur :=
  (Cursor.map_toLastOfRun c renames_blur).symm

/-! ### Comments -/

theorem closeBlockComment_blur :
    closeBlockComment (c.map blur) m.blur = (closeBlockComment c m).map blur Memory.blur := by
  unfold closeBlockComment
  simp (disch := decide) only [forward_blur, forwardSwitch_blur, Cursor.map_nextVisible,
    Flow.map_ite, Flow.map_pass, apply_ite Memory.blur]
  rfl

theorem leaveBlockComment_blur :
    leaveBlockComment (c.map blur) m.blur = (leaveBlockComment c m).map blur Memory.blur := by
  have hflags : ∀ x, { m.blur with flags := x } = Memory.blur { m with flags := x } := fun _ => rfl
  unfold leaveBlockComment
  by_cases hstart : c.atLineStart = true <;>
  · simp (disch := decide) only [Cursor.map_atLineStart, hstart, hflags, Cursor.map_reads,
      closeBlockComment_blur, Cursor.map_state, blur_eq_iff, Cursor.map_byte, Cursor.map_next,
      Cursor.map_behind, forward_blur, switch_blur, Flow.map_ite, Flow.map_pass,
      Bool.false_eq_true, if_true, if_false]
    rfl

theorem leaveCommentTag_blur :
    leaveCommentTag (c.map blur) m.blur = (leaveCommentTag c m).map blur Memory.blur := by
  unfold leaveCommentTag
  simp (disch := decide) only [Cursor.map_byte, switch_blur, Flow.map_ite, Flow.map_pass,
    Flow.map_again]

theorem enterLineComment_blur :
    enterLineComment (c.map blur) m.blur = (enterLineComment c m).map blur Memory.blur := by
  unfold enterLineComment
  simp (disch := decide) only [Cursor.map_visible, switch_blur, Flow.map_pass,
    apply_ite Memory.blur]
  rfl

theorem enterBlockComment_blur :
    enterBlockComment (c.map blur) m.blur = (enterBlockComment c m).map blur Memory.blur := by
  unfold enterBlockComment
  simp (disch := decide) only [switch_blur, forwardN_blur, Cursor.map_visible, Cursor.map_byte,
    Cursor.map_next, Flow.map_again, apply_ite (Cursor.map blur), Cursor.map_recolor,
    blur_of_isSharp]
  by_cases hvisible : c.visible = 0
  · simp only [hvisible, if_true]
    rfl
  · simp only [hvisible, if_false]
    rfl

/-! ### Literals -/

theorem closeLiteral_blur :
    closeLiteral (c.map blur) m.blur = (closeLiteral c m).map blur Memory.blur := by
  have hafter : (if c.state = .singleQuoted ∨ c.state = .doubleQuoted then Category.markupOther
      else .plain).isSharp = true := by split <;> rfl
  unfold closeLiteral
  by_cases htriple : c.state.isTriple = true <;>
  · simp (disch := decide) only [Cursor.map_state, Category.isTriple_blur, blur_eq_iff, htriple,
      Bool.false_eq_true, if_true, if_false, toLastOfRun_blur, forwardSwitch_blur hafter,
      Flow.map_again]

/-- Without a dollar sign nothing begins in an interpolated string that does not in a plain one. -/
theorem leaveLiteral_blur (hc : dollar ∉ c.ahead) :
    leaveLiteral (c.map blur) m.blur = (leaveLiteral c m).map blur Memory.blur := by
  have hbyte : c.byte ≠ dollar := Cursor.byte_ne_of_notMem hc (by decide)
  have hescape : Escape.enter escapes (blur .escape) (c.map blur) m.blur
        (fun e => { m.blur with escape := e }) =
      (Escape.enter escapes .escape c m fun e => { m with escape := e }).map blur Memory.blur :=
    Escape.enter_map renames_blur escapes .escape c m fun _ => rfl
  rw [blur_of_isSharp (by decide)] at hescape
  unfold leaveLiteral
  simp (disch := decide) only [Cursor.map_atLineStart, Cursor.map_state, Category.endsWithLine_blur,
    Category.closingByte_blur, Cursor.map_byte, hbyte, false_and, if_false, Cursor.map_readsNext,
    switch_blur, closeLiteral_blur, hescape, Flow.map_ite, Flow.map_pass]

/-- Whether it is interpolated or not, a string begins under the same name. -/
theorem enterString_blur :
    enterString { config with interpolation := .never } (c.map blur) m.blur =
      (enterString config c m).map blur Memory.blur := by
  have htriple : ∀ b : Bool, (if b = true then Category.tripleInterpolated
      else .tripleString).blur = .tripleString := by decide
  have hsingle : ∀ b : Bool, (if b = true then Category.interpolated else .string).blur =
      .string := by decide
  have hnever : startsInterpolated { config with interpolation := .never } (c.map blur) = false :=
    rfl
  unfold enterString
  simp only [hnever, Cursor.map_readsNext, Bool.false_eq_true, if_false, Flow.map_ite,
    Flow.map_pass, ← forwardN_blur, Cursor.map_switch, htriple, hsingle]

theorem enterApostrophe_blur :
    enterApostrophe (c.map blur) m.blur = (enterApostrophe c m).map blur Memory.blur := by
  unfold enterApostrophe
  simp (disch := decide) only [Cursor.map_peek, Cursor.map_next, switch_blur, Flow.map_ite,
    Flow.map_pass]

/-! ### Markup -/

theorem enterTag_blur : enterTag (c.map blur) m.blur = (enterTag c m).map blur Memory.blur := by
  unfold enterTag
  simp (disch := decide) only [Cursor.map_next, switch_blur, forward_blur, Flow.map_ite,
    Flow.map_pass]
  rfl

theorem closeTag_blur : closeTag (c.map blur) m.blur = (closeTag c m).map blur Memory.blur := by
  have hafter : ∀ n : Nat, (if n = 0 then Category.plain else .markupText).isSharp = true := by
    intro n
    split <;> rfl
  unfold closeTag
  by_cases hempty : (c.byte == slash) = true
  · simp (disch := decide) only [Cursor.map_byte, hempty, if_true, switch_blur, forward_blur,
      forwardSwitch_blur (hafter _), Flow.map_again]
    rfl
  · simp (disch := decide) only [Cursor.map_byte, hempty, Bool.false_eq_true, if_false,
      switch_blur, forwardSwitch_blur (hafter _), Flow.map_again]
    rfl

theorem leaveMarkup_blur :
    leaveMarkup (c.map blur) m.blur = (leaveMarkup c m).map blur Memory.blur := by
  have hpush : { m.blur with regions := m.blur.regions.push c.state.blur } =
      Memory.blur { m with regions := m.regions.push c.state } := by
    simp only [Memory.blur, ReturnStack.map_push]
  unfold leaveMarkup
  simp (disch := decide) only [Cursor.map_byte, Cursor.map_reads, Cursor.map_state, blur_beq,
    closeTag_blur, enterTag_blur, hpush, switch_blur, forwardSwitch_blur, Flow.map_ite,
    Flow.map_pass, Flow.map_again]

/-! ### Words -/

theorem passSeparator_blur : passSeparator (c.map blur) = (passSeparator c).map blur := by
  have hseparates : separates (c.map blur) = separates c := by
    simp (disch := decide) only [separates, Cursor.map_byte, Cursor.map_state, bne, blur_beq,
      Category.isMarkupName_blur]
  unfold passSeparator
  rw [hseparates, apply_ite (Cursor.map blur), Cursor.map_forwardSwitch _ renames_blur,
    Cursor.map_switch]
  rfl

theorem classifyName_blur :
    classifyName { config with interpolation := .never } (c.map blur) m.blur =
      ((classifyName config c m).1.map blur, (classifyName config c m).2.blur) := by
  have hsharp : ∀ k, (categoryOf k).blur = categoryOf k := by
    intro k
    cases k <;> rfl
  unfold classifyName
  simp only [Cursor.map_remember, Cursor.map_recolor, hsharp, Cursor.map_currentWord,
    Cursor.map_visible, apply_ite Memory.blur]
  rfl

theorem leaveWord_blur :
    leaveWord { config with interpolation := .never } (c.map blur) m.blur =
      (leaveWord config c m).map blur Memory.blur := by
  unfold leaveWord
  simp only [passSeparator_blur]
  generalize passSeparator c = c
  have hcontinues : continuesWord (c.map blur) = continuesWord c := by
    simp only [continuesWord, Cursor.map_byte, Cursor.map_state, Category.isMarkupName_blur]
  have hreference : m.blur.reference = m.reference.map blur := rfl
  cases h : m.reference with
  | none =>
    simp (disch := decide) only [hcontinues, hreference, h, Option.map_none, classifyName_blur,
      Cursor.map_state, blur_eq_iff, Category.isMarkupName_blur, switch_blur, Flow.map_ite,
      Flow.map_pass, Flow.map_again]
  | some outer =>
    simp (disch := decide) only [hcontinues, hreference, h, Option.map_some, Cursor.map_state,
      blur_eq_iff, Category.isMarkupName_blur, Cursor.map_switch, blur_of_isSharp, Flow.map_ite,
      Flow.map_pass, Flow.map_again]
    rfl

/-! ### All rules -/

/-- What to leave a run for does not depend on which strings are interpolated. -/
theorem leave_blur (hc : dollar ∉ c.ahead) :
    leave { config with interpolation := .never } (c.map blur) m.blur =
      (leave config c m).map blur Memory.blur := by
  have hstay : Flow.pass (c.map blur) m.blur = (Flow.pass c m).map blur Memory.blur := rfl
  have hplain : Flow.pass ((c.map blur).switch .plain) m.blur =
      (Flow.pass (c.switch .plain) m).map blur Memory.blur := by
    rw [switch_blur (by decide), Flow.map_pass]
  unfold leave
  rw [Cursor.map_state]
  cases hs : c.state
  case operator | punctuation | postfixOperator => exact hplain
  case number =>
    simp only [blur, Flow.map_ite, ← hplain]
    rfl
  case identifier | annotationName | symbol | tag | attributeName => exact leaveWord_blur
  case lineComment =>
    simp only [blur, Flow.map_ite, ← hplain]
    rfl
  case blockComment | docComment => exact leaveBlockComment_blur
  case commentTag => exact leaveCommentTag_blur
  case escape => exact Escape.leave_map renames_blur m.escape c fun _ => rfl
  case markupText | markupOther => exact leaveMarkup_blur
  case backquoted | character | string | interpolated | tripleString | tripleInterpolated |
      singleQuoted | doubleQuoted => exact leaveLiteral_blur hc
  case plain | keyword | className | traitName | enumName | functionDefinition | function =>
    exact hstay

theorem enterRegionOperator_blur :
    enterRegionOperator (c.map blur) m.blur =
      (enterRegionOperator c m).map blur Memory.blur := by
  have hpop : m.blur.regions.pop? = m.regions.pop?.map (Prod.map blur (ReturnStack.map blur)) :=
    ReturnStack.pop?_map _
  have hpush : { m.blur with regions := m.blur.regions.push .plain } =
      Memory.blur { m with regions := m.regions.push .plain } := by
    simp only [Memory.blur, ReturnStack.map_push]
    rfl
  unfold enterRegionOperator
  simp (disch := decide) only [switch_blur, Cursor.map_byte]
  cases h : m.regions.pop? with
  | none => simp only [hpop, hpush, h, Option.map_none, Flow.map_ite, Flow.map_pass]
  | some popped =>
    simp only [hpop, hpush, h, Option.map_some, Prod.map, Flow.map_ite, Flow.map_pass,
      Flow.map_again, Cursor.map_forwardSwitch _ renames_blur]
    rfl

theorem enterOperator_blur :
    enterOperator (c.map blur) m.blur = (enterOperator c m).map blur Memory.blur := by
  have hempty : m.blur.regions.isEmpty = m.regions.isEmpty := rfl
  unfold enterOperator
  simp (disch := decide) only [hempty, Cursor.map_byte, Cursor.map_next, Cursor.map_visible,
    switch_blur, forward_blur, enterRegionOperator_blur, Flow.map_ite, Flow.map_pass,
    apply_ite Memory.blur]
  rfl

theorem enterName_blur : enterName (c.map blur) m.blur = (enterName c m).map blur Memory.blur := by
  unfold enterName
  rw [switch_blur (by decide)]
  rfl

/-- What stands before a less-than sign is never judged by being a string. -/
theorem opensTag_blur (c : Place) : opensTag (c.map blur) = opensTag c := by
  have hbyte : (c.trail.map blur).byte = c.trail.byte := rfl
  have hcategory : (c.trail.map blur).category = c.trail.category.blur := rfl
  simp (disch := decide) only [opensTag, followsValue, Cursor.map_next, Cursor.map_behind,
    Cursor.map_trail, hbyte, hcategory, blur_beq]
  rfl

theorem enterPunctuation_blur :
    enterPunctuation { config with interpolation := .never } (c.map blur) m.blur =
      (enterPunctuation config c m).map blur Memory.blur := by
  unfold enterPunctuation
  simp only [Flow.map_ite, Flow.map_pass, Cursor.map_byte, Cursor.map_next, opensTag_blur,
    enterLineComment_blur, enterBlockComment_blur, enterString_blur, enterApostrophe_blur,
    enterTag_blur, enterName_blur, enterOperator_blur]
  simp (disch := decide) only [switch_blur]

theorem enter_blur :
    enter { config with interpolation := .never } (c.map blur) m.blur =
      (enter config c m).map blur Memory.blur := by
  unfold enter
  rw [Cursor.map_byte]
  cases ByteClass.of c.byte
  case digit => exact congrArg (Flow.pass · m.blur) (switch_blur (by decide) c)
  case nameStart => exact enterName_blur
  case punctuation => exact enterPunctuation_blur
  case space | lineEnd | control => rfl

theorem endLine_blur :
    endLine (c.map blur) m.blur = ((endLine c m).1, (endLine c m).2.blur) := by
  have hflags : lineFlags (c.map blur) m.blur = lineFlags c m := by
    simp only [lineFlags, Cursor.map_state, Category.isTriple_blur, Cursor.map_visible]
    rfl
  simp only [endLine, hflags, Cursor.map_state, Category.isTriple_blur, Cursor.map_trail]
  rfl

theorem begin_blur (c : Place) (before : LineState) :
    begin { config with interpolation := .never } (c.map blur) before =
      ((begin config c before).1.map blur, (begin config c before).2.blur) := by
  simp (disch := decide) only [begin, Cursor.map_pos, Cursor.map_reads, Cursor.map_state,
    Category.isTriple_blur, switch_blur, forward_blur, apply_ite (Cursor.map blur)]
  rfl

/-! ### The two choices -/

/-- **Without a dollar sign, which strings are interpolated is a matter of names.** -/
theorem mirrors_never (config : Config) :
    (grammar config).Mirrors blur Memory.blur dollar
      (grammar { config with interpolation := .never }) where
  renames := renames_blur
  begin before _ := begin_blur _ before
  leave _ hc := leave_blur hc
  enter _ _ := enter_blur
  endLine _ _ := endLine_blur
  nesting _ := rfl
  folding := rfl

/-- Without a less-than sign, whether tags are read as markup makes no difference. -/
theorem mirrors_markup (config : Config) (b : Bool) :
    (grammar config).Mirrors id id less (grammar { config with markup := b }) where
  renames := .id
  begin _ _ := by
    rw [Cursor.map_id, Cursor.map_id]
    rfl
  leave z _ := by
    rw [Cursor.map_id, Flow.map_id]
    rfl
  enter {c} z hc := by
    have hbyte : c.byte ≠ less := Cursor.byte_ne_of_notMem hc (by decide)
    rw [Cursor.map_id, Flow.map_id]
    simp only [grammar, enter, enterPunctuation, if_neg hbyte]
    rfl
  endLine c z := by
    rw [Cursor.map_id]
    rfl
  nesting _ := rfl
  folding := rfl

/-- **Both choices act only through a byte.** Of a text without a dollar sign, any two ways to pick
the strings that are interpolated give the same line states, fold levels and nesting, and the same
categories but for the names of strings that are interpolated and strings that are not. Of a text
without a less-than sign, reading tags as markup and not reading them so give the very same.
Whatever was scanned before with either session makes no difference. -/
theorem choices_act_through_bytes (config : Config) (s s' : Session Category) (text : Text) :
    (dollar ∉ text → ∀ i : Interpolation,
      let g := grammar config
      let g' := grammar { config with interpolation := i }
      Session.SameUnder blur g g' text (s.highlight g text) (s'.highlight g' text)) ∧
    (less ∉ text → ∀ b : Bool,
      let g := grammar config
      let g' := grammar { config with markup := b }
      ∃ kept found, s.highlight g text = (kept, .ok found) ∧
        s'.highlight g' text = (kept, .ok found)) := by
  constructor
  · intro hdollar i g g'
    have hg : g.StaysInLine := staysInLine config
    have hg' : g'.StaysInLine := staysInLine { config with interpolation := i }
    have hfresh : (Pass.fresh g text).SameUnder blur g g' (Pass.fresh g' text) :=
      (mirrors_never config).sameUnder (mirrors_never { config with interpolation := i })
        hg.goesOn hg'.goesOn hdollar
    exact Session.sameUnder_of_fresh renames_blur hg hg' rfl hfresh s s'
  · intro hless b g g'
    have hg : g.StaysInLine := staysInLine config
    have hg' : g'.StaysInLine := staysInLine { config with markup := b }
    have hfresh : Pass.fresh g' text = Pass.fresh g text := by
      rw [(mirrors_markup config b).fresh_map hg.goesOn hless, Pass.map_id]
    refine ⟨_, _, Session.highlight_of_staysInLine hg s text, ?_⟩
    rw [Session.highlight_of_staysInLine hg' s' text, Pass.freshStore, hfresh]
    rfl

/-- A string behind a letter is interpolated or not, as the user chose, and that is all that the
choice does. -/
theorem choices_act_through_bytes_string :
    let config : Config := { words := {} }
    let never : Config := { config with interpolation := .never }
    let plain : Config := { config with markup := false }
    let text : Text := [lowerA, quote, lowerA, quote]
    let found := Session.highlight (grammar config) {} text
    dollar ∉ text ∧ less ∉ text ∧
      Session.SameUnder blur (grammar config) (grammar never) text found
        (Session.highlight (grammar never) {} text) ∧
      found.1.styles ≠ (Session.highlight (grammar never) {} text).1.styles ∧
      (Session.highlight (grammar plain) {} text).1.styles = found.1.styles := by
  intro config never plain text found
  have hdollar : dollar ∉ text := by decide
  have hless : less ∉ text := by decide
  obtain ⟨hnames, -⟩ := choices_act_through_bytes config {} {} text
  obtain ⟨-, hsame⟩ := choices_act_through_bytes config {} {} text
  obtain ⟨kept, outcome, h, h'⟩ := hsame hless false
  refine ⟨hdollar, hless, hnames hdollar .never, by decide +kernel, ?_⟩
  exact (congrArg (·.1.styles) h').trans (congrArg (·.1.styles) h).symm

end Highlight.Scala
