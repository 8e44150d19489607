import Highlight.Proofs.Language.ScalaMarkupPlaces

/-!
Elements in text and in holes of one another. A hole with a word is closed by its brace. Behind an
element the scan goes on between tags as long as any element is open, also in a hole of it, so that
the brace of a hole with an element closes nothing: its region stays open to the end of the text
(`returns_from_holes`).
-/

namespace Highlight.Scala

open Byte (equals greater isAlpha lbrace less lparen quote rbrace rparen slash space)
open Pass (Visits)

/-! ### Elements -/

/-- The name of a tag or of an attribute. -/
structure MarkupName where
  letters : Text
  nonempty : letters ≠ []
  alpha : ∀ b ∈ letters, isAlpha b = true

structure Attribute where
  name : MarkupName
  value : Text
  alpha : ∀ b ∈ value, isAlpha b = true

/-- What stands in the tag that opens an element. -/
structure Tag where
  name : MarkupName
  attributes : List Attribute

mutual

inductive Element where
  | empty (tag : Tag)
  | pair (tag : Tag) (children : Children)

/-- What stands between the tags of an element. -/
inductive Children where
  | none
  /-- Letters and spaces. -/
  | letters (w : Text) (plain : ∀ b ∈ w, isAlpha b || b == space) (rest : Children)
  | element (element : Element) (rest : Children)
  /-- A hole with a word in it. -/
  | word (w : Word) (rest : Children)
  /-- A hole with an element in it. -/
  | hole (element : Element) (rest : Children)

end

def Attribute.text (a : Attribute) : Text :=
  space :: (a.name.letters ++ equals :: quote :: (a.value ++ [quote]))

def Tag.text (t : Tag) : Text := t.name.letters ++ t.attributes.flatMap Attribute.text

def Tag.endText (t : Tag) : Text := less :: slash :: (t.name.letters ++ [greater])

mutual

def Element.text : Element → Text
  | .empty tag => less :: (tag.text ++ [slash, greater])
  | .pair tag children => less :: (tag.text ++ greater :: (children.text ++ tag.endText))

def Children.text : Children → Text
  | .none => []
  | .letters w _ rest => w ++ rest.text
  | .element e rest => e.text ++ rest.text
  | .word w rest => lbrace :: (w.letters ++ rbrace :: rest.text)
  | .hole e rest => lbrace :: (e.text ++ rbrace :: rest.text)

end

mutual

/-- How many holes have an element in them. -/
def Element.lost : Element → Nat
  | .empty _ => 0
  | .pair _ children => children.lost

def Children.lost : Children → Nat
  | .none => 0
  | .letters _ _ rest | .word _ rest => rest.lost
  | .element e rest => e.lost + rest.lost
  | .hole e rest => e.lost + 1 + rest.lost

end

def Attribute.marks (a : Attribute) : List (Option Category) :=
  some .markupOther :: (List.replicate a.name.letters.length (some .attributeName) ++
    some .punctuation :: some .doubleQuoted ::
      (List.replicate a.value.length (some .doubleQuoted) ++ [some .doubleQuoted]))

def Tag.marks (t : Tag) : List (Option Category) :=
  List.replicate t.name.letters.length (some .tag) ++ t.attributes.flatMap Attribute.marks

def Tag.endMarks (t : Tag) : List (Option Category) :=
  some .tag :: some .tag :: (List.replicate t.name.letters.length (some .tag) ++ [some .tag])

mutual

/-- The categories of the bytes. The brace that closes a hole is punctuation if there is a word in
the hole, and text if there is an element. -/
def Element.marks : Element → List (Option Category)
  | .empty tag => some .tag :: (tag.marks ++ [some .tag, some .tag])
  | .pair tag children =>
    some .tag :: (tag.marks ++ some .tag :: (children.marks ++ tag.endMarks))

def Children.marks : Children → List (Option Category)
  | .none => []
  | .letters w _ rest => List.replicate w.length (some .markupText) ++ rest.marks
  | .element e rest => e.marks ++ rest.marks
  | .word w rest =>
    some .punctuation :: (List.replicate w.letters.length .none ++ some .punctuation :: rest.marks)
  | .hole e rest => some .punctuation :: (e.marks ++ some .markupText :: rest.marks)

end

mutual

/-- The holes, each with all that stands behind it. -/
def Element.holes : Element → Text → List (Text × Text)
  | .empty _, _ => []
  | .pair tag children, u => children.holes (tag.endText ++ u)

def Children.holes : Children → Text → List (Text × Text)
  | .none, _ => []
  | .letters _ _ rest, u => rest.holes u
  | .element e rest, u => e.holes (rest.text ++ u) ++ rest.holes u
  | .word w rest, u => (lbrace :: (w.letters ++ [rbrace]), rest.text ++ u) :: rest.holes u
  | .hole e rest, u =>
    (lbrace :: (e.text ++ [rbrace]), rest.text ++ u) ::
      (e.holes (rbrace :: (rest.text ++ u)) ++ rest.holes u)

end

/-! ### On the way through a tag -/

variable {config : Config} {text u : Text} {b : Byte} {marks : List (Option Category)}
  {R : ReturnStack Category} {n : Nat}

/-- The letters of a name in markup that go on to its end. -/
theorem Comes.markupLetters {s : Category} (hs : s = .tag ∨ s = .attributeName) {w : Text}
    (hw : ∀ b ∈ w, isAlpha b = true) (hb : Scala.endsMarkupName b = true)
    (h : Comes config text ⟨.inside s, marks, w ++ b :: u, R, n⟩) :
    Comes config text
      ⟨.inside .markupOther, marks ++ List.replicate w.length (some s), b :: u, R, n⟩ :=
  (h.each fun a ha => fun h => h.markupName hs (hw a ha)).endsMarkupName hs hb

/-- An attribute is scanned through. -/
theorem Attribute.comes (a : Attribute)
    (h : Comes config text ⟨.inside .markupOther, marks, a.text ++ u, R, n⟩) :
    Comes config text ⟨.inside .markupOther, marks ++ a.marks, u, R, n⟩ := by
  obtain ⟨⟨letters, hne, hletters⟩, value, hvalue⟩ := a
  obtain ⟨b, w, rfl⟩ := List.exists_cons_of_ne_nil hne
  simp only [Attribute.text, List.cons_append, List.append_assoc, List.nil_append] at h
  have hfirst := h.spaceInTag.opensAttribute (hletters b List.mem_cons_self)
  have hname := hfirst.markupLetters (.inr rfl)
    (fun c hc => hletters c (List.mem_cons_of_mem b hc)) (by decide)
  have hopen := hname.equalsSign.opensValue
  have hclosed := (hopen.each fun c hc => fun h => h.valueLetter (hvalue c hc)).closesValue
  simpa [Attribute.marks, List.replicate_succ] using hclosed

/-- Attributes are scanned through. -/
theorem Attribute.comes_all (attributes : List Attribute)
    (h : Comes config text
      ⟨.inside .markupOther, marks, attributes.flatMap Attribute.text ++ u, R, n⟩) :
    Comes config text
      ⟨.inside .markupOther, marks ++ attributes.flatMap Attribute.marks, u, R, n⟩ := by
  induction attributes generalizing marks with
  | nil => simpa using h
  | cons a attributes ih =>
    rw [List.flatMap_cons, List.append_assoc] at h
    have hrest := ih (a.comes h)
    rwa [List.append_assoc] at hrest

/-- What stands in a tag is scanned through, up to the sign at its end. -/
theorem Tag.comes (t : Tag) (hb : endsMarkupName b = true)
    (h : Comes config text ⟨.inside .tag, marks, t.text ++ b :: u, R, n⟩) :
    Comes config text ⟨.inside .markupOther, marks ++ t.marks, b :: u, R, n⟩ := by
  obtain ⟨a, v, hv, ha⟩ : ∃ a v, t.attributes.flatMap Attribute.text ++ b :: u = a :: v ∧
      endsMarkupName a = true := by
    cases t.attributes with
    | nil => exact ⟨b, u, rfl, hb⟩
    | cons first attributes => exact ⟨space, _, rfl, by decide⟩
  rw [Tag.text, List.append_assoc, hv] at h
  have hname := h.markupLetters (.inl rfl) t.name.alpha ha
  rw [← hv] at hname
  have hattributes := Attribute.comes_all t.attributes hname
  rwa [List.append_assoc] at hattributes

/-- A tag that closes an element is scanned through. -/
theorem Tag.comes_end (t : Tag)
    (h : Comes config text ⟨.inside .markupText, marks, t.endText ++ u, R, n + 1⟩) :
    Comes config text ⟨.of (behindTag n), marks ++ t.endMarks, u, R, n⟩ := by
  simp only [Tag.endText, List.cons_append, List.append_assoc, List.nil_append] at h
  have hname := h.opensEndTag.markupLetters (.inl rfl) t.name.alpha (by decide)
  simpa [Tag.endMarks] using hname.closesTag

/-- An element begins with a sign and a letter. -/
theorem Element.text_eq (t : Element) : ∃ b v, t.text = less :: b :: v ∧ isAlpha b = true := by
  obtain ⟨tag, v, hv⟩ : ∃ (tag : Tag) (v : Text), t.text = less :: (tag.text ++ v) := by
    cases t with
    | empty tag => exact ⟨tag, _, rfl⟩
    | pair tag children => exact ⟨tag, _, rfl⟩
  obtain ⟨b, w, hw⟩ := List.exists_cons_of_ne_nil tag.name.nonempty
  refine ⟨b, w ++ tag.attributes.flatMap Attribute.text ++ v, ?_,
    tag.name.alpha b (hw ▸ List.mem_cons_self)⟩
  rw [hv, Tag.text, hw]
  rfl

/-! ### On the way through elements and holes -/

/-- The scan comes back from a hole: behind it, it is in the state that is saved at the brace that
opens the hole, and as many elements are open. -/
def Returns (config : Config) (text hole behind : Text) : Prop :=
  ∃ c m d y, Visits (grammar config) text c m ∧ c.ahead = hole ++ behind ∧
    leave config c m =
      .pass (c.switch .punctuation) { m with regions := m.regions.push c.state } ∧
    Visits (grammar config) text d y ∧ d.ahead = behind ∧ d.state = c.state ∧
    y.elements = m.elements

theorem returns_of_comes {w behind : Text} {marks' : List (Option Category)}
    {R' : ReturnStack Category}
    (h : Comes config text ⟨.inside .markupText, marks, lbrace :: w ++ behind, R, n⟩)
    (h' : Comes config text ⟨.inside .markupText, marks', behind, R', n⟩) :
    Returns config text (lbrace :: w) behind := by
  obtain ⟨c, m, hv, h⟩ := h
  obtain ⟨d, y, hv', h'⟩ := h'
  have hs : c.state = .markupText := h.stance
  have hs' : d.state = .markupText := h'.stance
  exact ⟨c, m, d, y, hv, h.ahead, leave_lbrace config m hs (byte_of_ahead h.ahead), hv',
    h'.ahead, hs'.trans hs.symm, h'.elements.trans h.elements.symm⟩

mutual

/-- **An element is scanned through.** Every hole of it that has an element in it leaves a region
open. -/
theorem Element.comes (t : Element) {marks : List (Option Category)} {u : Text}
    {R : ReturnStack Category} {n : Nat} (hmarkup : config.markup = true)
    (hR : R.Uniform .markupText)
    (h : Comes config text ⟨.inside .tag, marks ++ [some .tag], t.text.tail ++ u, R, n + 1⟩) :
    (∃ R' : ReturnStack Category, R'.Uniform .markupText ∧ R'.depth = R.depth + t.lost ∧
      Comes config text ⟨.of (behindTag n), marks ++ t.marks, u, R', n⟩) ∧
    ∀ p ∈ t.holes u, Returns config text p.1 p.2 := by
  cases t with
  | empty tag =>
    simp only [Element.text, List.tail_cons, List.append_assoc, List.cons_append,
      List.nil_append] at h
    have hclosed := (tag.comes (by decide) h).closesEmptyTag
    refine ⟨⟨R, hR, rfl, ?_⟩, nofun⟩
    simpa [Element.marks] using hclosed
  | pair tag children =>
    simp only [Element.text, List.tail_cons, List.append_assoc, List.cons_append] at h
    have hopen : Comes config text ⟨.inside .markupText, _, _, R, n + 1⟩ :=
      (tag.comes (by decide) h).closesTag
    obtain ⟨⟨R', hR', hdepth, hchildren⟩, hholes⟩ := children.comes hmarkup hR hopen
    refine ⟨⟨R', hR', hdepth, ?_⟩, hholes⟩
    simpa [Element.marks] using tag.comes_end hchildren

/-- What stands between tags is scanned through. -/
theorem Children.comes (t : Children) {marks : List (Option Category)} {u : Text}
    {R : ReturnStack Category} {n : Nat} (hmarkup : config.markup = true)
    (hR : R.Uniform .markupText)
    (h : Comes config text ⟨.inside .markupText, marks, t.text ++ u, R, n + 1⟩) :
    (∃ R' : ReturnStack Category, R'.Uniform .markupText ∧ R'.depth = R.depth + t.lost ∧
      Comes config text ⟨.inside .markupText, marks ++ t.marks, u, R', n + 1⟩) ∧
    ∀ p ∈ t.holes u, Returns config text p.1 p.2 := by
  cases t with
  | none =>
    refine ⟨⟨R, hR, rfl, ?_⟩, nofun⟩
    rwa [Children.marks, List.append_nil]
  | letters w plain rest =>
    rw [Children.text, List.append_assoc] at h
    have hletters := h.each fun b hb => fun h => h.markupText (by
      rw [isPlainInMarkup, plain b hb, Bool.true_or])
    obtain ⟨⟨R', hR', hdepth, hrest⟩, hholes⟩ := rest.comes hmarkup hR hletters
    rw [List.append_assoc] at hrest
    exact ⟨⟨R', hR', hdepth, hrest⟩, hholes⟩
  | element e rest =>
    rw [Children.text, List.append_assoc] at h
    obtain ⟨b, v, hv, hb⟩ := e.text_eq
    have hopen : Comes config text
        ⟨.inside .tag, marks ++ [some .tag], e.text.tail ++ (rest.text ++ u), R, n + 1 + 1⟩ := by
      rw [hv] at h ⊢
      exact h.opensTag hb
    obtain ⟨⟨R₁, hR₁, hdepth₁, helement⟩, hholes₁⟩ := e.comes hmarkup hR hopen
    obtain ⟨⟨R₂, hR₂, hdepth₂, hrest⟩, hholes₂⟩ := rest.comes hmarkup hR₁ helement
    refine ⟨⟨R₂, hR₂, ?_, ?_⟩, fun p hp => ?_⟩
    · rw [Children.lost, hdepth₂, hdepth₁, Nat.add_assoc]
    · rwa [List.append_assoc] at hrest
    · exact (List.mem_append.1 hp).elim (hholes₁ p) (hholes₂ p)
  | word w rest =>
    simp only [Children.text, List.cons_append, List.append_assoc] at h
    obtain ⟨c, m, hv, -, hspot⟩ := h.opensMarkupHole
    have hword := Comes.word w (by decide) ⟨c, m, hv, hspot⟩
    obtain ⟨R₁, hpop, hR₁, hdepth₁⟩ := hR.push.pop? (Nat.succ_pos _)
    have hclosed : Comes config text ⟨.inside .markupText, _, rest.text ++ u, R₁, n + 1⟩ :=
      hword.closesRegion (Nat.succ_pos _) hpop
    obtain ⟨⟨R₂, hR₂, hdepth₂, hrest⟩, hholes⟩ := rest.comes hmarkup hR₁ hclosed
    refine ⟨⟨R₂, hR₂, ?_, ?_⟩, fun p hp => ?_⟩
    · rw [Children.lost, hdepth₂, hdepth₁, ReturnStack.depth_push, Nat.add_sub_cancel]
    · simpa [Children.marks] using hrest
    · rcases List.mem_cons.1 hp with rfl | hp
      · exact returns_of_comes (by simpa using h) hclosed
      · exact hholes p hp
  | hole e rest =>
    simp only [Children.text, List.cons_append, List.append_assoc] at h
    obtain ⟨b, v, hv, hb⟩ := e.text_eq
    obtain ⟨c, m, hvisits, hbehind, hspot⟩ := h.opensMarkupHole
    have hopen : Comes config text ⟨.inside .tag, (marks ++ [some .punctuation]) ++ [some .tag],
        e.text.tail ++ rbrace :: (rest.text ++ u), R.push .markupText, n + 1 + 1⟩ := by
      rw [hv] at hspot ⊢
      exact Visits.opensTag hmarkup hb hvisits hspot (.inr hbehind)
    obtain ⟨⟨R₁, hR₁, hdepth₁, helement⟩, hholes₁⟩ := e.comes hmarkup hR.push hopen
    -- elements are open, so the brace is text
    have hclosed := Comes.markupText helement (by decide)
    obtain ⟨⟨R₂, hR₂, hdepth₂, hrest⟩, hholes₂⟩ := rest.comes hmarkup hR₁ hclosed
    refine ⟨⟨R₂, hR₂, ?_, ?_⟩, fun p hp => ?_⟩
    · rw [Children.lost, hdepth₂, hdepth₁, ReturnStack.depth_push]
      omega
    · simpa [Children.marks] using hrest
    · rcases List.mem_cons.1 hp with rfl | hp
      · exact returns_of_comes (by simpa using h) hclosed
      · exact (List.mem_append.1 hp).elim (hholes₁ p) (hholes₂ p)

end

/-! ### Whole texts -/

/-- **What is found of an element in parentheses.** The scan ends in program text and comes back
from every hole to the state that was saved there, but holes with an element in them are not closed:
their braces are text, and as many regions are open at the end as there are such holes. So the last
parenthesis is an operator, and the line is not nested, just if there are none. -/
theorem returns_from_holes (config : Config) (hmarkup : config.markup = true) (t : Element)
    (s : Session Category) :
    let text := lparen :: (t.text ++ [rparen])
    let answer := s.highlight (grammar config) text
    (∃ found, answer.2 = .ok found ∧ found.endState = .plain ∧ found.nesting.depth = t.lost) ∧
      Fits (some .operator :: (t.marks ++ [some (closerCategory t.lost)])) answer.1.styles.toList ∧
      ((answer.1.store.state 0).flags.nested = true ↔ 0 < t.lost) ∧
      ∀ p ∈ t.holes [rparen], Returns config text p.1 p.2 := by
  intro text answer
  obtain ⟨b, v, hv, hb⟩ := t.text_eq
  have hopen : Comes config text ⟨.inside .tag, [some .operator] ++ [some .tag],
      t.text.tail ++ [rparen], .empty config.stackCap, 0 + 1⟩ := by
    have hrule : enter config (Cursor.outset text) (.initial config) =
        .pass ((Cursor.outset text).switch .operator) (.initial config) := rfl
    have hsecond : Spot.Holds ⟨.code, [some .operator], t.text ++ [rparen],
        .empty config.stackCap, 0⟩ ((Cursor.outset text).switch .operator).forward
        (.initial config) :=
      holds_second (by decide) (fun _ hs => .inr (.inl hs))
        (fun a ha => ⟨Option.some.inj ha, nofun⟩) rfl rfl rfl
    have hvisits := visits_second (by decide) (by decide) hrule
    rw [hv] at hsecond ⊢
    exact Visits.opensTag hmarkup hb hvisits hsecond (.inl rfl)
  obtain ⟨⟨R, -, hdepth, helement⟩, hholes⟩ :=
    t.comes hmarkup (ReturnStack.uniform_empty _ _) hopen
  have hclosed := Comes.closesParenthesis helement
  have hunended : Text.unended text = true := Text.unended_concat (lparen :: t.text) (by decide)
  obtain ⟨⟨found, hfound, hend, hnesting⟩, hfits, hnested⟩ := hclosed.finds hunended s
  have hlost : R.depth = t.lost := hdepth.trans (Nat.zero_add _)
  rw [hlost] at hfits hnested
  refine ⟨⟨found, hfound, hend, ?_⟩, hfits, ?_, hholes⟩
  · rw [hnesting]
    exact hlost
  · simpa using hnested

/-- An element in a hole of another one: its brace is text, and the region stays open. -/
theorem returns_from_holes_element :
    let config : Config := { words := {}, markup := true }
    let tag (b : Byte) (hb : isAlpha b = true) : Tag :=
      ⟨⟨[b], nofun, List.forall_mem_singleton.2 hb⟩, []⟩
    let t : Element := .pair (tag Byte.lowerA (by decide))
      (.hole (.empty (tag 'b'.toUInt8 (by decide))) .none)
    let text := lparen :: (t.text ++ [rparen])
    let answer := Session.highlight (grammar config) {} text
    text = Text.ofString "(<a>\x7b<b/>\x7d</a>)" ∧ config.markup = true ∧
      (∃ found, answer.2 = .ok found ∧ found.endState = .plain ∧ found.nesting.depth = 1) ∧
      (answer.1.store.state 0).flags.nested = true := by
  intro config tag t text answer
  obtain ⟨hfound, -, hnested, -⟩ := returns_from_holes config rfl t {}
  exact ⟨by decide +kernel, rfl, hfound, hnested.2 Nat.one_pos⟩

end Highlight.Scala
