import Highlight.Proofs.Language.ScalaEnds
import Highlight.Proofs.Scan.Visits

/-!
The places that a scan of Scala comes by. What decides how it goes on from a place is little
(`Spot`): what the scan is in the middle of, the bytes ahead, the open regions and elements. The
rules for names, strings and braces are followed here from spot to spot.
-/

namespace Highlight.Scala

open Byte (backslash bang dollar hash isLower lbrace newline quote rbrace space)
open Pass (Visits)

/-- What a scan is in the middle of, as far as the next byte is concerned. -/
inductive Stance where
  /-- Program text. -/
  | code
  /-- A name in program text. -/
  | name
  /-- The name of a reference in an interpolated string. -/
  | reference
  /-- A quoted form, or markup. -/
  | inside (s : Category)

theorem Stance.inside_ne_name (s : Category) : Stance.inside s ≠ .name := nofun

theorem Stance.reference_ne_name : Stance.reference ≠ .name := nofun

/-- The place is one of the stance. Operators and marks end before the next byte. -/
def Stance.Holds (c : Place) (m : Memory) : Stance → Prop
  | code => c.state = .plain ∨ c.state = .operator ∨ c.state = .punctuation
  | name => c.state = .identifier ∧ m.reference = none
  | reference => c.state = .identifier ∧ m.reference = some .interpolated
  | inside s => c.state = s

/-- What is known of a place that a scan comes by. -/
structure Spot where
  stance : Stance
  /-- What is known of the categories of the bytes behind. -/
  marks : List (Option Category)
  ahead : Text
  regions : ReturnStack Category
  /-- The markup elements that are open. -/
  elements : Nat

/-- The place is one of the spot, on the first line and behind its beginning. What a name stands for
is known only at its end. -/
structure Spot.Holds (s : Spot) (c : Place) (m : Memory) : Prop where
  stance : s.stance.Holds c m
  marks : ∀ k, k = c.state ∨ s.stance = .name → Fits s.marks (c.recolor k).passed
  ahead : c.ahead = s.ahead
  regions : m.regions = s.regions
  elements : m.elements = s.elements
  unnested : m.flags.nested = false
  started : c.atLineStart = false
  line : c.line = 0

/-- The scan of the text comes by a place of the spot. -/
def Comes (config : Config) (text : Text) (s : Spot) : Prop :=
  ∃ c m, Visits (grammar config) text c m ∧ s.Holds c m

variable {config : Config} {text u w : Text} {b : Byte} {c d : Place} {m y : Memory}
  {st : Stance} {marks : List (Option Category)} {R : ReturnStack Category} {e : Nat}

/-! ### Places of a spot -/

theorem byte_of_ahead (h : c.ahead = b :: u) : c.byte = b := by
  simp [Cursor.byte, Cursor.peek, h]

theorem next_of_ahead {a : Byte} (h : c.ahead = b :: a :: u) : c.next = a := by
  simp [Cursor.next, Cursor.peek, h]

/-- Bytes of which one is of a kind and the other is not. -/
theorem ne_of_holds {kind : Byte → Bool} {a : Byte} (hb : kind b = true) (ha : kind a = false) :
    b ≠ a := ne_of_apply_ne kind (by rw [hb, ha]; decide)

theorem more_of_ahead (h : c.ahead = b :: u) : c.more = true := Cursor.more_cons h

theorem Stance.Holds.forward (h : st.Holds c m) : st.Holds c.forward m := by
  cases st <;> simpa [Stance.Holds] using h

/-- The stance of a state to return to. -/
def Stance.of (s : Category) : Stance := if s = .plain then .code else .inside s

theorem Stance.holds_of {s : Category} (h : c.state = s) : (Stance.of s).Holds c m := by
  unfold Stance.of
  split_ifs with hplain
  · exact .inl (h.trans hplain)
  · exact h

theorem dispatch_plain (config : Config) (hs : c.state = .plain) :
    (grammar config).dispatch c m = enter config c m := by
  have hleave : (grammar config).leave c m = .pass c m := by simp only [grammar, leave, hs]
  rw [Grammar.dispatch, hleave]
  exact if_pos hs

namespace Spot.Holds

/-- A byte is passed in the category of the run in progress. -/
theorem forward (h : Holds ⟨st, marks, b :: u, R, e⟩ c m) (mark : Option Category)
    (hb : b ≠ newline) (hmark : ∀ a ∈ mark, c.state = a ∧ st ≠ .name) :
    Holds ⟨st, marks ++ [mark], u, R, e⟩ c.forward m := by
  have ha : c.ahead = b :: u := h.ahead
  refine ⟨h.stance.forward, fun k hk => ?_, ?_, h.regions, h.elements, h.unnested, ?_, ?_⟩
  · rw [Cursor.state_forward] at hk
    have hpassed : (c.forward.recolor k).passed = (c.recolor k).passed ++ [k] := by
      rw [Cursor.forward_cons ha]
      simp [Cursor.passed, Cursor.recolor, List.replicate_succ]
    rw [hpassed]
    refine (h.marks k hk).append (.cons (fun a ha => ?_) .nil)
    obtain ⟨rfl, hname⟩ := hmark a ha
    exact hk.resolve_right hname
  · exact Cursor.ahead_forward_cons ha
  · exact Cursor.atLineStart_forward_cons ha hb
  · rw [Cursor.line_forward, if_neg (by rwa [byte_of_ahead ha])]
    exact h.line

/-- A run of another category begins. -/
theorem turn {t : Category} {R' : ReturnStack Category} {e' : Nat}
    (h : Holds ⟨st, marks, u, R, e⟩ c m) (st' : Stance) (hst : st'.Holds (c.switch t) y)
    (hR : y.regions = R') (he : y.elements = e') (hy : y.flags.nested = false) :
    Holds ⟨st', marks, u, R', e'⟩ (c.switch t) y := by
  refine ⟨hst, fun k _ => ?_, h.ahead, hR, he, hy, h.started, h.line⟩
  have hpassed : ((c.switch t).recolor k).passed = c.passed := Cursor.passed_switch c t
  rw [hpassed]
  exact h.marks c.state (.inl rfl)

/-- A run of another category begins with a byte. -/
theorem begins {t : Category} {R' : ReturnStack Category} {e' : Nat}
    (h : Holds ⟨st, marks, b :: u, R, e⟩ c m) (st' : Stance) (hst : st'.Holds (c.switch t) y)
    (hname : st' ≠ .name) (hb : b ≠ newline) (hR : y.regions = R') (he : y.elements = e')
    (hy : y.flags.nested = false) :
    Holds ⟨st', marks ++ [some t], u, R', e'⟩ (c.switch t).forward y :=
  (h.turn st' hst hR he hy).forward (some t) hb fun _ ha => ⟨Option.some.inj ha, hname⟩

/-- A run goes on, of a known category. -/
theorem goesOn {s : Category} (h : Holds ⟨st, marks, b :: u, R, e⟩ c m) (hs : c.state = s)
    (hname : st ≠ .name) (hb : b ≠ newline) :
    Holds ⟨st, marks ++ [some s], u, R, e⟩ c.forward m :=
  h.forward (some s) hb fun _ ha => ⟨hs.trans (Option.some.inj ha), hname⟩

/-- In program text the rules decide what begins. -/
theorem enters (config : Config) (h : Holds ⟨.code, marks, u, R, e⟩ c m) :
    ∃ d, d.prev = c.prev ∧ Holds ⟨.code, marks, u, R, e⟩ d m ∧
      (grammar config).dispatch c m = enter config d m := by
  obtain hs | hs | hs : c.state = .plain ∨ c.state = .operator ∨ c.state = .punctuation := h.stance
  · exact ⟨c, rfl, h, dispatch_plain config hs⟩
  all_goals
    refine ⟨c.switch .plain, rfl, h.turn .code (.inl rfl) h.regions h.elements h.unnested, ?_⟩
    have hleave : (grammar config).leave c m = .pass (c.switch .plain) m := by
      simp only [grammar, leave, hs]
    rw [Grammar.dispatch, hleave]
    rfl

end Spot.Holds

theorem dispatch_of_again (h : leave config c m = .again d y) :
    (grammar config).dispatch c m = .again d y := by
  have hleave : (grammar config).leave c m = .again d y := h
  rw [Grammar.dispatch, hleave]

theorem dispatch_of_pass (h : leave config c m = .pass d y) (hd : d.state ≠ .plain) :
    (grammar config).dispatch c m = .pass d y := by
  have hleave : (grammar config).leave c m = .pass d y := h
  rw [Grammar.dispatch, hleave]
  exact if_neg hd

theorem visits_again (hv : Visits (grammar config) text c m) (ha : c.ahead = b :: u)
    (hrule : (grammar config).dispatch c m = .again d y) : Visits (grammar config) text d y :=
  hv.again (settles config) (staysInLine config) (more_of_ahead ha) hrule

/-- Bytes that are passed alike, one by one. -/
theorem Comes.each {mark : Option Category} (hstep : ∀ b ∈ w, ∀ {marks u},
      Comes config text ⟨st, marks, b :: u, R, e⟩ →
      Comes config text ⟨st, marks ++ [mark], u, R, e⟩)
    (h : Comes config text ⟨st, marks, w ++ u, R, e⟩) :
    Comes config text ⟨st, marks ++ List.replicate w.length mark, u, R, e⟩ := by
  induction w generalizing marks with
  | nil => simpa using h
  | cons a w ih =>
    have hrest := ih (fun b hb => hstep b (List.mem_cons_of_mem a hb))
      (hstep a List.mem_cons_self h)
    rwa [List.append_assoc] at hrest

/-- A byte that is passed in the category of the run in progress. -/
theorem Comes.goesOn {s : Category} (h : Comes config text ⟨.inside s, marks, b :: u, R, e⟩)
    (hs : s ≠ .plain) (hb : b ≠ newline)
    (hleave : ∀ c m, Spot.Holds ⟨.inside s, marks, b :: u, R, e⟩ c m →
      leave config c m = .pass c m) :
    Comes config text ⟨.inside s, marks ++ [some s], u, R, e⟩ := by
  obtain ⟨c, m, hv, h⟩ := h
  have hstate : c.state = s := h.stance
  refine ⟨_, _, hv.pass (more_of_ahead h.ahead) (dispatch_of_pass (hleave c m h) ?_) ?_,
    h.goesOn hstate nofun hb⟩
  · rwa [hstate]
  · rwa [byte_of_ahead h.ahead]

/-- A byte at which a run of another category begins. -/
theorem Visits.begins {t : Category} {st' : Stance} {R' : ReturnStack Category} {e' : Nat}
    (hv : Visits (grammar config) text c m) (hmore : c.more = true)
    (h : Spot.Holds ⟨st, marks, b :: u, R, e⟩ d m)
    (hrule : (grammar config).dispatch c m = .pass (d.switch t) y)
    (hst : st'.Holds (d.switch t) y) (hname : st' ≠ .name) (hb : b ≠ newline)
    (hR : y.regions = R') (he : y.elements = e') (hy : y.flags.nested = false) :
    Comes config text ⟨st', marks ++ [some t], u, R', e'⟩ := by
  refine ⟨_, _, hv.pass hmore hrule ?_, h.begins st' hst hname hb hR he hy⟩
  change d.byte ≠ newline
  rwa [byte_of_ahead h.ahead]

theorem Comes.begins {s t : Category} {R' : ReturnStack Category} {e' : Nat}
    (h : Comes config text ⟨.inside s, marks, b :: u, R, e⟩) (ht : t ≠ .plain) (hb : b ≠ newline)
    (hleave : ∀ c m, Spot.Holds ⟨.inside s, marks, b :: u, R, e⟩ c m →
      ∃ y, leave config c m = .pass (c.switch t) y ∧ y.regions = R' ∧ y.elements = e' ∧
        y.flags.nested = false) :
    Comes config text ⟨.inside t, marks ++ [some t], u, R', e'⟩ := by
  obtain ⟨c, m, hv, h⟩ := h
  obtain ⟨y, hleave, hR, he, hy⟩ := hleave c m h
  exact Visits.begins hv (more_of_ahead h.ahead) h (dispatch_of_pass hleave ht) rfl nofun hb hR he
    hy

/-- Two bytes with which a run of another category begins. -/
theorem Comes.beginsTwo {a : Byte} {s t : Category} {R' : ReturnStack Category} {e' : Nat}
    (h : Comes config text ⟨.inside s, marks, b :: a :: u, R, e⟩) (ht : t ≠ .plain)
    (hb : b ≠ newline) (ha : a ≠ newline)
    (hleave : ∀ c m, Spot.Holds ⟨.inside s, marks, b :: a :: u, R, e⟩ c m →
      ∃ y, leave config c m = .pass (c.switch t).forward y ∧ y.regions = R' ∧ y.elements = e' ∧
        y.flags.nested = false) :
    Comes config text ⟨.inside t, marks ++ [some t, some t], u, R', e'⟩ := by
  obtain ⟨c, m, hv, h⟩ := h
  obtain ⟨y, hleave, hR, he, hy⟩ := hleave c m h
  have hfirst := h.begins (.inside t) (t := t) rfl nofun hb hR he hy
  have hsecond := hfirst.goesOn Cursor.state_forward nofun ha
  refine ⟨_, _, hv.pass (more_of_ahead h.ahead) (dispatch_of_pass hleave ?_) ?_, ?_⟩
  · rwa [Cursor.state_forward]
  · rwa [byte_of_ahead hfirst.ahead]
  · rwa [List.append_assoc] at hsecond

/-- A byte with which a run ends, and behind which one of another category begins. -/
theorem Comes.ends {s t : Category} (h : Comes config text ⟨.inside s, marks, b :: u, R, e⟩)
    (hb : b ≠ newline)
    (hleave : ∀ c m, Spot.Holds ⟨.inside s, marks, b :: u, R, e⟩ c m →
      leave config c m = .again (c.forwardSwitch t) m) :
    Comes config text ⟨.of t, marks ++ [some s], u, R, e⟩ := by
  obtain ⟨c, m, hv, h⟩ := h
  exact ⟨_, _, visits_again hv h.ahead (dispatch_of_again (hleave c m h)),
    (h.goesOn h.stance nofun hb).turn (.of t) (Stance.holds_of rfl) h.regions h.elements h.unnested⟩

/-- Behind a mark of punctuation stands program text. -/
theorem Comes.behindPunctuation (h : Comes config text ⟨.inside .punctuation, marks, u, R, e⟩) :
    Comes config text ⟨.code, marks, u, R, e⟩ := by
  obtain ⟨c, m, hv, h⟩ := h
  exact ⟨c, m, hv, .inr (.inr h.stance), fun k hk => h.marks k (hk.imp_right nofun), h.ahead,
    h.regions, h.elements, h.unnested, h.started, h.line⟩

/-! ### The beginning and the end -/

/-- The data with which a scan of a text begins. -/
def Memory.initial (config : Config) : Memory := { regions := .empty config.stackCap }

/-- Behind the first byte of a text, at which a run begins. -/
theorem visits_second {t : Category} (hb : b ≠ newline) (hhash : b ≠ hash)
    (hrule : enter config (Cursor.outset (b :: u)) (.initial config) =
      .pass ((Cursor.outset (b :: u)).switch t) y) :
    Visits (grammar config) (b :: u) ((Cursor.outset (b :: u)).switch t).forward y := by
  have hreads : (Cursor.outset (b :: u) : Place).reads hash bang = false := by
    simp [Cursor.reads, Cursor.byte, Cursor.peek, Cursor.outset, hhash]
  have hfirst : (Pass.first (grammar config) (b :: u)).cursor = Cursor.outset (b :: u) ∧
      (Pass.first (grammar config) (b :: u)).data = .initial config := by
    simp only [Pass.first, Pass.opened, grammar, begin, hreads]
    exact ⟨rfl, rfl⟩
  have hv := Pass.visits_first (grammar config) (b :: u)
  rw [hfirst.1, hfirst.2] at hv
  exact hv.pass rfl hrule hb

theorem holds_second {t : Category} {mark : Option Category} (hb : b ≠ newline)
    (hst : ∀ c : Place, c.state = t → st.Holds c y) (hmark : ∀ a ∈ mark, t = a ∧ st ≠ .name)
    (hR : y.regions = .empty config.stackCap) (he : y.elements = 0)
    (hy : y.flags.nested = false) :
    Spot.Holds ⟨st, [mark], u, .empty config.stackCap, 0⟩
      ((Cursor.outset (b :: u)).switch t).forward y := by
  refine ⟨hst _ rfl, fun k hk => ?_, rfl, hR, he, hy, ?_, ?_⟩
  · refine .cons (fun a ha => ?_) .nil
    obtain ⟨rfl, hname⟩ := hmark a ha
    exact hk.resolve_right hname
  · simpa [Cursor.atLineStart, Cursor.forward, Cursor.switch, Cursor.outset] using hb
  · simpa [Cursor.forward, Cursor.switch, Cursor.outset] using hb

/-- **What is found of a text that ends in program text.** -/
theorem Comes.finds (h : Comes config text ⟨.code, marks, [], R, e⟩)
    (htext : text.unended = true) (s : Session Category) :
    let answer := s.highlight (grammar config) text
    (∃ found, answer.2 = .ok found ∧ found.endState = .plain ∧
      found.nesting = ⟨R.depth, R.peak⟩) ∧
    Fits marks answer.1.styles.toList ∧
    ((answer.1.store.state 0).flags.nested = true ↔ 0 < R.depth ∨ e ≠ 0) := by
  intro answer
  obtain ⟨c, m, hv, h⟩ := h
  obtain ⟨d, hleave, hplain, hpassed, hline⟩ : ∃ d, (grammar config).leave c m = .pass d m ∧
      d.state = .plain ∧ d.passed = c.passed ∧ d.line = c.line := by
    obtain hs | hs | hs : c.state = .plain ∨ c.state = .operator ∨ c.state = .punctuation :=
      h.stance
    · exact ⟨c, by simp only [grammar, leave, hs], hs, rfl, rfl⟩
    all_goals
      exact ⟨c.switch .plain, by simp only [grammar, leave, hs], rfl, Cursor.passed_switch c _, rfl⟩
  obtain ⟨⟨found, hfound, hend, hnesting⟩, hstyles, hstate⟩ :=
    hv.finds (keeps config) (staysInLine config) h.ahead hleave htext s
  refine ⟨⟨found, hfound, hend.trans hplain, hnesting.trans ?_⟩, ?_, ?_⟩
  · obtain rfl : m.regions = R := h.regions
    rfl
  · rw [hstyles, hpassed]
    exact h.marks c.state (.inl rfl)
  · have hR : m.regions = R := h.regions
    have he : m.elements = e := h.elements
    rw [hline.trans h.line] at hstate
    rw [hstate]
    change (lineFlags d m).nested = true ↔ _
    unfold lineFlags
    simp only [hR, he, ReturnStack.isEmpty, Bool.not_eq_true', beq_eq_false_iff_ne,
      Nat.pos_iff_ne_zero]
    have hflags : ¬m.flags.nested = true := Bool.eq_false_iff.1 h.unnested
    split_ifs with hopen
    · exact iff_of_true rfl hopen
    · exact iff_of_false hflags hopen
    · exact iff_of_false not_false hopen
    · exact iff_of_false hflags hopen

/-! ### Names and spaces -/

/-- A space in program text. -/
theorem Comes.space (h : Comes config text ⟨.code, marks, space :: u, R, e⟩) :
    Comes config text ⟨.code, marks ++ [none], u, R, e⟩ := by
  obtain ⟨c, m, hv, h⟩ := h
  obtain ⟨d, -, hspot, hrule⟩ := h.enters config
  have hb : d.byte = Byte.space := byte_of_ahead hspot.ahead
  have henter : enter config d m = .pass d m := by
    simp only [enter, hb]
    rfl
  refine ⟨_, _, hv.pass (more_of_ahead h.ahead) (hrule.trans henter) (by rw [hb]; decide), ?_⟩
  exact hspot.forward none (by decide) nofun

theorem class_of_isLower (hb : isLower b = true) : ByteClass.of b = .nameStart := by
  have hstart : Byte.isNameStart b = true := by simp [Byte.isNameStart, Byte.isAlpha, hb]
  have hother : Byte.isLineEnd b = false ∧ Byte.isSpace b = false ∧ Byte.isDigit b = false := by
    simp only [isLower, Byte.isLineEnd, Byte.isSpace, Byte.isBlank, Byte.isDigit,
      Bool.and_eq_true, decide_eq_true_eq] at *
    grind
  simp [ByteClass.of, hstart, hother]

theorem ne_newline_of_isNameByte (hb : isNameByte b = true) : b ≠ newline :=
  ne_of_holds hb (by decide)

theorem isNameByte_of_isLower (hb : isLower b = true) : isNameByte b = true := by
  simp [isNameByte, Byte.isNameByte, Byte.isNameStart, Byte.isAlpha, hb]

/-- A name begins. -/
theorem Comes.beginsName (h : Comes config text ⟨.code, marks, b :: u, R, e⟩)
    (hb : isLower b = true) : Comes config text ⟨.name, marks ++ [none], u, R, e⟩ := by
  obtain ⟨c, m, hv, h⟩ := h
  obtain ⟨d, -, hspot, hrule⟩ := h.enters config
  have hbyte : d.byte = b := byte_of_ahead hspot.ahead
  have hne : b ≠ newline := ne_newline_of_isNameByte (isNameByte_of_isLower hb)
  have henter : enter config d m = enterName d m := by
    simp only [enter, hbyte, class_of_isLower hb]
  refine ⟨_, _, hv.pass (more_of_ahead h.ahead) (hrule.trans henter) ?_, ?_⟩
  · change d.byte ≠ newline
    rwa [hbyte]
  · have hturn : Spot.Holds ⟨.name, marks, b :: u, R, e⟩ (d.switch .identifier)
        { m with reference := none, before := d.trail.byte } :=
      hspot.turn .name ⟨rfl, rfl⟩ h.regions h.elements h.unnested
    exact hturn.forward none hne nofun

/-- What the rule for words says of a name. -/
theorem leave_identifier (hs : c.state = .identifier) :
    leave config c m =
      if isNameByte c.byte then .pass c m
      else match m.reference with
        | some outer => .again (c.switch outer) { m with reference := none }
        | none =>
          .again ((classifyName config c m).1.switch .plain) (classifyName config c m).2 := by
  have hpass : passSeparator c = c := by simp [passSeparator, separates, hs, Category.isMarkupName]
  have hcontinues : continuesWord c = isNameByte c.byte := by
    simp [continuesWord, hs, Category.isMarkupName]
  have hword : leave config c m = leaveWord config c m := by simp only [leave, hs]
  cases href : m.reference
  all_goals simp only [hword, leaveWord, hpass, hcontinues, hs, href, if_true]

/-- A name goes on. -/
theorem Comes.name (h : Comes config text ⟨.name, marks, b :: u, R, e⟩)
    (hb : isNameByte b = true) : Comes config text ⟨.name, marks ++ [none], u, R, e⟩ := by
  obtain ⟨c, m, hv, h⟩ := h
  have hbyte : c.byte = b := byte_of_ahead h.ahead
  have hleave : leave config c m = .pass c m := by
    rw [leave_identifier h.stance.1, hbyte, hb, if_pos rfl]
  refine ⟨_, _, hv.pass (more_of_ahead h.ahead) (dispatch_of_pass hleave ?_) ?_, ?_⟩
  · rw [h.stance.1]
    decide
  · rw [hbyte]
    exact ne_newline_of_isNameByte hb
  · exact h.forward none (ne_newline_of_isNameByte hb) nofun

/-- A name ends before a byte that is not of it, and takes some category, which is remembered. -/
theorem Visits.endsName (hv : Visits (grammar config) text c m)
    (h : Spot.Holds ⟨.name, marks, b :: u, R, e⟩ c m) (hb : isNameByte b = false) :
    ∃ d y, Visits (grammar config) text d y ∧ Spot.Holds ⟨.code, marks, b :: u, R, e⟩ d y ∧
      d.state = .plain ∧ d.prev = c.prev ∧ d.trail.category ≠ .number := by
  obtain ⟨k, y, hclass, hR, he, hflags⟩ : ∃ k y,
      classifyName config c m = ((c.recolor (categoryOf k)).remember (categoryOf k), y) ∧
        y.regions = m.regions ∧ y.elements = m.elements ∧ y.flags.nested = m.flags.nested := by
    refine ⟨_, _, rfl, ?_⟩
    split_ifs <;> exact ⟨rfl, rfl, rfl⟩
  have hleave : leave config c m =
      .again (((c.recolor (categoryOf k)).remember (categoryOf k)).switch .plain) y := by
    rw [leave_identifier h.stance.1, byte_of_ahead h.ahead, hb, if_neg (by decide), h.stance.2,
      hclass]
  refine ⟨_, _, visits_again hv h.ahead (dispatch_of_again hleave), ?_, rfl, rfl, ?_⟩
  · refine ⟨.inl rfl, fun l _ => ?_, h.ahead, hR.trans h.regions, he.trans h.elements,
      hflags.trans h.unnested, h.started, h.line⟩
    have hpassed : ((((c.recolor (categoryOf k)).remember (categoryOf k)).switch .plain).recolor
        l).passed = (c.recolor (categoryOf k)).passed :=
      Cursor.passed_switch ((c.recolor (categoryOf k)).remember (categoryOf k)) .plain
    rw [hpassed]
    exact h.marks _ (.inr rfl)
  · change categoryOf k ≠ .number
    cases k <;> exact nofun

theorem Comes.endsName (h : Comes config text ⟨.name, marks, b :: u, R, e⟩)
    (hb : isNameByte b = false) : Comes config text ⟨.code, marks, b :: u, R, e⟩ := by
  obtain ⟨c, m, hv, h⟩ := h
  obtain ⟨d, y, hv, hspot, -⟩ := Visits.endsName hv h hb
  exact ⟨d, y, hv, hspot⟩

/-- A word of lower-case letters. -/
structure Word where
  letters : Text
  nonempty : letters ≠ []
  lower : ∀ b ∈ letters, isLower b = true

/-- A whole word in program text. -/
theorem Comes.word (w : Word) (hb : isNameByte b = false)
    (h : Comes config text ⟨.code, marks, w.letters ++ b :: u, R, e⟩) :
    Comes config text ⟨.code, marks ++ List.replicate w.letters.length none, b :: u, R, e⟩ := by
  obtain ⟨w, hne, hw⟩ := w
  obtain ⟨a, w, rfl⟩ := List.exists_cons_of_ne_nil hne
  have hletters : ∀ c ∈ w, isNameByte c = true :=
    fun c hc => isNameByte_of_isLower (hw c (List.mem_cons_of_mem a hc))
  have hname := (h.beginsName (hw a List.mem_cons_self)).each (u := b :: u)
    fun c hc => fun h => h.name (hletters c hc)
  rw [List.append_assoc] at hname
  exact hname.endsName hb

/-! ### Strings -/

/-- A byte that stands for itself in an interpolated string. -/
def isPlainInString (b : Byte) : Bool :=
  b != quote && b != backslash && b != dollar && b != newline

/-- What stands for itself in a string belongs to it. -/
theorem Comes.literal (h : Comes config text ⟨.inside .interpolated, marks, b :: u, R, e⟩)
    (hb : isPlainInString b = true) :
    Comes config text ⟨.inside .interpolated, marks ++ [some .interpolated], u, R, e⟩ := by
  simp only [isPlainInString, Bool.and_eq_true, bne_iff_ne] at hb
  obtain ⟨⟨⟨hquote, hbackslash⟩, hdollar⟩, hnewline⟩ := hb
  refine h.goesOn (by decide) hnewline fun c m hc => ?_
  have hs : c.state = .interpolated := hc.stance
  simp only [leave, hs, leaveLiteral, hc.started, byte_of_ahead hc.ahead, hbackslash, hdollar,
    Bool.false_eq_true, false_and, if_false]
  rw [if_neg]
  rintro ⟨hclose, -⟩
  exact hquote hclose

/-- What a dollar sign in a string begins. -/
theorem leave_dollar (hs : c.state = .interpolated) (hstarted : c.atLineStart = false)
    (hb : c.byte = dollar) : leave config c m = enterInterpolation c m := by
  simp only [leave, hs, leaveLiteral, hstarted, hb]
  rfl

/-- A hole opens in a string. -/
theorem Comes.opensHole
    (h : Comes config text ⟨.inside .interpolated, marks, dollar :: lbrace :: u, R, e⟩) :
    Comes config text ⟨.code, marks ++ [some .punctuation, some .punctuation], u,
      R.push .interpolated, e⟩ := by
  refine (h.beginsTwo (by decide) (by decide) (by decide) fun c m hc => ?_).behindPunctuation
  refine ⟨{ m with regions := m.regions.push .interpolated }, ?_,
    congrArg (·.push .interpolated) hc.regions, hc.elements, hc.unnested⟩
  have hs : c.state = .interpolated := hc.stance
  have hnext : c.next = lbrace := next_of_ahead hc.ahead
  rw [leave_dollar hs hc.started (byte_of_ahead hc.ahead)]
  simp only [enterInterpolation, hnext, hs]
  rfl

/-- A string ends. -/
theorem Comes.closesString
    (h : Comes config text ⟨.inside .interpolated, marks, quote :: u, R, e⟩) :
    Comes config text ⟨.code, marks ++ [some .interpolated], u, R, e⟩ := by
  refine h.ends (t := .plain) (by decide) fun c m hc => ?_
  have hs : c.state = .interpolated := hc.stance
  simp only [leave, hs, leaveLiteral, hc.started, byte_of_ahead hc.ahead, closeLiteral]
  rfl

/-- The rule for a quote at which an interpolated string of one line begins. -/
theorem enter_quote (hb : c.byte = quote) (hstart : startsInterpolated config c = true)
    (hnext : c.readsNext quote quote = false) :
    enter config c m = .pass (c.switch .interpolated) m := by
  have hclass : enter config c m = enterString config c m := by
    simp only [enter, hb, enterPunctuation]
    rfl
  rw [hclass, enterString, hstart, hnext]
  rfl

/-- The quote at hand is not the first of three. -/
theorem readsNext_of_ahead (h : c.ahead = quote :: u) (hu : ∀ v, u ≠ quote :: quote :: v) :
    c.readsNext quote quote = false := by
  rw [Cursor.readsNext, Bool.and_eq_false_iff, beq_eq_false_iff_ne, beq_eq_false_iff_ne,
    Cursor.next, Cursor.peek, Cursor.peek, h]
  rcases u with _ | ⟨a, _ | ⟨a', v⟩⟩
  · exact .inl (show (0 : Byte) ≠ quote by decide)
  · exact .inr (show (0 : Byte) ≠ quote by decide)
  · by_contra hquotes
    simp only [not_or, not_not] at hquotes
    obtain ⟨rfl, rfl⟩ := hquotes
    exact hu v rfl

/-- A string begins that is interpolated. -/
theorem Visits.opensString (hv : Visits (grammar config) text c m)
    (h : Spot.Holds ⟨.code, marks, quote :: u, R, e⟩ d m) (hmore : c.more = true)
    (hrule : (grammar config).dispatch c m = enter config d m)
    (hstart : startsInterpolated config d = true) (hu : ∀ v, u ≠ quote :: quote :: v) :
    Comes config text ⟨.inside .interpolated, marks ++ [some .interpolated], u, R, e⟩ := by
  have henter := enter_quote (m := m) (byte_of_ahead h.ahead) hstart (readsNext_of_ahead h.ahead hu)
  exact Visits.begins hv hmore h (hrule.trans henter) rfl nofun (by decide) h.regions h.elements
    h.unnested

theorem Comes.opensString (hc : config.interpolation = .always)
    (h : Comes config text ⟨.code, marks, quote :: u, R, e⟩) (hu : ∀ v, u ≠ quote :: quote :: v) :
    Comes config text ⟨.inside .interpolated, marks ++ [some .interpolated], u, R, e⟩ := by
  obtain ⟨c, m, hv, h⟩ := h
  obtain ⟨d, -, hspot, hrule⟩ := h.enters config
  exact Visits.opensString hv hspot (more_of_ahead h.ahead) hrule
    (by rw [startsInterpolated, hc]) hu

/-! ### References -/

/-- A reference begins in a string. -/
theorem Comes.opensReference
    (h : Comes config text ⟨.inside .interpolated, marks, dollar :: b :: u, R, e⟩)
    (hb : isLower b = true) :
    Comes config text ⟨.reference, marks ++ [some .identifier], b :: u, R, e⟩ := by
  obtain ⟨c, m, hv, h⟩ := h
  have hs : c.state = .interpolated := h.stance
  have hne : b ≠ dollar ∧ b ≠ lbrace := by
    refine ⟨?_, ?_⟩ <;> rintro rfl <;> cases hb
  have hstart : isNameStart b = true := by
    simp [isNameStart, Byte.isNameStart, Byte.isAlpha, hb]
  have hleave : leave config c m =
      .pass (c.switch .identifier) { m with reference := some .interpolated } := by
    rw [leave_dollar hs h.started (byte_of_ahead h.ahead)]
    simp only [enterInterpolation, next_of_ahead h.ahead, if_neg hne.1, if_neg hne.2, hstart, hs,
      if_true]
  have hplain : Category.identifier ≠ .plain := by decide
  exact Visits.begins hv (more_of_ahead h.ahead) h (dispatch_of_pass hleave hplain) ⟨rfl, rfl⟩
    Stance.reference_ne_name (by decide) h.regions h.elements h.unnested

/-- A reference goes on, also over a dollar sign. -/
theorem Comes.reference (h : Comes config text ⟨.reference, marks, b :: u, R, e⟩)
    (hb : isNameByte b = true) :
    Comes config text ⟨.reference, marks ++ [some .identifier], u, R, e⟩ := by
  obtain ⟨c, m, hv, h⟩ := h
  have hs : c.state = .identifier := h.stance.1
  have hleave : leave config c m = .pass c m := by
    rw [leave_identifier hs, byte_of_ahead h.ahead, hb, if_pos rfl]
  refine ⟨_, _, hv.pass (more_of_ahead h.ahead) (dispatch_of_pass hleave ?_) ?_, ?_⟩
  · rw [hs]
    exact nofun
  · rw [byte_of_ahead h.ahead]
    exact ne_newline_of_isNameByte hb
  · exact h.goesOn hs nofun (ne_newline_of_isNameByte hb)

/-- A reference ends before a byte that is not of a name. -/
theorem Comes.endsReference (h : Comes config text ⟨.reference, marks, b :: u, R, e⟩)
    (hb : isNameByte b = false) :
    Comes config text ⟨.inside .interpolated, marks, b :: u, R, e⟩ := by
  obtain ⟨c, m, hv, h⟩ := h
  have hleave : leave config c m =
      .again (c.switch .interpolated) { m with reference := none } := by
    rw [leave_identifier h.stance.1, byte_of_ahead h.ahead, hb, if_neg (by decide), h.stance.2]
  exact ⟨_, _, visits_again hv h.ahead (dispatch_of_again hleave),
    h.turn (.inside .interpolated) rfl h.regions h.elements h.unnested⟩

/-- A doubled dollar sign in a string. -/
theorem Comes.doubled
    (h : Comes config text ⟨.inside .interpolated, marks, dollar :: dollar :: b :: u, R, e⟩) :
    Comes config text
      ⟨.inside .interpolated, marks ++ [some .escape, some .escape], b :: u, R, e⟩ := by
  obtain ⟨c, m, hv, h⟩ := h
  have hs : c.state = .interpolated := h.stance
  have hleave : leave config c m =
      .pass (c.switch .escape).forward { m with escape := .single .interpolated } := by
    rw [leave_dollar hs h.started (byte_of_ahead h.ahead)]
    simp only [enterInterpolation, next_of_ahead h.ahead, hs, if_true]
  have hfirst := h.begins (t := .escape) (y := { m with escape := .single .interpolated })
    (.inside .escape) rfl nofun (by decide) h.regions h.elements h.unnested
  have hsecond := hfirst.goesOn Cursor.state_forward nofun (by decide)
  have hv' := hv.pass (more_of_ahead h.ahead) (dispatch_of_pass hleave (by
    rw [Cursor.state_forward]
    exact nofun)) (by
    rw [byte_of_ahead hfirst.ahead]
    decide)
  -- one byte behind the first dollar sign belongs to the escape, and no more
  have hback : leave config (c.switch .escape).forward.forward
      { m with escape := .single .interpolated } =
      .again ((c.switch .escape).forward.forward.switch .interpolated)
        { m with escape := (Escape.single .interpolated).count } := by
    have hs' : (c.switch .escape).forward.forward.state = .escape := hsecond.stance
    simp only [leave, hs']
    rfl
  refine ⟨_, _, visits_again hv' hsecond.ahead (dispatch_of_again hback), ?_⟩
  have := hsecond.turn (y := { m with escape := (Escape.single .interpolated).count })
    (.inside .interpolated) rfl h.regions h.elements h.unnested
  rwa [List.append_assoc] at this

/-! ### Braces -/

/-- The rule for a brace in a region. -/
theorem enter_brace (hb : c.byte = lbrace ∨ c.byte = rbrace) (hR : 0 < m.regions.depth) :
    enter config c m = enterRegionOperator c m := by
  have hregions : m.regions.isEmpty = false := by
    simp only [ReturnStack.isEmpty, beq_eq_false_iff_ne]
    omega
  have hclass : enter config c m = enterOperator c m := by
    rcases hb with hb | hb
    all_goals
      simp only [enter, hb, enterPunctuation]
      rfl
  rw [hclass, enterOperator, hregions]
  rcases hb with hb | hb
  all_goals
    rw [hb]
    rfl

/-- A brace opens in a region. -/
theorem Comes.opensBrace (h : Comes config text ⟨.code, marks, lbrace :: u, R, e⟩)
    (hR : 0 < R.depth) :
    Comes config text ⟨.code, marks ++ [some .punctuation], u, R.push .plain, e⟩ := by
  obtain ⟨c, m, hv, h⟩ := h
  obtain ⟨d, -, hspot, hrule⟩ := h.enters config
  have hb : d.byte = lbrace := byte_of_ahead hspot.ahead
  have henter : enter config d m =
      .pass (d.switch .punctuation) { m with regions := m.regions.push .plain } := by
    rw [enter_brace (.inl hb) (h.regions ▸ hR), enterRegionOperator]
    exact if_pos hb
  exact Visits.begins hv (more_of_ahead h.ahead) hspot (hrule.trans henter) (.inr (.inr rfl)) nofun
    (by decide) (congrArg (·.push .plain) h.regions) h.elements h.unnested

/-- A brace closes a region. -/
theorem Comes.closesRegion {outer : Category} {R' : ReturnStack Category}
    (h : Comes config text ⟨.code, marks, rbrace :: u, R, e⟩) (hR : 0 < R.depth)
    (hpop : R.pop? = some (outer, R')) :
    Comes config text ⟨.of outer, marks ++ [some .punctuation], u, R', e⟩ := by
  obtain ⟨c, m, hv, h⟩ := h
  obtain ⟨d, -, hspot, hrule⟩ := h.enters config
  have hb : d.byte = rbrace := byte_of_ahead hspot.ahead
  have henter : enter config d m =
      .again ((d.switch .punctuation).forwardSwitch outer) { m with regions := R' } := by
    have hb' : (d.switch .punctuation).byte = rbrace := hb
    rw [enter_brace (.inr hb) (h.regions ▸ hR), enterRegionOperator]
    simp only [hb', h.regions, hpop]
    rfl
  refine ⟨_, _, visits_again hv h.ahead (hrule.trans henter), ?_⟩
  have hpassed := hspot.begins (t := .punctuation) .code (.inr (.inr rfl)) nofun (by decide)
    h.regions h.elements h.unnested
  exact hpassed.turn (.of outer) (Stance.holds_of rfl) rfl h.elements h.unnested

end Highlight.Scala
