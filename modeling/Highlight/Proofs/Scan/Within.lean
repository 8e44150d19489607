import Highlight.Proofs.Scan.Progress
import Highlight.Scan.Outcome

/-!
Moves within the line. `Cursor.Within` says that a cursor came to its place by moves none of which
goes over the end of a line. A grammar whose rules all move like that, from whatever place and with
whatever data, stays in its lines (`Grammar.StaysInLine`): then it is the pass alone that goes from
one line to the next. `Cursor.Stands` says what a cursor knows of its place in the text, and every
such move keeps it.
-/

namespace Highlight

open Byte

variable {σ ζ : Type} [Palette σ]

namespace Cursor

/-- The cursor `d` came from `c` by moves within the line. -/
inductive Within (c : Cursor σ) : Cursor σ → Prop where
  | refl : Within c c
  | forward {d : Cursor σ} (h : Within c d) (hb : d.byte ≠ newline) : Within c d.forward
  | switch {d : Cursor σ} (h : Within c d) (s : σ) : Within c (d.switch s)
  | recolor {d : Cursor σ} (h : Within c d) (s : σ) : Within c (d.recolor s)
  | remember {d : Cursor σ} (h : Within c d) (s : σ) : Within c (d.remember s)

namespace Within

variable {c d e : Cursor σ}

theorem trans (h : Within c d) (h' : Within d e) : Within c e := by
  induction h' with
  | refl => exact h
  | forward _ hb ih => exact ih.forward hb
  | switch _ s ih => exact ih.switch s
  | recolor _ s ih => exact ih.recolor s
  | remember _ s ih => exact ih.remember s

theorem onward (h : Within c d) : c.Onward d := by
  induction h with
  | refl => exact .refl c
  | forward _ _ ih => exact ih.trans (.forward _)
  | switch _ _ ih | recolor _ _ ih | remember _ _ ih => exact ⟨ih.ahead, ih.pos⟩

theorem line_eq (h : Within c d) : d.line = c.line := by
  induction h with
  | refl => rfl
  | forward _ hb ih => rw [line_forward, if_neg hb, ih]
  | switch _ _ ih | recolor _ _ ih | remember _ _ ih => exact ih

theorem start_eq (h : Within c d) : d.start = c.start := by
  induction h with
  | refl => rfl
  | forward _ _ ih => rw [start_forward, ih]
  | switch _ _ ih | recolor _ _ ih | remember _ _ ih => exact ih

/-- A cursor that has moved at all stands behind a byte that ends no line. -/
theorem moved (h : Within c d) :
    d.ahead = c.ahead ∧ d.prev = c.prev ∨ ∃ b, d.prev = some b ∧ b ≠ newline := by
  induction h with
  | refl => exact .inl ⟨rfl, rfl⟩
  | @forward d _ hb ih =>
    cases ha : d.ahead with
    | nil => rwa [forward_nil ha]
    | cons b t =>
      have hbyte : d.byte = b := by simp [byte, peek, ha]
      exact .inr ⟨b, by rw [forward_cons ha], hbyte ▸ hb⟩
  | switch _ _ ih | recolor _ _ ih | remember _ _ ih => exact ih

/-! ### Longer moves -/

/-- A byte that is known to end no line may be passed. -/
theorem forward_of_eq {b : Byte} (h : Within c d) (hd : d.byte = b) (hb : b ≠ newline) :
    Within c d.forward := h.forward (hd ▸ hb)

theorem forwardSwitch_of_eq {b : Byte} (h : Within c d) (hd : d.byte = b) (hb : b ≠ newline)
    (s : σ) : Within c (d.forwardSwitch s) := (h.forward_of_eq hd hb).switch s

theorem forwardN (h : Within c d) {n : Nat} (hn : d.ahead.Clear n) : Within c (d.forwardN n) := by
  induction n generalizing d with
  | zero => exact h
  | succ n ih =>
    unfold Cursor.forwardN
    split
    case isFalse => exact h
    case isTrue =>
      refine ih (h.forward (hn.mono (Nat.le_add_left 1 n)).getD_zero) ?_
      rw [ahead_forward, ← List.drop_one]
      exact Text.Clear.drop (by rwa [Nat.add_comm])

/-- Two bytes that are known to end no line may be passed. -/
theorem forwardN_two (h : Within c d) {a b : Byte} (hd : d.byte = a) (ha : a ≠ newline)
    (hd' : d.next = b) (hb : b ≠ newline) : Within c (d.forwardN 2) :=
  h.forwardN (clear_two (hd ▸ ha) (hd' ▸ hb))

theorem toLastOfRun (h : Within c d) (hb : d.byte ≠ newline) : Within c d.toLastOfRun :=
  h.forwardN (clear_run hb)

end Within

end Cursor

/-! ### Rules -/

/-- The rules of the grammar go over no end of a line, wherever and with whatever data they are
asked. -/
structure Grammar.StaysInLine (g : Grammar σ ζ) : Prop where
  begin : ∀ (c : Cursor σ) b, c.Within (g.begin c b).1
  leave : ∀ (c : Cursor σ) z, c.Within (g.leave c z).cursor
  enter : ∀ (c : Cursor σ) z, c.Within (g.enter c z).cursor

namespace Grammar.StaysInLine

variable {g : Grammar σ ζ}

theorem goesOn (hg : g.StaysInLine) : g.GoesOn :=
  ⟨fun c b => (hg.begin c b).onward, fun c z => (hg.leave c z).onward,
    fun c z => (hg.enter c z).onward⟩

theorem dispatch [DecidableEq σ] (hg : g.StaysInLine) (c : Cursor σ) (z : ζ) :
    c.Within (g.dispatch c z).cursor := by
  rcases Pass.dispatch_cases g c z with h | ⟨-, h⟩ <;> rw [h]
  · exact hg.leave c z
  · exact (hg.leave c z).trans (hg.enter _ _)

end Grammar.StaysInLine

/-! ### The place in the text -/

/-- The cursor knows where it stands, in a chunk of the text that ends at `stop`: on which line,
behind which byte, with what ahead, and with one category for every byte passed. -/
structure Cursor.Stands (text : Text) (stop : Nat) (c : Cursor σ) : Prop where
  pos : c.pos = c.start + c.spent.length
  le : c.pos ≤ stop
  ahead : c.ahead = (text.take stop).drop c.pos
  line : c.line = (text.take c.pos).count newline
  prev : c.prev = (text.take c.pos).getLast?

namespace Cursor.Stands

variable {text : Text} {stop : Nat} {c d : Cursor σ}

omit [Palette σ] in
theorem switch (h : c.Stands text stop) (s : σ) : (c.switch s).Stands text stop :=
  ⟨by rw [spent_switch]; exact h.pos, h.le, h.ahead, h.line, h.prev⟩

omit [Palette σ] in
theorem recolor (h : c.Stands text stop) (s : σ) : (c.recolor s).Stands text stop :=
  ⟨by simpa [spent, Cursor.recolor] using h.pos, h.le, h.ahead, h.line, h.prev⟩

omit [Palette σ] in
/-- What is remembered has no part in the place. -/
theorem look (h : c.Stands text stop) (t : Trail σ) : { c with trail := t }.Stands text stop :=
  ⟨h.pos, h.le, h.ahead, h.line, h.prev⟩

omit [Palette σ] in
/-- The next byte is a byte of the text before the end of the chunk. -/
theorem ahead_cons {b : Byte} {t : Text} (h : c.Stands text stop) (ha : c.ahead = b :: t) :
    c.pos < stop ∧ text[c.pos]? = some b ∧ text.take (c.pos + 1) = text.take c.pos ++ [b] ∧
      t = (text.take stop).drop (c.pos + 1) := by
  have hdrop := h.ahead.symm.trans ha
  have hget : (text.take stop)[c.pos]? = some b := by
    rw [← List.head?_drop, hdrop, List.head?_cons]
  have hlt : c.pos < stop := by
    have := (List.getElem?_eq_some_iff.1 hget).1
    rw [List.length_take] at this
    omega
  rw [List.getElem?_take_of_lt hlt] at hget
  refine ⟨hlt, hget, ?_, ?_⟩
  · rw [List.take_add_one, hget, Option.toList_some]
  · rw [← List.drop_drop, hdrop, List.drop_one, List.tail_cons]

theorem forward (h : c.Stands text stop) : c.forward.Stands text stop := by
  cases ha : c.ahead with
  | nil => rwa [forward_nil ha]
  | cons b t =>
    obtain ⟨hlt, -, htake, ht⟩ := h.ahead_cons ha
    have hspent := spent_forward ha
    rw [forward_cons ha] at hspent ⊢
    refine ⟨?_, hlt, ht, ?_, ?_⟩
    · rw [hspent, List.length_cons]
      exact congrArg (· + 1) h.pos
    · rw [htake, List.count_append, ← h.line]
      by_cases hb : b = newline <;> simp [hb]
    · rw [htake, List.getLast?_concat]

/-- Moves within the line keep the place known. -/
theorem within (h : c.Stands text stop) (hm : c.Within d) : d.Stands text stop := by
  induction hm with
  | refl => exact h
  | forward _ _ ih => exact ih.forward
  | switch _ s ih => exact ih.switch s
  | recolor _ s ih => exact ih.recolor s
  | remember _ s ih => exact ih.look _

omit [Palette σ] in
/-- Before the end of the chunk a look ahead reads the text, and behind it nothing. -/
theorem peek (h : c.Stands text stop) (n : Nat) :
    c.peek n = if c.pos + n < stop then text.getD (c.pos + n) 0 else 0 := by
  rw [Cursor.peek, h.ahead, List.getD_eq_getElem?_getD, List.getElem?_drop]
  split
  case isTrue hlt => rw [List.getElem?_take_of_lt hlt, List.getD_eq_getElem?_getD]
  case isFalse hle => rw [List.getElem?_take_eq_none (by omega)]; rfl

omit [Palette σ] in
/-- At the end of the chunk the cursor has passed all of it. -/
theorem pos_of_ahead_nil (h : c.Stands text stop) (hstop : stop ≤ text.length)
    (ha : c.ahead = []) : c.pos = stop := by
  have hnil := h.ahead.symm.trans ha
  rw [List.drop_eq_nil_iff, List.length_take, Nat.min_eq_left hstop] at hnil
  exact Nat.le_antisymm h.le hnil

omit [Palette σ] in
theorem length_passed (h : c.Stands text stop) : c.start + c.passed.length = c.pos := by
  rw [h.pos, passed_eq, List.length_reverse]

end Cursor.Stands

/-- A scan of a part of a text begins where the part does. -/
theorem Cursor.pos_ofPart {text : Text} {start len : Nat} (h : start + len ≤ text.length) (s : σ)
    (styles : Styles σ) : (Cursor.ofPart text start len s styles).pos = start := by
  simp only [ofPart, ofRange, Nat.min_eq_left h, Nat.min_eq_left (Nat.le_add_right start len)]

theorem Cursor.stands_ofPart {text : Text} {start len : Nat} (h : start + len ≤ text.length)
    (s : σ) (styles : Styles σ) :
    (Cursor.ofPart text start len s styles).Stands text (start + len) := by
  have hstop : min (start + len) text.length = start + len := Nat.min_eq_left h
  have hstart : min start (start + len) = start := Nat.min_eq_left (Nat.le_add_right _ _)
  have hpos := pos_ofPart h s styles
  refine ⟨?_, ?_, ?_, ?_, ?_⟩ <;> rw [hpos]
  · simp [ofPart, ofRange, hstop, spent]
  · exact Nat.le_add_right _ _
  all_goals simp only [ofPart, ofRange, hstop, hstart]

end Highlight
