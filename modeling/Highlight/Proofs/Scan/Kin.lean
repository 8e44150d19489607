import Highlight.Proofs.Scan.Agree
import Mathlib.Tactic.SplitIfs

/-!
What two scans have in common that are at corresponding places of two texts. `Cursor.Kin` relates
two such places by what rules can see of the way behind them, and `Cursor.Alike` by what they can
see ahead as well, up to the end of the line. What a rule asks of a cursor is answered alike at
alike places, one lemma for each question.
-/

namespace Highlight

open Byte

variable {σ : Type}

/-- How the rules of a language treat the runs of its categories. -/
structure Conduct (σ : Type) where
  /-- A run of the category is never read and never takes another category, once begun. -/
  stable : σ → Bool
  /-- A run of the category ends with its line. -/
  ending : σ → Bool
  /-- A run of the category is judged as a name when it ends. -/
  named : σ → Bool
  /-- The rules look at the category of the last visible byte. -/
  reads : Prop
  /-- No run takes another category but comments and names. -/
  tidy : Prop

/-- A run of the category may go on over the end of a line, or up to it. -/
def Conduct.crosses (q : Conduct σ) (s : σ) : Bool := q.stable s || q.ending s

namespace Cursor

/-- The categories of all bytes passed, the last one first. -/
def spent (c : Cursor σ) : List σ := List.replicate c.word.length c.state ++ c.closed

theorem passed_eq (c : Cursor σ) : c.passed = c.spent.reverse := rfl

@[simp] theorem spent_switch (c : Cursor σ) (s : σ) : (c.switch s).spent = c.spent := by
  simp [spent, switch]

/-- The run in progress is a name: its last byte is a visible one. -/
def HasName (c : Cursor σ) : Prop := ∃ b w, c.word = b :: w ∧ isSpace b = false

theorem reads_iff {c : Cursor σ} {a b : Byte} : c.reads a b = true ↔ c.byte = a ∧ c.next = b := by
  simp [reads]

/-! ### The bytes ahead -/

theorem byte_cons {c : Cursor σ} {b : Byte} {t : Text} (h : c.ahead = b :: t) : c.byte = b := by
  rw [byte, peek, h]
  rfl

theorem next_cons {c : Cursor σ} {b : Byte} {t : Text} (h : c.ahead = b :: t) :
    c.next = t.getD 0 0 := by
  rw [next, peek, h]
  rfl

theorem more_cons {c : Cursor σ} {b : Byte} {t : Text} (h : c.ahead = b :: t) :
    c.more = true := by
  rw [more, h]
  rfl

/-- Behind the end of the text all bytes read as zero. -/
theorem byte_nil {c : Cursor σ} (h : c.ahead = []) : c.byte = 0 := by
  rw [byte, peek, h]
  rfl

theorem ahead_of_next_ne {c : Cursor σ} (h : c.next ≠ 0) :
    ∃ t, c.ahead = c.byte :: c.next :: t := by
  unfold byte next peek at *
  match ha : c.ahead with
  | [] => simp [ha] at h
  | [a] => simp [ha] at h
  | a :: b :: t => exact ⟨t, rfl⟩

/-! ### The end of a line -/

theorem ahead_of_atLineEnd {c : Cursor σ} (h : c.atLineEnd = true) :
    ∃ t, c.ahead = newline :: t ∧ c.byte = newline := by
  cases ha : c.ahead <;> simp_all [atLineEnd, byte, peek]

theorem byte_of_not_atLineEnd {c : Cursor σ} (h : c.atLineEnd ≠ true) : c.byte ≠ newline := by
  intro hb
  apply h
  cases ha : c.ahead <;> simp_all [atLineEnd, byte, peek]

/-! ### Going on -/

section Forward

variable [Palette σ] {c : Cursor σ}

theorem forward_nil (h : c.ahead = []) : c.forward = c := by simp [forward, h]

theorem forward_cons {b : Byte} {t : Text} (h : c.ahead = b :: t) :
    c.forward =
      { c with
        pos := c.pos + 1
        line := if b = newline then c.line + 1 else c.line
        prev := some b
        ahead := t
        word := b :: c.word
        trail := c.trail.pass b c.state } := by simp [forward, h]

@[simp] theorem state_forward : c.forward.state = c.state := by unfold forward; split <;> rfl

@[simp] theorem start_forward : c.forward.start = c.start := by unfold forward; split <;> rfl

theorem ahead_forward : c.forward.ahead = c.ahead.tail := by
  cases h : c.ahead with
  | nil => rw [forward_nil h, h, List.tail_nil]
  | cons b t => simp [forward_cons h]

theorem ahead_forward_cons {b : Byte} {t : Text} (h : c.ahead = b :: t) : c.forward.ahead = t := by
  rw [ahead_forward, h, List.tail_cons]

theorem pos_forward_cons {b : Byte} {t : Text} (h : c.ahead = b :: t) :
    c.forward.pos = c.pos + 1 := by rw [forward_cons h]

/-- Only behind a line feed does a line begin. -/
theorem atLineStart_forward_cons {b : Byte} {t : Text} (h : c.ahead = b :: t) (hb : b ≠ newline) :
    c.forward.atLineStart = false := by
  rw [forward_cons h]
  simpa [atLineStart] using hb

theorem pos_forward : c.forward.pos + c.forward.ahead.length = c.pos + c.ahead.length := by
  cases h : c.ahead with
  | nil => rw [forward_nil h, h]
  | cons b t =>
    simp only [forward_cons h, List.length_cons]
    omega

theorem line_forward :
    c.forward.line = if c.byte = newline then c.line + 1 else c.line := by
  cases h : c.ahead with
  | nil => simp [forward_nil h, byte, peek, h]
  | cons b t => simp [forward_cons h, byte, peek, h]

theorem peek_forward (n : Nat) : c.forward.peek n = c.peek (n + 1) := by
  unfold peek
  rw [ahead_forward, Text.getD_tail]

theorem byte_forward : c.forward.byte = c.next := peek_forward 0

theorem spent_forward {b : Byte} {t : Text} (h : c.ahead = b :: t) :
    c.forward.spent = c.state :: c.spent := by
  simp [forward_cons h, spent, List.replicate_succ]

theorem ahead_forwardN (n : Nat) : (c.forwardN n).ahead = c.ahead.drop n := by
  induction n generalizing c with
  | zero => rfl
  | succ n ih =>
    unfold forwardN
    split
    · rw [ih, ahead_forward, List.drop_tail]
    · rename_i h
      have hnil : c.ahead = [] := by simpa [more] using h
      rw [hnil, List.drop_nil]

theorem peek_forwardN (n i : Nat) : (c.forwardN n).peek i = c.peek (n + i) := by
  simp [peek, ahead_forwardN, List.getD_eq_getElem?_getD]

theorem state_forwardN (n : Nat) : (c.forwardN n).state = c.state := by
  induction n generalizing c with
  | zero => rfl
  | succ n ih =>
    unfold forwardN
    split
    · rw [ih, state_forward]
    · rfl

theorem byte_toLastOfRun : c.toLastOfRun.byte = c.byte := by
  unfold toLastOfRun byte
  rw [peek_forwardN]
  generalize hn : (c.ahead.tail.takeWhile (· == c.peek 0)).length = n
  cases n with
  | zero => rfl
  | succ n =>
    have hlt : n < (c.ahead.tail.takeWhile (· == c.peek 0)).length := by omega
    have hpre : c.ahead.tail.takeWhile (· == c.peek 0) <+: c.ahead.tail := List.takeWhile_prefix _
    have hmem := List.all_eq_true.1 List.all_takeWhile _ (List.getElem_mem hlt)
    rw [hpre.getElem hlt] at hmem
    rw [Nat.add_zero, ← peek_forward, peek, ahead_forward, List.getD_eq_getElem?_getD,
      List.getElem?_eq_getElem (Nat.lt_of_lt_of_le hlt hpre.length_le)]
    simpa using hmem

end Forward

/-! ### The way behind -/

/-- The next two bytes end no line if neither does. -/
theorem clear_two {c : Cursor σ} (hb : c.byte ≠ newline) (hn : c.next ≠ newline) :
    c.ahead.Clear 2 := by
  unfold byte next peek at *
  unfold Text.Clear
  revert hb hn
  rcases c.ahead with _ | ⟨a, _ | ⟨b, t⟩⟩ <;> simp +contextual

/-- The run of equal bytes that begins here ends no line, if its first byte does not. -/
theorem clear_run {c : Cursor σ} (hb : c.byte ≠ newline) :
    c.ahead.Clear (c.ahead.tail.takeWhile (· == c.byte)).length := by
  cases h : c.ahead with
  | nil => exact .zero []
  | cons b t =>
    have e : c.byte = b := by simp [byte, peek, h]
    rw [e, List.tail_cons]
    exact Text.clear_run (e ▸ hb) t

/-- What two scans have found since the places behind which they run alike, where the one had
found `k` and the other `k'`. Either both have begun a new run since, or the run that was in
progress then still is, and its category is a stable one. -/
inductive Made (stable : σ → Bool) (k k' : List σ) (c c' : Cursor σ) : Prop where
  | begun (y : List σ) (closed : c.closed = y ++ k) (closed' : c'.closed = y ++ k')
      (word : c.word = c'.word)
  | going (n : Nat) (stable : stable c.state = true)
      (spent : c.spent = List.replicate n c.state ++ k)
      (spent' : c'.spent = List.replicate n c.state ++ k')

/-- Two places are of a kind: the rules see the same when they look back. -/
structure Kin (q : Conduct σ) (k k' : List σ) (c c' : Cursor σ) : Prop where
  state : c.state = c'.state
  prev : c.prev.getD newline = c'.prev.getD newline
  byte : c.trail.byte = c'.trail.byte
  category : q.reads → c.trail.category = c'.trail.category
  visible : c.trail.visible = c'.trail.visible
  indent : c.trail.indent = c'.trail.indent
  made : Made q.stable k k' c c'

namespace Kin

variable {q : Conduct σ} {k k' : List σ} {c c' : Cursor σ}

theorem refl (q : Conduct σ) (c : Cursor σ) : Kin q c.closed c.closed c c :=
  ⟨rfl, rfl, rfl, fun _ => rfl, rfl, rfl, .begun [] rfl rfl rfl⟩

theorem spent (h : Kin q k k' c c') : ∃ y, c.spent = y ++ k ∧ c'.spent = y ++ k' := by
  cases h.made with
  | begun y hc hc' hw =>
    exact ⟨List.replicate c.word.length c.state ++ y, by simp [Cursor.spent, hc],
      by simp [Cursor.spent, hc', hw, h.state]⟩
  | going n _ hs hs' => exact ⟨_, hs, hs'⟩

theorem word (h : Kin q k k' c c') (hs : q.stable c.state = false) : c.word = c'.word := by
  cases h.made with
  | begun y _ _ hw => exact hw
  | going n hn _ _ => simp [hs] at hn

theorem currentWord (h : Kin q k k' c c') (hs : q.stable c.state = false) :
    c.currentWord = c'.currentWord := by
  rw [Cursor.currentWord, Cursor.currentWord, h.word hs]

theorem atLineStart (h : Kin q k k' c c') : c.atLineStart = c'.atLineStart := by
  have key : ∀ o : Option Byte,
      (o.isNone || o == some newline) = (o.getD newline == newline) := by
    intro o
    cases o <;> simp
  unfold Cursor.atLineStart
  rw [key, key, h.prev]

/-- A test that takes the beginning of the text for the end of a line has the same outcome. -/
theorem behind {α : Type} (h : Kin q k k' c c') (f : Byte → α) (hf : f 0 = f newline) :
    f c.behind = f c'.behind := by
  have key : ∀ o : Option Byte, f (o.getD 0) = f (o.getD newline) := by
    intro o
    cases o <;> simp [hf]
  unfold Cursor.behind
  rw [key, key, h.prev]

theorem switch (h : Kin q k k' c c') (s : σ) : Kin q k k' (c.switch s) (c'.switch s) := by
  obtain ⟨y, hy, hy'⟩ := h.spent
  exact ⟨rfl, h.prev, h.byte, h.category, h.visible, h.indent, .begun y hy hy' rfl⟩

theorem recolor (h : Kin q k k' c c') (s : σ) (hs : q.stable c.state = false) :
    Kin q k k' (c.recolor s) (c'.recolor s) := by
  refine ⟨rfl, h.prev, h.byte, h.category, h.visible, h.indent, ?_⟩
  cases h.made with
  | begun y hc hc' hw => exact .begun y hc hc' hw
  | going n hn _ _ => simp [hs] at hn

theorem remember (h : Kin q k k' c c') (s : σ) : Kin q k k' (c.remember s) (c'.remember s) := by
  refine ⟨h.state, h.prev, h.byte, fun _ => rfl, h.visible, h.indent, ?_⟩
  cases h.made with
  | begun y hc hc' hw => exact .begun y hc hc' hw
  | going n hn hs hs' => exact .going n hn hs hs'

variable [Palette σ]

theorem newLine (h : Kin q k k' c c') : Kin q k k' c.newLine c'.newLine := by
  refine ⟨h.state, h.prev, h.byte, h.category, rfl, rfl, ?_⟩
  cases h.made with
  | begun y hc hc' hw => exact .begun y hc hc' hw
  | going n hn hs hs' => exact .going n hn hs hs'

/-- Places of a kind stay so when both scans pass the same byte. -/
theorem forward (h : Kin q k k' c c') (ha : c.ahead.head? = c'.ahead.head?) :
    Kin q k k' c.forward c'.forward := by
  cases hb : c.ahead with
  | nil =>
    have hb' : c'.ahead = [] := List.head?_eq_none_iff.1 (by rw [← ha, hb]; rfl)
    rwa [forward_nil hb, forward_nil hb']
  | cons b t =>
    obtain ⟨t', hb'⟩ : ∃ t', c'.ahead = b :: t' := by
      cases e : c'.ahead <;> simp_all
    have htrail : ∀ s, (c.trail.pass b s).byte = (c'.trail.pass b s).byte ∧
        (q.reads → (c.trail.pass b s).category = (c'.trail.pass b s).category) ∧
        (c.trail.pass b s).visible = (c'.trail.pass b s).visible ∧
        (c.trail.pass b s).indent = (c'.trail.pass b s).indent := by
      intro s
      unfold Trail.pass
      rw [← h.visible]
      split_ifs
      · exact ⟨h.byte, h.category, rfl, congrArg (· + 1) h.indent⟩
      · exact ⟨h.byte, h.category, h.visible, h.indent⟩
      · exact ⟨h.byte, h.category, rfl, h.indent⟩
      · exact ⟨rfl, fun _ => rfl, rfl, h.indent⟩
    obtain ⟨h₁, h₂, h₃, h₄⟩ := htrail c.state
    rw [forward_cons hb, forward_cons hb', ← h.state]
    refine ⟨rfl, rfl, h₁, h₂, h₃, h₄, ?_⟩
    cases h.made with
    | begun y hc hc' hw => exact .begun y hc hc' (by rw [hw])
    | going n hn hs hs' =>
      refine .going (n + 1) hn ?_ ?_
      · simpa [Cursor.spent, List.replicate_succ] using hs
      · simpa [Cursor.spent, List.replicate_succ, h.state] using hs'

end Kin

/-! ### The way ahead -/

/-- Two places are alike: the rules see the same when they look back, and also when they look
ahead, up to the end of the line. Behind what the two texts share, the one goes on with `u` and the
other with `u'`. -/
structure Alike (q : Conduct σ) (k k' : List σ) (u u' : Text) (c c' : Cursor σ) : Prop
    extends Kin q k k' c c' where
  ahead : Text.Agree u u' c.ahead c'.ahead

namespace Alike

variable {q : Conduct σ} {k k' : List σ} {u u' : Text} {c c' : Cursor σ}

theorem refl (q : Conduct σ) (c : Cursor σ) : Alike q c.closed c.closed [] [] c c :=
  ⟨.refl q c, .refl c.ahead⟩

theorem more_eq (h : Alike q k k' u u' c c') : c.more = c'.more :=
  congrArg (!·) h.ahead.isEmpty_eq

theorem byte_eq (h : Alike q k k' u u' c c') : c.byte = c'.byte := h.ahead.getD_zero

theorem next_eq (h : Alike q k k' u u' c c') (hb : c.byte ≠ newline) : c.next = c'.next :=
  h.ahead.getD_one hb

theorem peek_two (h : Alike q k k' u u' c c') (hb : c.byte ≠ newline) (hn : c.next ≠ newline) :
    c.peek 2 = c'.peek 2 := h.ahead.getD_two hb hn

theorem nextVisible_eq (h : Alike q k k' u u' c c') : c.nextVisible = c'.nextVisible :=
  h.ahead.firstVisible_eq

theorem atLineEnd_eq (h : Alike q k k' u u' c c') : c.atLineEnd = c'.atLineEnd := by
  unfold Cursor.atLineEnd
  rw [h.ahead.head?_eq]

/-- Two bytes in a row, the first of which ends no line, are read at both places or at none. -/
theorem reads_eq (h : Alike q k k' u u' c c') {a : Byte} (ha : a ≠ newline) (b : Byte) :
    c.reads a b = c'.reads a b := by
  unfold Cursor.reads
  rw [← h.byte_eq]
  by_cases hb : c.byte = a
  · rw [h.next_eq (hb ▸ ha)]
  · rw [beq_eq_false_iff_ne.2 hb, Bool.false_and, Bool.false_and]

theorem readsNext_eq (h : Alike q k k' u u' c c') (hb : c.byte ≠ newline) {a : Byte}
    (ha : a ≠ newline) (b : Byte) : c.readsNext a b = c'.readsNext a b := by
  unfold Cursor.readsNext
  rw [← h.next_eq hb]
  by_cases hn : c.next = a
  · rw [h.peek_two hb (hn ▸ ha)]
  · rw [beq_eq_false_iff_ne.2 hn, Bool.false_and, Bool.false_and]

/-- A number goes on alike; a newline never belongs to it. -/
theorem continuesNumber_eq (h : Alike q k k' u u' c c') :
    continuesNumber c.behind c.byte c.next = continuesNumber c'.behind c'.byte c'.next := by
  rw [← h.byte_eq]
  by_cases hb : c.byte = newline
  · simp [hb, continuesNumber, isNameByte, isNameStart, isAlpha, isLower, isUpper, isDigit]
  · rw [← h.next_eq hb]
    exact h.behind (continuesNumber · c.byte c.next) (by simp [continuesNumber])

end Alike

end Cursor

end Highlight
