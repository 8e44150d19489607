import Highlight.Proofs.Scan.Settling
import Highlight.Proofs.Word

/-!
How a line ends. A line may end with a newline, with a carriage return before it, or with the text;
beyond the end every byte reads as zero. No rule can tell these apart: asked at a place of which it
is shown the line alone, with a newline behind it (`Cursor.lineOnly`), it answers as it does when it
is shown the text. One lemma says so of each question that a rule asks.
-/

namespace Highlight

open Byte

namespace Byte

/-- The byte stands within a line: it neither ends it, nor is it the zero that is read beyond. -/
def Inner (b : Byte) : Prop := b ≠ 0 ∧ b ≠ carriageReturn ∧ b ≠ newline

instance (b : Byte) : Decidable b.Inner := inferInstanceAs (Decidable (_ ∧ _))

/-- A question about a byte to which the answer is the same for all that ends a line. -/
structure Blind {α : Type} (f : Byte → α) : Prop where
  zero : f 0 = f newline
  carriageReturn : f carriageReturn = f newline

/-- A kind of bytes that stand within a line. -/
def Inline (kind : Byte → Bool) : Prop :=
  kind 0 = false ∧ kind carriageReturn = false ∧ kind newline = false

instance (kind : Byte → Bool) : Decidable (Inline kind) := inferInstanceAs (Decidable (_ ∧ _))

theorem Inline.blind {kind : Byte → Bool} (h : Inline kind) : Blind kind :=
  ⟨h.1.trans h.2.2.symm, h.2.1.trans h.2.2.symm⟩

theorem Inline.inner {kind : Byte → Bool} {b : Byte} (hk : Inline kind) (h : kind b = true) :
    b.Inner := by
  refine ⟨?_, ?_, ?_⟩ <;> rintro rfl
  · rw [hk.1] at h
    cases h
  · rw [hk.2.1] at h
    cases h
  · rw [hk.2.2] at h
    cases h

theorem inline_isNameByte : Inline isNameByte := by decide
theorem inline_isNameStart : Inline isNameStart := by decide
theorem inline_isGraphic : Inline isGraphic := by decide
theorem inline_isDigit : Inline isDigit := by decide
theorem inline_isHexDigit : Inline isHexDigit := by decide

theorem eq_of_isLineEnd {b : Byte} (h : isLineEnd b = true) :
    b = Byte.carriageReturn ∨ b = newline := by simpa [isLineEnd] using h

theorem blind_eq {a : Byte} (ha : a.Inner) : Blind (· = a) :=
  ⟨by simp only [eq_iff_iff]; exact ⟨fun h => absurd h.symm ha.1, fun h => absurd h.symm ha.2.2⟩,
    by simp only [eq_iff_iff]; exact ⟨fun h => absurd h.symm ha.2.1, fun h => absurd h.symm ha.2.2⟩⟩

end Byte

/-! ### Texts -/

namespace Text

/-- The text is empty or begins with the end of a line. -/
def AtEnd (t : Text) : Prop := ∀ b ∈ t.head?, isLineEnd b = true

/-- The bytes of the text before its first end of a line. -/
def line (t : Text) : Text := t.takeWhile fun b => !isLineEnd b

/-- The first line of the text, ended by a newline. -/
def lineOnly (t : Text) : Text := line t ++ [newline]

variable {t : Text}

theorem atEnd_nil : AtEnd [] := nofun

theorem atEnd_cases (t : Text) : AtEnd t ∨ ∃ b u, t = b :: u ∧ isLineEnd b = false := by
  cases t with
  | nil => exact .inl atEnd_nil
  | cons b u =>
    by_cases hb : isLineEnd b = true
    · left
      intro a ha
      obtain rfl := Option.some.inj ha
      exact hb
    · exact .inr ⟨b, u, rfl, by simpa using hb⟩

theorem lineOnly_of_atEnd (h : AtEnd t) : lineOnly t = [newline] := by
  cases t with
  | nil => rfl
  | cons b u =>
    have hb : isLineEnd b = true := h b rfl
    simp [lineOnly, line, hb]

theorem line_cons {b : Byte} (u : Text) (hb : isLineEnd b = false) :
    line (b :: u) = b :: line u := by simp [line, hb]

theorem lineOnly_cons {b : Byte} (u : Text) (hb : isLineEnd b = false) :
    lineOnly (b :: u) = b :: lineOnly u := by
  rw [lineOnly, line_cons u hb, lineOnly, List.cons_append]

/-- Where any byte of the line is left, the place is not at its end. -/
theorem not_atEnd_of_line (h : line t ≠ []) : ¬AtEnd t := by
  intro hend
  cases t with
  | nil => exact h rfl
  | cons b u => exact h (by simp [line, hend b rfl])

/-- Within the line, as much of it is left as was not passed. -/
theorem le_length_line_drop {i n : Nat} (h : i + n ≤ (line t).length) :
    n ≤ (line (t.drop i)).length := by
  induction i generalizing t with
  | zero => simpa using h
  | succ i ih =>
    obtain ⟨b, u, rfl, hb⟩ := (atEnd_cases t).resolve_left (not_atEnd_of_line fun hnil => by
      rw [hnil, List.length_nil] at h
      omega)
    rw [line_cons u hb, List.length_cons] at h
    exact ih (by omega)

/-- What is at the end of a line reads as one of three bytes. -/
theorem AtEnd.getD_zero (h : AtEnd t) :
    t.getD 0 0 = 0 ∨ t.getD 0 0 = carriageReturn ∨ t.getD 0 0 = newline := by
  cases t with
  | nil => exact .inl rfl
  | cons b u => exact .inr (eq_of_isLineEnd (h b rfl))

theorem AtEnd.blind {α : Type} {f : Byte → α} (h : AtEnd t) (hf : Blind f) :
    f (t.getD 0 0) = f newline := by
  rcases h.getD_zero with e | e | e <;> rw [e]
  · exact hf.zero
  · exact hf.carriageReturn

theorem not_atEnd (h : (t.getD 0 0).Inner) : ¬AtEnd t := fun hend => by
  rcases hend.getD_zero with e | e | e <;> rw [e] at h
  · exact h.1 rfl
  · exact h.2.1 rfl
  · exact h.2.2 rfl

theorem blind_lineOnly {α : Type} {f : Byte → α} (hf : Blind f) (t : Text) :
    f ((lineOnly t).getD 0 0) = f (t.getD 0 0) := by
  rcases atEnd_cases t with h | ⟨b, u, rfl, hb⟩
  · rw [lineOnly_of_atEnd h, h.blind hf]
    rfl
  · rw [lineOnly_cons u hb]
    rfl

theorem firstVisible_lineOnly (t : Text) :
    Cursor.firstVisible (lineOnly t) = Cursor.firstVisible t := by
  have hnewline : isBlank newline = false := rfl
  have hend : isLineEnd newline = true := rfl
  induction t with
  | nil => simp [lineOnly, line, Cursor.firstVisible, hnewline, hend]
  | cons b u ih =>
    by_cases hb : isLineEnd b = true
    · have hblank : isBlank b = false := by
        rcases eq_of_isLineEnd hb with rfl | rfl <;> rfl
      simp [lineOnly, line, Cursor.firstVisible, hb, hblank, hnewline, hend]
    · rw [lineOnly_cons u (by simpa using hb)]
      by_cases hblank : isBlank b = true
      · simpa [Cursor.firstVisible, hblank] using ih
      · simp [Cursor.firstVisible, hblank]

/-- A run of equal bytes within a line is within it. -/
theorem takeWhile_lineOnly {kind : Byte → Bool} (hk : ∀ b, isLineEnd b = true → kind b = false)
    (t : Text) : (lineOnly t).takeWhile kind = t.takeWhile kind := by
  induction t with
  | nil => simp [lineOnly, line, hk newline rfl]
  | cons b u ih =>
    by_cases hb : isLineEnd b = true
    · simp [lineOnly, line, hb, hk b hb, hk newline rfl]
    · rw [lineOnly_cons u (by simpa using hb), List.takeWhile_cons, List.takeWhile_cons, ih]

theorem length_takeWhile_le {kind : Byte → Bool} (hk : ∀ b, isLineEnd b = true → kind b = false)
    (t : Text) : (t.takeWhile kind).length ≤ (line t).length := by
  induction t with
  | nil => exact Nat.le_refl 0
  | cons b u ih =>
    by_cases hkind : kind b = true
    · have hb : isLineEnd b = false := by
        cases hb : isLineEnd b with
        | false => rfl
        | true => rw [hk b hb] at hkind; cases hkind
      rw [List.takeWhile_cons_of_pos hkind, line_cons u hb, List.length_cons, List.length_cons]
      omega
    · rw [List.takeWhile_cons_of_neg hkind]
      exact Nat.zero_le _

end Text

/-! ### Cursors -/

variable {σ ζ : Type}

namespace Cursor

/-- The place is at the end of its line. -/
def AtEnd (c : Cursor σ) : Prop := Text.AtEnd c.ahead

/-- The cursor with nothing ahead but the line it is on, ended by a newline. -/
def lineOnly (c : Cursor σ) : Cursor σ := { c with ahead := Text.lineOnly c.ahead }

variable {c d : Cursor σ}

@[simp] theorem state_lineOnly : c.lineOnly.state = c.state := rfl
@[simp] theorem trail_lineOnly : c.lineOnly.trail = c.trail := rfl
@[simp] theorem behind_lineOnly : c.lineOnly.behind = c.behind := rfl
@[simp] theorem visible_lineOnly : c.lineOnly.visible = c.visible := rfl
@[simp] theorem atLineStart_lineOnly : c.lineOnly.atLineStart = c.atLineStart := rfl
@[simp] theorem currentWord_lineOnly : c.lineOnly.currentWord = c.currentWord := rfl

theorem lineOnly_switch (s : σ) : (c.switch s).lineOnly = c.lineOnly.switch s := rfl

/-! ### The byte at the place -/

theorem not_atEnd (h : c.byte.Inner) : ¬c.AtEnd := Text.not_atEnd h

theorem not_atEnd_of_eq {b : Byte} (h : c.byte = b) (hb : b.Inner) : ¬c.AtEnd :=
  not_atEnd (h ▸ hb)

theorem not_atEnd_of_kind {kind : Byte → Bool} (hk : Inline kind) (h : kind c.byte = true) :
    ¬c.AtEnd := not_atEnd (hk.inner h)

/-- At the end of a line stands none of the bytes that rules look for. -/
theorem AtEnd.byte_ne {b : Byte} (h : c.AtEnd) (hb : b.Inner) : c.byte ≠ b :=
  fun e => not_atEnd_of_eq e hb h

/-- Before the end of the text, the end of a line is a byte that ends it. -/
theorem AtEnd.isLineEnd (h : c.AtEnd) (hne : c.ahead ≠ []) : isLineEnd c.byte = true := by
  obtain ⟨b, t, ha⟩ := List.exists_cons_of_ne_nil hne
  have hb := h b (by rw [ha]; rfl)
  simpa [byte, peek, ha] using hb

theorem AtEnd.lineOnly (h : c.AtEnd) : c.lineOnly.AtEnd := by
  intro b hb
  rw [Cursor.lineOnly, Text.lineOnly_of_atEnd h] at hb
  obtain rfl := Option.some.inj hb
  rfl

theorem AtEnd.nextVisible (h : c.AtEnd) : c.nextVisible = 0 := by
  rw [Cursor.nextVisible, ← Text.firstVisible_lineOnly, Text.lineOnly_of_atEnd h]
  rfl

theorem blind_byte {α : Type} {f : Byte → α} (hf : Blind f) (c : Cursor σ) :
    f c.lineOnly.byte = f c.byte := Text.blind_lineOnly hf c.ahead

/-- At the end of a line stands no byte of a kind that stands within lines. -/
theorem AtEnd.kind {kind : Byte → Bool} (h : c.AtEnd) (hk : Inline kind) : kind c.byte = false := by
  cases he : kind c.byte with
  | false => rfl
  | true => exact absurd h (not_atEnd_of_kind hk he)

theorem byte_lineOnly_eq {b : Byte} (hb : b.Inner) : c.lineOnly.byte = b ↔ c.byte = b :=
  iff_of_eq (blind_byte (blind_eq hb) c)

theorem ahead_of_not_atEnd (h : ¬c.AtEnd) :
    ∃ b t, c.ahead = b :: t ∧ isLineEnd b = false ∧ c.lineOnly.ahead = b :: Text.lineOnly t := by
  obtain ⟨b, t, ha, hb⟩ := (Text.atEnd_cases c.ahead).resolve_left h
  exact ⟨b, t, ha, hb, by rw [lineOnly, ha]; exact Text.lineOnly_cons t hb⟩

theorem more_of_not_atEnd (h : ¬c.AtEnd) : c.more = true := by
  obtain ⟨b, t, ha, -⟩ := ahead_of_not_atEnd h
  simp [more, ha]

/-- Within the line the byte is the same. -/
theorem byte_lineOnly (h : ¬c.AtEnd) : c.lineOnly.byte = c.byte := by
  obtain ⟨b, t, ha, -, ha'⟩ := ahead_of_not_atEnd h
  simp [byte, peek, ha, ha']

theorem nextVisible_lineOnly : c.lineOnly.nextVisible = c.nextVisible :=
  Text.firstVisible_lineOnly c.ahead

/-! ### Going on -/

variable [Palette σ]

theorem forward_lineOnly (h : ¬c.AtEnd) : c.lineOnly.forward = c.forward.lineOnly := by
  obtain ⟨b, t, ha, -, ha'⟩ := ahead_of_not_atEnd h
  rw [forward_cons ha', forward_cons ha]
  rfl

theorem forwardSwitch_lineOnly (h : ¬c.AtEnd) (s : σ) :
    c.lineOnly.forwardSwitch s = (c.forwardSwitch s).lineOnly := by
  rw [forwardSwitch, forward_lineOnly h]
  rfl

theorem blind_next {α : Type} {f : Byte → α} (hf : Blind f) (h : ¬c.AtEnd) :
    f c.lineOnly.next = f c.next := by
  rw [← byte_forward, forward_lineOnly h, blind_byte hf, byte_forward]

theorem next_lineOnly_eq {b : Byte} (hb : b.Inner) (h : ¬c.AtEnd) :
    c.lineOnly.next = b ↔ c.next = b := iff_of_eq (blind_next (blind_eq hb) h)

omit [Palette σ] in
theorem not_atEnd_of_line {n : Nat} (h : n < (Text.line c.ahead).length) : ¬c.AtEnd :=
  Text.not_atEnd_of_line fun hnil => by simp [hnil] at h

/-- Bytes of the line may be passed. -/
theorem forwardN_lineOnly {n : Nat} (h : n ≤ (Text.line c.ahead).length) :
    c.lineOnly.forwardN n = (c.forwardN n).lineOnly := by
  induction n generalizing c with
  | zero => rfl
  | succ n ih =>
    have hnot : ¬c.AtEnd := not_atEnd_of_line h
    obtain ⟨b, t, ha, hb, ha'⟩ := ahead_of_not_atEnd hnot
    have hle : n ≤ (Text.line c.forward.ahead).length := by
      rw [ahead_forward, ha, List.tail_cons]
      rw [ha, Text.line_cons t hb] at h
      exact Nat.le_of_succ_le_succ h
    have hmore : c.lineOnly.more = true := by simp [more, ha']
    unfold forwardN
    rw [if_pos hmore, if_pos (more_of_not_atEnd hnot), forward_lineOnly hnot, ih hle]

/-- Two bytes of the line may be passed. -/
theorem forwardN_two_lineOnly (h : ¬c.AtEnd) (h' : ¬c.forward.AtEnd) :
    c.lineOnly.forwardN 2 = (c.forwardN 2).lineOnly := by
  obtain ⟨b, t, ha, hb, -⟩ := ahead_of_not_atEnd h
  obtain ⟨b', t', ha', hb', -⟩ := ahead_of_not_atEnd h'
  refine forwardN_lineOnly ?_
  rw [ahead_forward, ha, List.tail_cons] at ha'
  rw [ha, Text.line_cons t hb, ha', Text.line_cons t' hb']
  simp

theorem toLastOfRun_lineOnly (h : ¬c.AtEnd) :
    c.lineOnly.toLastOfRun = c.toLastOfRun.lineOnly := by
  obtain ⟨b, t, ha, hb, ha'⟩ := ahead_of_not_atEnd h
  have hrun : ∀ a, isLineEnd a = true → (a == c.byte) = false := by
    intro a hend
    rw [beq_eq_false_iff_ne]
    rintro rfl
    simp [byte, peek, ha, hb] at hend
  have hline : (t.takeWhile (· == c.byte)).length ≤ (Text.line t).length :=
    Text.length_takeWhile_le hrun t
  unfold toLastOfRun
  rw [byte_lineOnly h, ha', ha, List.tail_cons, List.tail_cons, Text.takeWhile_lineOnly hrun]
  refine forwardN_lineOnly ?_
  rw [ha, Text.line_cons t hb, List.length_cons]
  omega

/-! ### Questions about two bytes -/

theorem reads_lineOnly {a b : Byte} (ha : a.Inner) (hb : b.Inner) :
    c.lineOnly.reads a b = c.reads a b := by
  rw [Bool.eq_iff_iff, reads_iff, reads_iff, byte_lineOnly_eq ha]
  exact and_congr_right fun h => next_lineOnly_eq hb (not_atEnd_of_eq h ha)

theorem readsNext_lineOnly {a b : Byte} (ha : a.Inner) (hb : b.Inner) (h : ¬c.AtEnd) :
    c.lineOnly.readsNext a b = c.readsNext a b := by
  have hreads : ∀ d : Cursor σ, d.readsNext a b = d.forward.reads a b := by
    intro d
    rw [readsNext, reads, byte_forward, ← peek_forward]
    rfl
  rw [hreads, hreads, forward_lineOnly h, reads_lineOnly ha hb]

omit [Palette σ] in
/-- A number does not go on over the end of a line. -/
theorem AtEnd.continuesNumber (h : c.AtEnd) (before next : Byte) :
    continuesNumber before c.byte next = false := by
  rcases Text.AtEnd.getD_zero h with e | e | e <;> rw [show c.byte = _ from e] <;>
    simp [Byte.continuesNumber, isNameByte, isNameStart, isAlpha, isLower, isUpper, isDigit]

theorem continuesNumber_lineOnly :
    continuesNumber c.lineOnly.behind c.lineOnly.byte c.lineOnly.next =
      continuesNumber c.behind c.byte c.next := by
  by_cases h : c.AtEnd
  · rw [h.continuesNumber, h.lineOnly.continuesNumber]
  · rw [behind_lineOnly, byte_lineOnly h]
    exact blind_next (f := fun b => Byte.continuesNumber c.behind c.byte b)
      ⟨by simp [Byte.continuesNumber, isDigit], by simp [Byte.continuesNumber, isDigit]⟩ h

end Cursor

/-! ### Answers -/

namespace Flow

/-- An answer, of which only the line at the place is shown. -/
def lineOnly : Flow σ ζ → Flow σ ζ
  | pass c z => pass c.lineOnly z
  | again c z => again c.lineOnly z

@[simp] theorem lineOnly_pass (c : Cursor σ) (z : ζ) :
    (pass c z).lineOnly = pass c.lineOnly z := rfl

@[simp] theorem lineOnly_again (c : Cursor σ) (z : ζ) :
    (again c z).lineOnly = again c.lineOnly z := rfl

/-- Of one rule after another, each is as blind as what it answers. -/
theorem ite_lineOnly {p : Prop} [Decidable p] {f f' e e' : Flow σ ζ} (h : p → e = f.lineOnly)
    (h' : ¬p → e' = f'.lineOnly) : (if p then e else e') = (if p then f else f').lineOnly := by
  split
  case isTrue hp => exact h hp
  case isFalse hp => exact h' hp

/-- Where an answer lets go of the end of a line, what is left is calm. -/
def Rests (calm : σ → Trail σ → ζ → Prop) : Flow σ ζ → Prop
  | pass d y => d.AtEnd → calm d.state d.trail y
  | again _ _ => True

/-- Within the line nothing is to be shown. -/
theorem Rests.inner {calm : σ → Trail σ → ζ → Prop} {d : Cursor σ} {y : ζ} (h : ¬d.AtEnd) :
    (pass d y).Rests calm := fun hend => absurd hend h

end Flow

variable [Palette σ] [DecidableEq σ]

/-- The rules of the grammar cannot tell how a line ends, and at its end they come to rest: what is
calm there they leave as it is, and they sum up the line by no more than the state and what is
remembered of it. -/
structure Grammar.EndsAlike (g : Grammar σ ζ) (calm : σ → Trail σ → ζ → Prop) : Prop where
  begin : ∀ (c : Cursor σ) b, g.begin c.lineOnly b = ((g.begin c b).1.lineOnly, (g.begin c b).2)
  leave : ∀ (c : Cursor σ) z, g.leave c.lineOnly z = (g.leave c z).lineOnly
  dispatch : ∀ (c : Cursor σ) z, c.ahead ≠ [] → g.dispatch c.lineOnly z = (g.dispatch c z).lineOnly
  endLine : ∀ {c d : Cursor σ} z, c.state = d.state → c.trail = d.trail →
    g.endLine c z = g.endLine d z
  idle : ∀ (c : Cursor σ) z, c.AtEnd → c.ahead ≠ [] → g.enter c z = .pass c z
  rests : ∀ (c : Cursor σ) z, c.ahead ≠ [] → (g.dispatch c z).Rests calm
  calm : ∀ (c : Cursor σ) z, calm c.state c.trail z → c.AtEnd → c.atLineStart = false →
    g.leave c z = .pass c z

namespace Grammar

variable {g : Grammar σ ζ} {calm : σ → Trail σ → ζ → Prop} {c : Cursor σ} {z : ζ}

/-- What is not shown to `enter` is not shown to both rules together. -/
theorem dispatch_lineOnly
    (hleave : g.leave c.lineOnly z = (g.leave c z).lineOnly)
    (henter : ∀ d y, g.leave c z = .pass d y → d.state = Palette.plain →
      g.enter d.lineOnly y = (g.enter d y).lineOnly) :
    g.dispatch c.lineOnly z = (g.dispatch c z).lineOnly := by
  unfold dispatch
  rw [hleave]
  cases hrule : g.leave c z with
  | again d y => rfl
  | pass d y =>
    change (if d.state = Palette.plain then g.enter d.lineOnly y else .pass d.lineOnly y) =
      (if d.state = Palette.plain then g.enter d y else .pass d y).lineOnly
    by_cases hplain : d.state = Palette.plain
    · rw [if_pos hplain, if_pos hplain, henter d y hrule hplain]
    · rw [if_neg hplain, if_neg hplain, Flow.lineOnly_pass]

theorem rests_dispatch (hleave : (g.leave c z).Rests calm)
    (henter : ∀ d y, d.state = Palette.plain → (g.enter d y).Rests calm) :
    (g.dispatch c z).Rests calm := by
  unfold dispatch
  cases hrule : g.leave c z with
  | again d y => trivial
  | pass d y =>
    rw [hrule] at hleave
    simp only
    split
    · exact henter d y ‹_›
    · exact hleave

end Grammar

/-! ### Escapes -/

namespace Escape

variable {σ ζ : Type} [Palette σ] {c : Cursor σ} {z : ζ} {keep : Escape σ → ζ}
  {calm : σ → Trail σ → ζ → Prop}

theorem blind_stop : Blind fun b => isLineEnd b = true ∨ b = 0 :=
  ⟨by simp [isLineEnd], by simp [isLineEnd]⟩

omit [Palette σ] in
theorem not_atEnd_of_not_stop {d : Cursor σ} (h : ¬(isLineEnd d.byte = true ∨ d.byte = 0)) :
    ¬d.AtEnd := by
  refine Cursor.not_atEnd ⟨?_, ?_, ?_⟩ <;> intro e <;> rw [e] at h
  · exact h (.inr rfl)
  · exact h (.inl rfl)
  · exact h (.inl rfl)

theorem enter_lineOnly (e : EscapeSyntax) (s : σ) (h : ¬c.AtEnd) :
    enter e s c.lineOnly z keep = (enter e s c z keep).lineOnly := by
  have hlength : e.lengthFor c.lineOnly.next = e.lengthFor c.next :=
    Cursor.blind_next (f := e.lengthFor)
      ⟨by simp [EscapeSyntax.lengthFor], by simp [EscapeSyntax.lengthFor]⟩ h
  have hstop := iff_of_eq (Cursor.blind_next blind_stop h)
  have hgo : (c.lineOnly.switch s).forward = (c.switch s).forward.lineOnly :=
    Cursor.forward_lineOnly (c := c.switch s) h
  unfold enter start
  by_cases hnext : isLineEnd c.next = true ∨ c.next = 0
  · rw [if_pos hnext, if_pos (hstop.2 hnext)]
    rfl
  · rw [if_neg hnext, if_neg (fun h => hnext (hstop.1 h))]
    simp only [hgo, hlength, Cursor.state_lineOnly,
      Cursor.reads_lineOnly (show lowerU.Inner by decide) (show lbrace.Inner by decide)]
    split
    case isTrue hbrace =>
      have hbyte := (Cursor.reads_iff.1 hbrace.2).1
      rw [Cursor.forward_lineOnly (Cursor.not_atEnd_of_eq hbyte (by decide))]
      rfl
    case isFalse => rfl

theorem leave_lineOnly (e : Escape σ) :
    leave e c.lineOnly keep = (leave e c keep).lineOnly := by
  have hended : (e.count).ended c.lineOnly.byte = (e.count).ended c.byte :=
    Cursor.blind_byte (f := e.count.ended)
      ⟨by simp [ended, isHexDigit, isDigit], by simp [ended, isHexDigit, isDigit]⟩ c
  unfold leave
  simp only [hended, Cursor.byte_lineOnly_eq (show rbrace.Inner by decide)]
  split
  case isFalse => rfl
  case isTrue =>
    split
    case isTrue hbrace =>
      rw [Cursor.forward_lineOnly (Cursor.not_atEnd_of_eq hbrace.2 (by decide))]
      rfl
    case isFalse => rfl

/-- An escape begins within its line. -/
theorem enter_rests (e : EscapeSyntax) (s : σ) (h : ¬c.AtEnd) :
    (enter e s c z keep).Rests calm := by
  unfold enter
  split
  case isTrue => exact .inner h
  case isFalse hstop =>
    simp only
    have hnext : ¬(c.switch s).forward.AtEnd := by
      refine not_atEnd_of_not_stop ?_
      rw [Cursor.byte_forward]
      exact hstop
    split
    case isTrue hbrace =>
      refine .inner (Cursor.not_atEnd_of_eq (b := lbrace) ?_ (by decide))
      rw [Cursor.byte_forward]
      exact (Cursor.reads_iff.1 hbrace.2).2
    case isFalse => exact .inner hnext

/-- An escape does not go on over the end of its line. -/
theorem leave_rests (e : Escape σ) : (leave e c keep).Rests calm := by
  unfold leave
  simp only
  split
  case isTrue => trivial
  case isFalse hended =>
    simp only [ended, Bool.or_eq_true, Bool.not_eq_true', not_or, Bool.not_eq_false] at hended
    exact .inner (Cursor.not_atEnd_of_kind inline_isHexDigit hended.2)

end Escape

/-! ### Names -/

/-- Of the byte after a name only this matters, whether it is a point. -/
theorem Occurrence.classify_next {n n' : Occurrence} (hword : n'.word = n.word)
    (hvisible : n'.nextVisible = n.nextVisible) (hbefore : n'.before = n.before)
    (hdot : n'.next = dot ↔ n.next = dot) (sets : WordSets) (announcedBy : Text → Announced)
    (announced : Announced) :
    n'.classify sets announcedBy announced = n.classify sets announcedBy announced := by
  obtain ⟨word, next, visible, before⟩ := n
  obtain ⟨word', next', visible', before'⟩ := n'
  obtain rfl : word' = word := hword
  obtain rfl : visible' = visible := hvisible
  obtain rfl : before' = before := hbefore
  unfold classify announces ofNeighbours known?
  by_cases h : next = dot
  · simp only [if_pos h, if_pos (hdot.2 h)]
  · simp only [if_neg h, if_neg (fun h' => h (hdot.1 h'))]

/-- A name is judged by what stands on its line. -/
theorem Occurrence.classify_lineOnly {σ : Type} (c : Cursor σ) (before : Byte) (sets : WordSets)
    (announcedBy : Text → Announced) (announced : Announced) :
    (endingAt c.lineOnly before).classify sets announcedBy announced =
      (endingAt c before).classify sets announcedBy announced := by
  apply classify_next
  case hword | hbefore => rfl
  case hvisible => exact Cursor.nextVisible_lineOnly
  case hdot => exact Cursor.byte_lineOnly_eq (by decide)

end Highlight
