import Highlight.Proofs.Scan.Through
import Highlight.Scan.Escape

/-!
What a backslash hides. Read from the left, a backslash hides the byte behind it, unless a line ends
there or that byte is zero; a byte of interest counts only if it is not hidden (`Text.unhidden`). A
scan takes the two for an escape, and of the bytes behind them so many digits as may belong to it and
maybe a brace (`Text.escapeRest`), but no other byte: when it is back in the literal it stands where
the reading goes on (`Pass.back_of_enter`).
-/

namespace Highlight

open Byte

/-! ### Reading from the left -/

/-- A byte that an escape may go on over: a digit, or a brace around digits. -/
def Byte.inEscape (b : Byte) : Bool := isHexDigit b || b == lbrace || b == rbrace

namespace Byte

variable {b : Byte}

theorem ne_of_inEscape {x : Byte} (h : b.inEscape = true) (hx : x.inEscape = false) : b ≠ x := by
  rintro rfl
  rw [hx] at h
  cases h

end Byte

namespace Text

/-- A backslash hides the byte `x` behind the byte `b`, if backslashes do that at all. -/
def hidesNext (hides : Bool) (b x : Byte) : Bool :=
  hides && b == backslash && !isLineEnd x && x != 0

/-- Which bytes of a text are of the kind and not hidden. -/
def unhidden (hides : Bool) (kind : Byte → Bool) : Text → List Bool
  | [] => []
  | [b] => [kind b]
  | b :: x :: t =>
    if hidesNext hides b x then kind b :: false :: unhidden hides kind t
    else kind b :: unhidden hides kind (x :: t)

variable {hides : Bool} {kind : Byte → Bool} {b x : Byte} {t w : Text}

theorem unhidden_pair (h : hidesNext hides b x = true) :
    unhidden hides kind (b :: x :: t) = kind b :: false :: unhidden hides kind t := by
  rw [unhidden, if_pos h]

/-- A byte that hides none is read alone. -/
theorem unhidden_cons (h : hidesNext hides b (t.getD 0 0) = false) :
    unhidden hides kind (b :: t) = kind b :: unhidden hides kind t := by
  cases t with
  | nil => rfl
  | cons x t =>
    change hidesNext hides b x = false at h
    rw [unhidden, if_neg (by simp [h])]

theorem hidesNext_of_ne (hides : Bool) (hb : b ≠ backslash) (x : Byte) :
    hidesNext hides b x = false := by
  rw [hidesNext, beq_eq_false_iff_ne.2 hb, Bool.and_false, Bool.false_and, Bool.false_and]

theorem exists_of_hidesNext (h : hidesNext hides b (t.getD 0 0) = true) :
    hides = true ∧ b = backslash ∧ ∃ x u, t = x :: u ∧ hidesNext true backslash x = true := by
  cases t with
  | nil => simp [hidesNext] at h
  | cons x u =>
    obtain ⟨⟨⟨hhides, hb⟩, hend⟩, hzero⟩ : ((hides = true ∧ b = backslash) ∧ isLineEnd x = false) ∧
        x ≠ 0 := by simpa [hidesNext] using h
    exact ⟨hhides, hb, x, u, rfl, by simp [hidesNext, hend, hzero]⟩

/-- So are all bytes of a text without a backslash. -/
theorem unhidden_append (h : ∀ b ∈ w, b ≠ backslash) :
    unhidden hides kind (w ++ t) = w.map kind ++ unhidden hides kind t := by
  induction w with
  | nil => rfl
  | cons b w ih =>
    obtain ⟨hb, hw⟩ := List.forall_mem_cons.1 h
    rw [List.cons_append, unhidden_cons (hidesNext_of_ne hides hb _), ih hw]
    rfl

/-- Digits and braces do not count. -/
theorem unhidden_inEscape (hides : Bool) (hkind : ∀ b : Byte, b.inEscape = true → kind b = false)
    (hw : ∀ b ∈ w, b.inEscape = true) (t : Text) :
    unhidden hides kind (w ++ t) = List.replicate w.length false ++ unhidden hides kind t := by
  have hmap : w.map kind = List.replicate w.length false :=
    List.eq_replicate_iff.2 ⟨List.length_map _, by
      rintro a ha
      obtain ⟨b, hb, rfl⟩ := List.mem_map.1 ha
      exact hkind b (hw b hb)⟩
  rw [unhidden_append fun b hb => ne_of_inEscape (hw b hb) rfl, hmap]

/-- Of the bytes of an escape none counts. -/
theorem unhidden_escape (hx : hidesNext true backslash x = true) (hback : kind backslash = false)
    (hkind : ∀ b : Byte, b.inEscape = true → kind b = false)
    (hw : ∀ b ∈ w, b.inEscape = true) (t : Text) :
    unhidden true kind (backslash :: x :: w ++ t) =
      List.replicate (w.length + 2) false ++ unhidden true kind t := by
  rw [List.cons_append, List.cons_append, unhidden_pair hx, hback, unhidden_inEscape true hkind hw]
  rfl

/-! ### The bytes of an escape -/

/-- How many bytes of the text an escape takes to which `left` bytes may belong, the one before the
text counted: digits, and behind digits in braces the brace that closes them. -/
def escapeRest (braced : Bool) : Nat → Text → Nat
  | _, [] => 0
  | left, b :: t =>
    if left ≤ 1 ∨ isHexDigit b = false then if braced = true ∧ b = rbrace then 1 else 0
    else escapeRest braced (left - 1) t + 1

/-- These are the digits that come first, not more than may belong to it, and maybe the brace. -/
theorem escapeRest_eq (braced : Bool) (left : Nat) (t : Text) :
    escapeRest braced left t =
      min (left - 1) (t.takeWhile isHexDigit).length +
        if braced = true ∧ t[min (left - 1) (t.takeWhile isHexDigit).length]? = some rbrace then 1
        else 0 := by
  induction t generalizing left with
  | nil => simp [escapeRest]
  | cons b t ih =>
    rw [escapeRest]
    by_cases hended : left ≤ 1 ∨ isHexDigit b = false
    · have hnone : min (left - 1) ((b :: t).takeWhile isHexDigit).length = 0 := by
        rcases hended with hleft | hhex
        · rw [Nat.sub_eq_zero_of_le hleft, Nat.zero_min]
        · rw [List.takeWhile_cons_of_neg (by simp [hhex]), List.length_nil, Nat.min_zero]
      simp only [if_pos hended, hnone, Nat.zero_add, List.getElem?_cons_zero, Option.some.injEq]
    · obtain ⟨hleft, hhex⟩ := not_or.1 hended
      rw [Bool.not_eq_false] at hhex
      have hone : min (left - 1) ((b :: t).takeWhile isHexDigit).length =
          min (left - 1 - 1) (t.takeWhile isHexDigit).length + 1 := by
        rw [List.takeWhile_cons_of_pos hhex, List.length_cons]
        omega
      rw [if_neg hended, ih, hone, List.getElem?_cons_succ]
      omega

theorem escapeRest_le (braced : Bool) (left : Nat) (t : Text) :
    escapeRest braced left t ≤ t.length := by
  induction t generalizing left with
  | nil => exact Nat.le_refl 0
  | cons b t ih =>
    have hrest := ih (left - 1)
    rw [escapeRest, List.length_cons]
    split_ifs <;> omega

theorem inEscape_of_mem_rest {braced : Bool} {left : Nat} {t : Text} :
    ∀ b ∈ t.take (escapeRest braced left t), b.inEscape = true := by
  induction t generalizing left with
  | nil => simp
  | cons a t ih =>
    rw [escapeRest]
    split_ifs with hended hbrace
    · simp [hbrace.2, inEscape]
    · simp
    · have hhex : isHexDigit a = true := by simpa using (not_or.1 hended).2
      rw [List.take_succ_cons]
      exact List.forall_mem_cons.2 ⟨by simp [inEscape, hhex], ih⟩

end Text

namespace EscapeSyntax

/-- How many bytes of the text `t` belong to an escape that `x` introduces before it. -/
def restBehind (e : EscapeSyntax) (x : Byte) (t : Text) : Nat :=
  if e.bracedUnicode = true ∧ x = lowerU ∧ t.head? = some lbrace then
    Text.escapeRest true 7 t.tail + 1
  else Text.escapeRest false (e.lengthFor x) t

theorem inEscape_of_mem_restBehind (e : EscapeSyntax) {x : Byte} {t : Text} :
    ∀ b ∈ t.take (e.restBehind x t), b.inEscape = true := by
  unfold restBehind
  split_ifs with hbrace
  · obtain ⟨u, rfl⟩ := List.head?_eq_some_iff.1 hbrace.2.2
    rw [List.take_succ_cons]
    exact List.forall_mem_cons.2 ⟨rfl, Text.inEscape_of_mem_rest⟩
  · exact Text.inEscape_of_mem_rest

end EscapeSyntax

/-! ### Escapes of a scan -/

variable {σ ζ : Type}

/-- How a language keeps escapes: in which category, and where the one in progress. -/
structure EscapeKeeping (σ ζ : Type) where
  category : σ
  get : ζ → Escape σ
  put : Escape σ → ζ → ζ

variable [Palette σ]

/-- The grammar keeps its escapes like that. -/
structure EscapeKeeping.Serves (k : EscapeKeeping σ ζ) (g : Grammar σ ζ) : Prop where
  leave : ∀ c z, c.state = k.category → g.leave c z = (k.get z).leave c fun e => k.put e z
  get_put : ∀ e z, k.get (k.put e z) = e
  ne_plain : k.category ≠ Palette.plain

/-- Where the text ends in an escape, the literal is what is left. -/
theorem EscapeKeeping.Serves.leave_at_end {k : EscapeKeeping σ ζ} {g : Grammar σ ζ}
    (hk : k.Serves g) {c : Cursor σ} {z : ζ} (hnil : c.ahead = []) (hstate : c.state = k.category) :
    g.leave c z = .again (c.switch (k.get z).outer) (k.put (k.get z).count z) := by
  have hbyte := Cursor.byte_nil hnil
  have hended : (k.get z).count.ended c.byte = true := by
    rw [hbyte, Escape.ended, show isHexDigit 0 = false by decide, Bool.not_false, Bool.or_true]
  have hbrace : ¬((k.get z).count.braced = true ∧ c.byte = rbrace) := fun h =>
    absurd (hbyte.symm.trans h.2) (by decide)
  rw [hk.leave c z hstate, Escape.leave]
  refine (if_pos hended).trans ?_
  rw [if_neg hbrace]
  rfl

/-- A backslash that hides nothing begins no escape. -/
theorem Escape.enter_of_hidesNext (e : EscapeSyntax) {c : Cursor σ} (s : σ) (z : ζ)
    (keep : Escape σ → ζ) (h : Text.hidesNext true backslash c.next = false) :
    Escape.enter e s c z keep = .pass c z := by
  have hstop : isLineEnd c.next = true ∨ c.next = 0 := by
    simp only [Text.hidesNext, beq_self_eq_true, Bool.true_and, Bool.and_eq_false_iff] at h
    simpa using h
  rw [Escape.enter, if_pos hstop]

namespace Pass

variable [DecidableEq σ] {g : Grammar σ ζ} {k : EscapeKeeping σ ζ} {o : Pass σ ζ} {text w t : Text}
  {start stop first i : Nat} {kind : σ → Prop} {s : σ} {c d : Cursor σ} {y z : ζ} {b x : Byte}

/-- From the place `c` the scan has gone over the bytes `w` and is back in the literal `s`, within
the line; or the text ends in an escape there. -/
structure Back (g : Grammar σ ζ) (k : EscapeKeeping σ ζ) (o : Pass σ ζ) (kind : σ → Prop) (i : Nat)
    (s : σ) (c : Cursor σ) (w : Text) (d : Cursor σ) (y : ζ) : Prop where
  comes : o.ComesTo g d y
  all : d.AllFrom kind i
  ahead : c.ahead = w ++ d.ahead
  pos : d.pos = c.pos + w.length
  inside : d.atLineStart = false
  state : d.state = s ∨ d.state = k.category ∧ (k.get y).outer = s ∧ d.ahead = []

/-- The byte that was passed before belongs to the way as well. -/
theorem Back.forward (h : Back g k o kind i s c.forward w d y) (ha : c.ahead = b :: t) :
    Back g k o kind i s c (b :: w) d y := by
  refine ⟨h.comes, h.all, ?_, ?_, h.inside, h.state⟩
  · rw [ha, ← Cursor.ahead_forward_cons ha, h.ahead, List.cons_append]
  · rw [h.pos, Cursor.pos_forward_cons ha, List.length_cons]
    omega

/-- Where the way begins does not depend on the category of the run in progress. -/
theorem Back.of_switch {s' : σ} (h : Back g k o kind i s (c.switch s') w d y) :
    Back g k o kind i s c w d y :=
  ⟨h.comes, h.all, h.ahead, h.pos, h.inside, h.state⟩

variable (hp : o.Proper g text start stop first) (hk : k.Serves g)

include hp hk

/-- A byte that ends an escape: the brace that closes the digits is passed, any other byte is left
to the literal. -/
theorem back_of_ended (he : kind k.category) (h : o.ComesTo g c z) (hall : c.AllFrom kind i)
    (hstate : c.state = k.category) (hinside : c.atLineStart = false) (ha : c.ahead = b :: t)
    (hended : (k.get z).count.ended b = true) :
    ∃ d y, Back g k o kind i (k.get z).outer c
        (if (k.get z).braced = true ∧ b = rbrace then [b] else []) d y ∧ d.word = [] := by
  have hrule := hk.leave c z hstate
  simp only [Escape.leave, Cursor.byte_cons ha, if_pos hended] at hrule
  have hcomes := h.again hp (Cursor.more_cons ha) (Grammar.dispatch_of_again hrule)
  by_cases hbrace : (k.get z).braced = true ∧ b = rbrace
  · rw [if_pos (show (k.get z).count.braced = true ∧ b = rbrace from hbrace)] at hcomes
    rw [if_pos hbrace]
    have hnl : b ≠ newline := by
      rw [hbrace.2]
      decide
    have hback : Back g k o kind i (k.get z).outer c.forward []
        (c.forward.switch (k.get z).outer) (k.put (k.get z).count z) :=
      ⟨hcomes, (hall.forward (hstate ▸ he)).switch _, rfl, rfl,
        Cursor.atLineStart_forward_cons ha hnl, .inl rfl⟩
    exact ⟨_, _, hback.forward ha, rfl⟩
  · rw [if_neg (show ¬((k.get z).count.braced = true ∧ b = rbrace) from hbrace)] at hcomes
    rw [if_neg hbrace]
    exact ⟨_, _, ⟨hcomes, hall.switch _, rfl, rfl, hinside, .inl rfl⟩, rfl⟩

/-- **An escape takes its digits and no more** before the scan is back. -/
theorem back_of_escape (he : kind k.category) (h : o.ComesTo g c z) (hall : c.AllFrom kind i)
    (hstate : c.state = k.category) (hinside : c.atLineStart = false) :
    ∃ d y, Back g k o kind i (k.get z).outer c
        (c.ahead.take (Text.escapeRest (k.get z).braced (k.get z).left c.ahead)) d y ∧
      (d.word = [] ∨ d.ahead = [] ∧ d.state = k.category) := by
  induction ha : c.ahead generalizing c z with
  | nil =>
    rw [List.take_nil]
    exact ⟨c, z, ⟨h, hall, rfl, rfl, hinside, .inr ⟨hstate, rfl, ha⟩⟩, .inr ⟨ha, hstate⟩⟩
  | cons b t ih =>
    have hended_iff : (k.get z).count.ended b = true ↔
        (k.get z).left ≤ 1 ∨ isHexDigit b = false := by
      simp only [Escape.ended, Escape.count, Bool.or_eq_true, beq_iff_eq, Bool.not_eq_true',
        Nat.sub_eq_zero_iff_le]
    rw [Text.escapeRest]
    by_cases hended : (k.get z).count.ended b = true
    · rw [if_pos (hended_iff.1 hended)]
      obtain ⟨d, y, hback, hword⟩ := back_of_ended hp hk he h hall hstate hinside ha hended
      refine ⟨d, y, ?_, .inl hword⟩
      rwa [apply_ite (List.take · (b :: t)), List.take_succ_cons, List.take_zero, List.take_zero]
    · -- a digit
      rw [if_neg fun hrest => hended (hended_iff.2 hrest)]
      have hnl : b ≠ newline := by
        rintro rfl
        exact hended (hended_iff.2 (.inr rfl))
      have hrule := hk.leave c z hstate
      simp only [Escape.leave, Cursor.byte_cons ha, if_neg hended] at hrule
      have hcomes := h.pass (Cursor.more_cons ha)
        (Grammar.dispatch_of_pass hrule (by rw [hstate]; exact hk.ne_plain))
      rw [Grammar.goOn_of_ne g (Cursor.byte_cons ha ▸ hnl)] at hcomes
      obtain ⟨d, y, hback, hword⟩ := ih hcomes (hall.forward (hstate ▸ he))
        (by rw [Cursor.state_forward, hstate]) (Cursor.atLineStart_forward_cons ha hnl)
        (Cursor.ahead_forward_cons ha)
      rw [hk.get_put] at hback
      exact ⟨d, y, hback.forward ha, hword⟩

/-- Where the rules let go of a byte in an escape, the scan is back behind it and what is left of the
escape. -/
theorem back_of_pass (he : kind k.category) (h : o.ComesTo g c z) (hmore : c.more = true)
    (hrule : g.leave c z = .pass d y) (hstate : d.state = k.category) (hall : d.AllFrom kind i)
    (ha : d.ahead = b :: t) (hb : b ≠ newline) :
    ∃ e v, Back g k o kind i (k.get y).outer d
        (b :: t.take (Text.escapeRest (k.get y).braced (k.get y).left t)) e v ∧
      (e.word = [] ∨ e.ahead = [] ∧ e.state = k.category) := by
  have hcomes := h.pass hmore (Grammar.dispatch_of_pass hrule (by rw [hstate]; exact hk.ne_plain))
  rw [Grammar.goOn_of_ne g (Cursor.byte_cons ha ▸ hb)] at hcomes
  obtain ⟨e, v, hback, hword⟩ := back_of_escape hp hk he hcomes (hall.forward (hstate ▸ he))
    (by rw [Cursor.state_forward, hstate]) (Cursor.atLineStart_forward_cons ha hb)
  rw [Cursor.ahead_forward_cons ha] at hback
  exact ⟨e, v, hback.forward ha, hword⟩

/-- **A backslash that hides a byte.** Behind both, and what belongs to them of the bytes that
follow, the scan is back in the literal. -/
theorem back_of_enter (e : EscapeSyntax) (he : kind k.category) (h : o.ComesTo g c z)
    (hall : c.AllFrom kind i) (ha : c.ahead = backslash :: x :: t)
    (hx : Text.hidesNext true backslash x = true)
    (hrule : g.leave c z = Escape.enter e k.category c z fun e => k.put e z) :
    ∃ d y, Back g k o kind i c.state c (backslash :: x :: t.take (e.restBehind x t)) d y ∧
      (d.word = [] ∨ d.ahead = [] ∧ d.state = k.category) := by
  have hmore : c.more = true := Cursor.more_cons ha
  have hnext : c.next = x := Cursor.next_cons ha
  have hstop : ¬(isLineEnd x = true ∨ x = 0) := by simpa [Text.hidesNext] using hx
  have hnl : x ≠ newline := by
    rintro rfl
    exact hstop (.inl rfl)
  have hahead := Cursor.ahead_forward_cons (c := c.switch k.category) ha
  have hall' : (c.switch k.category).forward.AllFrom kind i := (hall.switch _).forward he
  have hstate : (c.switch k.category).forward.state = k.category := Cursor.state_forward
  unfold Escape.enter at hrule
  rw [hnext, if_neg hstop] at hrule
  have hreads : (c.switch k.category).forward.reads lowerU lbrace = true ↔
      x = lowerU ∧ t.head? = some lbrace := by
    rw [Cursor.reads_iff, Cursor.byte_cons hahead, Cursor.next_cons hahead]
    cases t <;> simp
  by_cases hbrace : e.bracedUnicode = true ∧ x = lowerU ∧ t.head? = some lbrace
  · obtain ⟨u, rfl⟩ := List.head?_eq_some_iff.1 hbrace.2.2
    rw [if_pos ⟨hbrace.1, hreads.2 hbrace.2⟩] at hrule
    obtain ⟨d, y, hback, hword⟩ := back_of_pass hp hk he h hmore hrule
      (by rw [Cursor.state_forward, hstate]) (hall'.forward (by rwa [hstate]))
      (Cursor.ahead_forward_cons hahead) (by decide)
    rw [hk.get_put] at hback
    rw [EscapeSyntax.restBehind, if_pos hbrace, List.take_succ_cons]
    exact ⟨d, y, ((hback.forward hahead).forward ha).of_switch, hword⟩
  · rw [if_neg fun h => hbrace ⟨h.1, hreads.1 h.2⟩] at hrule
    obtain ⟨d, y, hback, hword⟩ := back_of_pass hp hk he h hmore hrule hstate hall' hahead hnl
    rw [hk.get_put] at hback
    rw [EscapeSyntax.restBehind, if_neg hbrace]
    exact ⟨d, y, (hback.forward ha).of_switch, hword⟩

/-- What is an escape where the scan is back from it, is one to the end, also where the text ends in
it. -/
theorem fills_of_back (h : o.ComesTo g d y) (hall : d.AllFrom (· = k.category) i) (hi : start ≤ i)
    (hdone : d.word = [] ∨ d.ahead = [] ∧ d.state = k.category) (last : Bool) :
    (o.completed g last).Fills (· = k.category) i d.pos := by
  rcases hdone with hword | ⟨hnil, hstate⟩
  · exact h.fills hp hword hall hi last
  · rw [(h.stands hp).1.pos_of_ahead_nil hp.le hnil]
    refine h.fills_end hp hnil
      (fun c _ => c.AllFrom (· = k.category) i ∧ (c.word = [] ∨ c.state = k.category))
      ⟨hall, .inr hstate⟩ (fun c z hnil hc => ?_) (fun _ _ hc => hc.1) hi last
    by_cases hescape : c.state = k.category
    · rw [hk.leave_at_end hnil hescape]
      exact ⟨hc.1.switch _, .inl rfl⟩
    · obtain ⟨hall, hword⟩ := hc
      have hword := hword.resolve_right hescape
      obtain ⟨-, hnone, hclosed, hpos⟩ := (hp.stays.leave c z).still hnil hword
      have hspent : (g.leave c z).cursor.spent = c.spent := by
        simp [Cursor.spent, hnone, hword, hclosed]
      exact ⟨⟨hpos ▸ hall.le, by rw [hspent, hpos]; exact hall.all⟩, .inl hnone⟩

/-- **An escape takes no more than digits and braces** before the scan is back. -/
theorem exists_back_of_pass (he : kind k.category) (h : o.ComesTo g c z) (hmore : c.more = true)
    (hrule : g.leave c z = .pass d y) (hstate : d.state = k.category) (hall : d.AllFrom kind i)
    (ha : d.ahead = b :: t) (hb : b ≠ newline) :
    ∃ w e v, (∀ b ∈ w, b.inEscape = true) ∧
      Back g k o kind i (k.get y).outer d (b :: w) e v := by
  obtain ⟨e, v, hback, -⟩ := back_of_pass hp hk he h hmore hrule hstate hall ha hb
  exact ⟨_, e, v, Text.inEscape_of_mem_rest, hback⟩

theorem exists_back_of_enter (e : EscapeSyntax) (he : kind k.category) (h : o.ComesTo g c z)
    (hall : c.AllFrom kind i) (ha : c.ahead = backslash :: x :: t)
    (hx : Text.hidesNext true backslash x = true)
    (hrule : g.leave c z = Escape.enter e k.category c z fun e => k.put e z) :
    ∃ w d y, (∀ b ∈ w, b.inEscape = true) ∧
      Back g k o kind i c.state c (backslash :: x :: w) d y := by
  obtain ⟨d, y, hback, -⟩ := back_of_enter hp hk e he h hall ha hx hrule
  exact ⟨_, d, y, e.inEscape_of_mem_restBehind, hback⟩

end Pass

end Highlight
