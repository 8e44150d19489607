import Highlight.Proofs.Scan.LineStart
import Highlight.Scan.Outcome

/-!
The scan of a whole text from its beginning. It comes by the beginning of every line, and what it
has found by then depends only on the lines before (`Pass.comesBy`). From there on it finds what any
pass finds that begins the line abreast (`ComesBy.rest`). At the end it has given a category to
every byte and ended every line that has any (`fresh_length`, `fresh_lines`).
-/

namespace Highlight

open Byte

/-- The last line of the text has bytes but no newline. -/
def Text.unended (t : Text) : Bool := !t.isEmpty && t.getLast? != some newline

/-- How many lines of the text have any bytes. -/
def Text.committed (t : Text) : Nat := t.count newline + t.unended.toNat

theorem Text.unended_of_newline {t : Text} (h : t.getLast? = some newline) :
    t.unended = false := by simp [unended, h]

theorem Text.unended_concat {b : Byte} (t : Text) (hb : b ≠ newline) :
    (t ++ [b]).unended = true := by simp [unended, hb]

variable {σ ζ : Type} [Palette σ]

/-- The cursor before a text. -/
def Cursor.outset (text : Text) : Cursor σ where
  start := 0
  pos := 0
  line := 0
  prev := none
  ahead := text
  state := Palette.plain
  word := []
  closed := []
  trail := Trail.start

theorem Cursor.ofPart_zero (text : Text) (styles : Styles σ) :
    Cursor.ofPart text 0 text.length Palette.plain styles = Cursor.outset text := by
  simp [Cursor.ofPart, Cursor.ofRange, Cursor.outset, Styles.styled, Trail.ofStyled]

theorem Cursor.alike_outset {text text' u u' : Text} (q : Conduct σ)
    (ha : Text.Agree u u' text text') :
    Cursor.Alike q [] [] u u' (Cursor.outset text) (Cursor.outset text') :=
  ⟨⟨rfl, rfl, rfl, fun _ => rfl, rfl, rfl, .begun [] rfl rfl rfl⟩, ha⟩

theorem Cursor.follows_outset (q : Conduct σ) (text : Text) :
    (Cursor.outset text : Cursor σ).Follows q text [] :=
  ⟨rfl, rfl, rfl, rfl, rfl, rfl, rfl, fun _ => rfl⟩

namespace Pass

/-- The pass with which a scan begins. -/
def opened (g : Grammar σ ζ) (c : Cursor σ) (before : LineState) : Pass σ ζ where
  cursor := (g.begin c before).1
  data := (g.begin c before).2

/-- The pass with which the scan of a whole text begins. -/
def first (g : Grammar σ ζ) (text : Text) : Pass σ ζ := opened g (Cursor.outset text) {}

variable {g : Grammar σ ζ} {r : Regime σ ζ} {text text' a u u' : Text}

/-! ### The beginning -/

/-- Scans of texts that agree up to the end of a line begin alike. -/
theorem first_kin (hg : g.Keeps r) (ha : Text.Agree u u' text text') :
    Kin r ⟨0, [], [], 0, u⟩ ⟨0, [], [], 0, u'⟩ (first g text) (first g text') ∧
      (first g text).Ready r ∧
      Together ⟨0, [], [], 0, u⟩ ⟨0, [], [], 0, u'⟩ (first g text) (first g text') := by
  have halike := Cursor.alike_outset r.toConduct ha
  obtain ⟨moves, like, fits, crosses⟩ := hg.begin (b := {}) halike rfl rfl
  obtain ⟨hl, hl'⟩ := moves.line_eq halike
  have h := moves.alike halike
  exact ⟨⟨h.toKin, moves.start_eq, ⟨0, hl, hl'⟩, like, fits, rfl, [], rfl, rfl⟩,
    ⟨fun hn => by simp [first, opened, hg.named_of_crosses crosses] at hn, Nat.zero_le _⟩, h.ahead⟩

theorem first_sound (hg : g.Keeps r) (text : Text) : (first g text).Sound g r text := by
  have halike := Cursor.alike_outset r.toConduct (.refl text)
  obtain ⟨moves, like, fits, crosses⟩ := hg.begin (b := {}) halike rfl rfl
  have hprev : (first g text).cursor.prev ≠ some newline := by
    rcases moves.moved with ⟨-, h⟩ | ⟨b, h, hb⟩
    · exact fun h' => by simpa [Cursor.outset] using h.symm.trans h'
    · exact fun h' => hb (Option.some.inj (h.symm.trans h'))
  have hline : (first g text).cursor.line = 0 := (moves.line_eq halike).1
  refine ⟨moves.follows (Cursor.follows_outset _ _), fits, (first_kin hg (.refl text)).2.1, ?_,
    fun _ h => absurd h hprev, fun _ h => absurd h hprev⟩
  rw [hline]
  rfl

/-! ### On the way -/

/-- A text at whose end a line begins has left none open. -/
theorem Sound.not_unended {q : Pass σ ζ} (h : q.Sound g r text)
    (hprev : q.cursor.prev = some newline) (hnil : q.cursor.ahead = []) :
    text.unended = false := by
  obtain ⟨old, hf⟩ := h.follows
  refine Text.unended_of_newline ?_
  rw [hf.text_eq, hnil, List.append_nil, ← hf.prev, hprev]

variable [DecidableEq σ]

/-- The scan of the text comes by the pass `q`, which begins a line. -/
structure ComesBy (g : Grammar σ ζ) (r : Regime σ ζ) (text : Text) (q : Pass σ ζ) : Prop where
  reached : ∃ n, n + q.cost ≤ (first g text).cost ∧ (first g text).run g n = q
  sound : q.Sound g r text
  idle : q.rescans = 0
  prev : q.cursor.prev = some newline

/-- **What was found by the beginning of a line depends on the lines before.** The scans of two
texts with the same first lines come alike to the end of these lines. -/
theorem comesBy (hg : g.Keeps r) (ha : a.getLast? = some newline) (u u' : Text) :
    ∃ q q', ComesBy g r (a ++ u) q ∧ ComesBy g r (a ++ u') q' ∧
      Kin r ⟨0, [], [], 0, u⟩ ⟨0, [], [], 0, u'⟩ q q' ∧
      q.cursor.ahead = u ∧ q'.cursor.ahead = u' := by
  have hagree : Text.Agree u u' (a ++ u) (a ++ u') := ⟨a, rfl, rfl, .inl ha⟩
  obtain ⟨hk, hr, ht⟩ := first_kin hg hagree
  obtain ⟨n, hn, hk', hr', ⟨hl, hl'⟩, hend⟩ := hk.run hg hr ht
  have hs := (first_sound hg (a ++ u)).run hg n
  have hs' := (first_sound hg (a ++ u')).run hg n
  have hprev : ∀ {w : Text} {q : Pass σ ζ}, q.Sound g r (a ++ w) → q.cursor.ahead = w →
      q.cursor.prev = some newline := by
    rintro _ q h rfl
    obtain ⟨old, h⟩ := h.follows
    rw [h.prev, h.behind_eq, ha]
  have hidle : ((first g (a ++ u)).run g n).rescans = 0 := by
    rcases hend with h | h
    · exact hs.idle (hl.trans h) (hprev hs hl)
    · exact h
  have hidle' : ((first g (a ++ u')).run g n).rescans = 0 := hk'.rescans.symm.trans hidle
  have hn' : n + ((first g (a ++ u')).run g n).cost ≤ (first g (a ++ u')).cost := by
    obtain ⟨l, h₁, h₂, -⟩ := ht
    have e : (first g (a ++ u)).rescans = 0 := rfl
    have e' : (first g (a ++ u')).rescans = 0 := rfl
    simp only [cost, h₁, h₂, hl, hl', hidle, hidle', e, e', List.length_append] at hn ⊢
    simp only [maxRescans] at hn ⊢
    omega
  exact ⟨_, _, ⟨⟨n, hn, rfl⟩, hs, hidle, hprev hs hl⟩, ⟨⟨n, hn', rfl⟩, hs', hidle', hprev hs' hl'⟩,
    hk', hl, hl'⟩

namespace ComesBy

variable {q R : Pass σ ζ}

theorem atLineStart (h : ComesBy g r text q) : q.AtLineStart g r :=
  h.sound.atStart h.idle h.prev

theorem line (h : ComesBy g r (a ++ q.cursor.ahead) q) : q.cursor.line = a.count newline := by
  obtain ⟨old, h⟩ := h.sound.follows
  rw [h.line, h.behind_eq]

theorem pos (h : ComesBy g r (a ++ q.cursor.ahead) q) : q.cursor.pos = a.length := by
  obtain ⟨old, h⟩ := h.sound.follows
  rw [h.pos, h.behind_eq]

theorem length_spent (h : ComesBy g r (a ++ q.cursor.ahead) q) :
    q.cursor.spent.length = a.length := by
  obtain ⟨old, h'⟩ := h.sound.follows
  rw [← h.pos, ← h'.length_passed, Cursor.passed_eq, List.length_reverse]

theorem not_unended (h : ComesBy g r text q) (hnil : q.cursor.ahead = []) :
    text.unended = false := h.sound.not_unended h.prev hnil

end ComesBy

/-! ### To the end -/

/-- The scan of the whole text. -/
def fresh (g : Grammar σ ζ) (text : Text) : Pass σ ζ :=
  ofPart g text 0 text.length Palette.plain #[] #[]

theorem whole_eq (g : Grammar σ ζ) (c : Cursor σ) (before : LineState) (last : Bool) :
    whole g c before last =
      ((opened g c before).run g (enoughSteps (opened g c before).cursor.ahead.length)).finish g
        last := rfl

theorem fresh_eq (g : Grammar σ ζ) (text : Text) :
    fresh g text = ((first g text).run g (first g text).cost).finish g text.unended := by
  have hlast : (0 + text.length == text.length && decide (0 < text.length) &&
      text.getLast? != some newline) = text.unended := by
    cases text <;> simp [Text.unended]
  rw [fresh, ofPart, Cursor.ofPart_zero, whole_eq, hlast]
  rfl

/-- **What is found from the beginning of a line on.** A pass that begins the line abreast with the
scan of the text finds there what that scan finds. -/
theorem ComesBy.rest {q R : Pass σ ζ} (hg : g.Keeps r) (h : ComesBy g r text q)
    (hR : Abreast r q R) (ha : q.cursor.ahead = R.cursor.ahead) :
    Tally r (q.origin []) (R.origin []) (fresh g text)
      ((R.run g R.cost).finish g text.unended) := by
  obtain ⟨m, hm, hq⟩ := h.reached
  obtain ⟨n, hn, hnil, hnil', htally⟩ := hR.rest hg ha h.not_unended
  have hcost : R.cost = q.cost := by rw [cost, cost, ha, hR.idle, hR.idle']
  have e : (first g text).run g (first g text).cost = q.run g n := by
    have hrun : (first g text).run g (m + n) = q.run g n := by rw [run_add, hq]
    rw [← hrun]
    exact run_of_le g (hrun ▸ hnil) (by omega)
  have e' : R.run g R.cost = R.run g n := run_of_le g hnil' (by omega)
  rw [fresh_eq, e, e']
  exact htally

theorem ComesBy.abreast_self {q : Pass σ ζ} (hg : g.Keeps r) (h : ComesBy g r text q) :
    Abreast r q q := by
  have hprev : q.cursor.prev.getD newline = newline := by rw [h.prev, Option.getD_some]
  exact ⟨hprev, hprev, rfl, h.atLineStart.crosses, rfl, fun _ => rfl, rfl, rfl, hg.like_refl _ _,
    h.sound.fits, h.idle, h.idle⟩

/-- What was found by the beginning of a line stays. -/
theorem ComesBy.stays {q : Pass σ ζ} (hg : g.Keeps r) (h : ComesBy g r text q) :
    (∃ y, (fresh g text).cursor.spent = y ++ q.cursor.spent) ∧
      ∃ e, (fresh g text).ended = e ++ q.ended := by
  obtain ⟨-, -, ⟨y, hy, -⟩, -, e, he, -⟩ := h.rest hg (h.abreast_self hg) rfl
  exact ⟨⟨y, hy⟩, _, he⟩

omit [DecidableEq σ] in
/-- Leaving the last run, a pass goes on following its text, and ends no line. -/
theorem leaveLast_follows (hg : g.Keeps r) (n : Nat) {p : Pass σ ζ}
    (hc : ∃ old, p.cursor.Follows r.toConduct text old) (hf : r.fits p.cursor.state p.data)
    (hn : r.named p.cursor.state = true → p.cursor.HasName) (ha : p.cursor.ahead = []) :
    (∃ old, (p.leaveLast g n).cursor.Follows r.toConduct text old) ∧
      (p.leaveLast g n).cursor.ahead = [] ∧ (p.leaveLast g n).ended = p.ended := by
  induction n generalizing p with
  | zero => exact ⟨hc, ha, rfl⟩
  | succ n ih =>
    obtain ⟨old, hc⟩ := hc
    have ht := hg.leave (.refl r.toConduct p.cursor) hf hn (hg.like_refl _ p.data)
    unfold leaveLast
    revert ht
    generalize g.leave p.cursor p.data = f
    intro ht
    have hnil : ∀ {d d' : Cursor σ}, Cursor.InStep r.toConduct p.cursor p.cursor d d' →
        d.ahead = [] := fun moves => List.suffix_nil.1 (ha ▸ moves.ahead_suffix)
    cases ht with
    | pass moves like fits _ => exact ⟨moves.follows hc, hnil moves, rfl⟩
    | @again d d' z z' moves like fits crosses =>
      exact ih (moves.follows hc) fits (by simp [hg.named_of_crosses crosses]) (hnil moves)

/-- The pass that ends the scan of the text stands at its end and has ended every line. -/
theorem fresh_end (hg : g.Keeps r) (text : Text) :
    (∃ old, (fresh g text).cursor.Follows r.toConduct text old) ∧
      (fresh g text).cursor.ahead = [] ∧
      (fresh g text).ended.map Prod.fst = (List.range text.committed).reverse := by
  obtain ⟨hk, hr, ht⟩ := first_kin hg (.refl text)
  obtain ⟨n, hn, -, -, ⟨hnil, -⟩, -⟩ := hk.run hg hr ht
  have e : (first g text).run g (first g text).cost = (first g text).run g n :=
    run_of_le g hnil (by omega)
  have hs := (first_sound hg text).run hg n
  rw [fresh_eq, e]
  revert hs hnil
  generalize (first g text).run g n = p
  intro hnil hs
  have hline : ∀ {c : Cursor σ} {old : Text}, c.Follows r.toConduct text old → c.ahead = [] →
      c.line = text.count newline := by
    intro c old h ha
    rw [h.line, h.text_eq, ha, List.append_nil]
  obtain ⟨⟨old, hf⟩, ha, he⟩ :=
    leaveLast_follows hg maxRescans hs.follows hs.fits hs.ready.name hnil
  obtain ⟨old', hf'⟩ := hs.follows
  unfold finish Text.committed
  cases text.unended with
  | false =>
    refine ⟨hs.follows, hnil, ?_⟩
    simpa [hline hf' hnil] using hs.lines
  | true =>
    refine ⟨⟨old, hf.newLine⟩, ha, ?_⟩
    simp [Pass.endLine, he, hs.lines, hline hf ha, hline hf' hnil, List.range_succ]

/-- Every byte gets a category. -/
theorem fresh_length (hg : g.Keeps r) (text : Text) :
    (fresh g text).cursor.passed.length = text.length := by
  obtain ⟨⟨old, h⟩, ha, -⟩ := fresh_end hg text
  have htext := h.text_eq
  rw [ha, List.append_nil] at htext
  rw [h.length_passed, h.pos, ← htext]

/-- Every line that has any bytes is ended, in order. -/
theorem fresh_lines (hg : g.Keeps r) (text : Text) :
    (fresh g text).ended.map Prod.fst = (List.range text.committed).reverse :=
  (fresh_end hg text).2.2

theorem fresh_start (hg : g.Keeps r) (text : Text) : (fresh g text).cursor.start = 0 :=
  let ⟨⟨_, h⟩, _⟩ := fresh_end hg text
  h.start

end Pass

end Highlight
