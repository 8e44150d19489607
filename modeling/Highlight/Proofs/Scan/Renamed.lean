import Highlight.Proofs.Fold.Renamed
import Highlight.Proofs.Scan.Fresh
import Highlight.Proofs.Scan.Within
import Highlight.Scan.Escape
import Highlight.Scan.ReturnStack

/-!
Scans under other names. A grammar mirrors another on texts without a certain byte if, wherever none
is ahead, renaming the categories of a place and then asking its rules is the same as asking the
rules of the other and then renaming what they answer (`Grammar.Mirrors`). Then its scan of such a
text is the scan of the other, renamed (`Mirrors.fresh_map`).
-/

namespace Highlight

open Palette (Renames)

variable {σ τ ζ ξ : Type} {f : σ → τ} {k : ζ → ξ}

/-! ### Places -/

/-- The memory with its category renamed. -/
def Trail.map (f : σ → τ) (t : Trail σ) : Trail τ where
  byte := t.byte
  category := f t.category
  visible := t.visible
  indent := t.indent

theorem Trail.map_start [Palette σ] [Palette τ] (hf : Renames f) :
    (start : Trail σ).map f = start := by
  simp [Trail.map, Trail.start, hf.plain]

theorem Trail.map_pass [Palette σ] [Palette τ] (hf : Renames f) (t : Trail σ) (b : Byte) (s : σ) :
    (t.pass b s).map f = (t.map f).pass b (f s) := by
  unfold Trail.pass
  rw [hf.isQuiet]
  split
  · split <;> rename_i h
    · exact (if_pos h).symm
    · exact (if_neg h).symm
  · split <;> rfl

namespace Cursor

/-- The cursor with its categories renamed. -/
def map (f : σ → τ) (c : Cursor σ) : Cursor τ where
  start := c.start
  pos := c.pos
  line := c.line
  prev := c.prev
  ahead := c.ahead
  state := f c.state
  word := c.word
  closed := c.closed.map f
  trail := c.trail.map f

variable (c : Cursor σ)

/-- What a place reads has nothing to do with categories. -/
@[simp] theorem map_pos : (c.map f).pos = c.pos := rfl
@[simp] theorem map_line : (c.map f).line = c.line := rfl
@[simp] theorem map_ahead : (c.map f).ahead = c.ahead := rfl
@[simp] theorem map_state : (c.map f).state = f c.state := rfl
@[simp] theorem map_word : (c.map f).word = c.word := rfl
@[simp] theorem map_trail : (c.map f).trail = c.trail.map f := rfl
@[simp] theorem map_more : (c.map f).more = c.more := rfl
@[simp] theorem map_peek (n : Nat) : (c.map f).peek n = c.peek n := rfl
@[simp] theorem map_byte : (c.map f).byte = c.byte := rfl
@[simp] theorem map_next : (c.map f).next = c.next := rfl
@[simp] theorem map_behind : (c.map f).behind = c.behind := rfl
@[simp] theorem map_reads (a b : Byte) : (c.map f).reads a b = c.reads a b := rfl
@[simp] theorem map_readsNext (a b : Byte) : (c.map f).readsNext a b = c.readsNext a b := rfl
@[simp] theorem map_nextVisible : (c.map f).nextVisible = c.nextVisible := rfl
@[simp] theorem map_atLineStart : (c.map f).atLineStart = c.atLineStart := rfl
@[simp] theorem map_atLineEnd : (c.map f).atLineEnd = c.atLineEnd := rfl
@[simp] theorem map_currentWord : (c.map f).currentWord = c.currentWord := rfl
@[simp] theorem map_visible : (c.map f).visible = c.visible := rfl

@[simp] theorem map_switch (s : σ) : (c.switch s).map f = (c.map f).switch (f s) := by
  simp [map, switch]

@[simp] theorem map_recolor (s : σ) : (c.recolor s).map f = (c.map f).recolor (f s) := rfl

@[simp] theorem map_remember (s : σ) : (c.remember s).map f = (c.map f).remember (f s) := rfl

theorem passed_map : (c.map f).passed = c.passed.map f := by
  simp [passed, map]

@[simp] theorem map_id : c.map id = c := by
  simp [map, Trail.map]

variable [Palette σ] [Palette τ]

@[simp] theorem map_newLine : c.newLine.map f = (c.map f).newLine := rfl

variable (hf : Renames f)
include hf

theorem map_forward : c.forward.map f = (c.map f).forward := by
  cases h : c.ahead with
  | nil => rw [forward_nil h, forward_nil (c := c.map f) h]
  | cons b t =>
    rw [forward_cons h, forward_cons (c := c.map f) h]
    simp only [map, Trail.map_pass hf]

theorem map_forwardN (n : Nat) : (c.forwardN n).map f = (c.map f).forwardN n := by
  induction n generalizing c with
  | zero => rfl
  | succ n ih =>
    unfold forwardN
    rw [map_more]
    split
    · rw [ih, map_forward c hf]
    · rfl

theorem map_forwardSwitch (s : σ) : (c.forwardSwitch s).map f = (c.map f).forwardSwitch (f s) := by
  rw [forwardSwitch, map_switch, map_forward c hf]
  rfl

theorem map_toLastOfRun : c.toLastOfRun.map f = (c.map f).toLastOfRun := map_forwardN c hf _

end Cursor

/-! ### What languages keep -/

/-- The escape with the state around it renamed. -/
def Escape.map (f : σ → τ) (e : Escape σ) : Escape τ where
  outer := f e.outer
  left := e.left
  braced := e.braced

namespace ReturnStack

/-- The stack with its states renamed. -/
def map (f : σ → τ) (s : ReturnStack σ) : ReturnStack τ where
  held := s.held.map f
  depth := s.depth
  cap := s.cap
  peak := s.peak

@[simp] theorem map_isEmpty (s : ReturnStack σ) : (s.map f).isEmpty = s.isEmpty := rfl

@[simp] theorem map_push (s : ReturnStack σ) (a : σ) : (s.push a).map f = (s.map f).push (f a) := by
  unfold push
  by_cases h : s.depth < s.cap <;> simp [map, h]

theorem pop?_map (s : ReturnStack σ) : (s.map f).pop? = s.pop?.map (Prod.map f (map f)) := by
  unfold pop?
  cases h : s.held with
  | nil => simp [map, h]
  | cons a rest => by_cases hd : s.depth ≤ s.cap <;> simp [map, h, hd]

end ReturnStack

/-! ### Rules -/

namespace Flow

/-- What a rule asks for, renamed; `k` renames what the language keeps. -/
def map (f : σ → τ) (k : ζ → ξ) : Flow σ ζ → Flow τ ξ
  | pass c z => pass (c.map f) (k z)
  | again c z => again (c.map f) (k z)

@[simp] theorem map_pass (c : Cursor σ) (z : ζ) : (pass c z).map f k = pass (c.map f) (k z) := rfl

@[simp] theorem map_again (c : Cursor σ) (z : ζ) :
    (again c z).map f k = again (c.map f) (k z) := rfl

theorem map_id (r : Flow σ ζ) : r.map id id = r := by
  cases r <;> simp

@[simp] theorem map_ite (p : Prop) [Decidable p] (a b : Flow σ ζ) :
    (if p then a else b).map f k = if p then a.map f k else b.map f k := apply_ite _ p a b

end Flow

theorem Escape.enter_map [Palette σ] [Palette τ] (hf : Renames f) (e : EscapeSyntax) (s : σ)
    (c : Cursor σ) (z : ζ) {keep : Escape σ → ζ} {keep' : Escape τ → ξ}
    (hk : ∀ x, keep' (x.map f) = k (keep x)) :
    enter e (f s) (c.map f) (k z) keep' = (enter e s c z keep).map f k := by
  simp only [enter, Flow.map_ite, Flow.map_pass, Cursor.map_forward _ hf, Cursor.map_switch, ← hk]
  rw [← Cursor.map_switch, ← Cursor.map_forward _ hf]
  rfl

theorem Escape.leave_map [Palette σ] [Palette τ] (hf : Renames f) (x : Escape σ) (c : Cursor σ)
    {keep : Escape σ → ζ} {keep' : Escape τ → ξ} (hk : ∀ x, keep' (x.map f) = k (keep x)) :
    leave (x.map f) (c.map f) keep' = (leave x c keep).map f k := by
  simp only [leave, Flow.map_ite, Flow.map_pass, Flow.map_again, ← hk, Cursor.map_switch,
    apply_ite (Cursor.map f), Cursor.map_forward _ hf]
  rfl

variable [Palette σ] [Palette τ]

/-- Where the byte `without` is not ahead, the rules of `g'` answer at a renamed place what the
rules of `g` answer, renamed. -/
structure Grammar.Mirrors (f : σ → τ) (k : ζ → ξ) (without : Byte) (g : Grammar σ ζ)
    (g' : Grammar τ ξ) : Prop where
  renames : Renames f
  begin : ∀ {c : Cursor σ} (before : LineState), without ∉ c.ahead →
    g'.begin (c.map f) before = ((g.begin c before).1.map f, k (g.begin c before).2)
  leave : ∀ {c : Cursor σ} (z : ζ), without ∉ c.ahead →
    g'.leave (c.map f) (k z) = (g.leave c z).map f k
  enter : ∀ {c : Cursor σ} (z : ζ), without ∉ c.ahead →
    g'.enter (c.map f) (k z) = (g.enter c z).map f k
  endLine : ∀ (c : Cursor σ) (z : ζ),
    g'.endLine (c.map f) (k z) = ((g.endLine c z).1, k (g.endLine c z).2)
  nesting : ∀ z, g'.nesting (k z) = g.nesting z
  folding : g'.folding = g.folding

omit [Palette σ] in
/-- A byte that is not ahead is not ahead further on. -/
theorem Cursor.Onward.notMem {c d : Cursor σ} (h : c.Onward d) {b : Byte} (hb : b ∉ c.ahead) :
    b ∉ d.ahead := fun hd => hb (h.ahead.mem hd)

omit [Palette σ] in
/-- A byte that is not ahead is not the byte at hand. -/
theorem Cursor.byte_ne_of_notMem {c : Cursor σ} {b : Byte} (hb : b ∉ c.ahead) (h₀ : b ≠ 0) :
    c.byte ≠ b := by
  cases hahead : c.ahead with
  | nil =>
    rw [byte_nil hahead]
    exact h₀.symm
  | cons a t =>
    rw [byte_cons hahead]
    rintro rfl
    exact hb (hahead ▸ List.mem_cons_self)

/-! ### Passes -/

/-- The pass with its categories renamed. -/
def Pass.map (f : σ → τ) (k : ζ → ξ) (p : Pass σ ζ) : Pass τ ξ where
  cursor := p.cursor.map f
  data := k p.data
  rescans := p.rescans
  ended := p.ended

omit [Palette σ] in
theorem Pass.map_id (p : Pass σ ζ) : p.map id id = p := by simp [Pass.map]

namespace Grammar.GoesOn

variable [DecidableEq σ] {g : Grammar σ ζ}

theorem onward_step (hg : g.GoesOn) (p : Pass σ ζ) : p.cursor.Onward (p.step g).cursor := by
  have hasked : p.cursor.Onward (p.asked g).cursor := hg.dispatch p.cursor p.data
  rcases Pass.step_cases g p with h | ⟨n, -, -, h⟩ <;> rw [h]
  · exact hasked.trans (Pass.onward_advance g _)
  · exact hasked

theorem onward_run (hg : g.GoesOn) (p : Pass σ ζ) (n : Nat) :
    p.cursor.Onward (p.run g n).cursor :=
  Pass.run_invariant (fun q => p.cursor.Onward q.cursor)
    (fun q h _ => h.trans (hg.onward_step q)) (.refl _) n

end Grammar.GoesOn

namespace Grammar.Mirrors

variable {g : Grammar σ ζ} {g' : Grammar τ ξ} {b : Byte} {p : Pass σ ζ} {text : Text}

theorem endLine_map (hm : Mirrors f k b g g') (p : Pass σ ζ) :
    (p.map f k).endLine g' = (p.endLine g).map f k := by
  simp only [Pass.endLine, Pass.map, hm.endLine, Cursor.map_line, Cursor.map_newLine]

theorem advance_map (hm : Mirrors f k b g g') (p : Pass σ ζ) :
    (p.map f k).advance g' = (p.advance g).map f k := by
  have hforward : ∀ p : Pass σ ζ, ({ p.map f k with
      cursor := (p.map f k).cursor.forward, rescans := 0 } : Pass τ ξ) =
      Pass.map f k { p with cursor := p.cursor.forward, rescans := 0 } := by
    intro p
    simp only [Pass.map, Cursor.map_forward _ hm.renames]
  unfold Pass.advance
  by_cases hend : p.cursor.atLineEnd = true
  · have hend' : (p.map f k).cursor.atLineEnd = true := hend
    rw [if_pos hend, if_pos hend', hm.endLine_map, hforward]
  · have hend' : ¬(p.map f k).cursor.atLineEnd = true := hend
    rw [if_neg hend, if_neg hend', hforward]

theorem leaveLast_map (hm : Mirrors f k b g g') (hg : g.GoesOn) (n : Nat)
    (hb : b ∉ p.cursor.ahead) : (p.map f k).leaveLast g' n = (p.leaveLast g n).map f k := by
  induction n generalizing p with
  | zero => rfl
  | succ n ih =>
    have hrule : g'.leave (p.map f k).cursor (p.map f k).data =
        (g.leave p.cursor p.data).map f k := hm.leave p.data hb
    have hleft := (hg.leave p.cursor p.data).notMem hb
    unfold Pass.leaveLast
    rw [hrule]
    cases h : g.leave p.cursor p.data with
    | pass c z => rfl
    | again c z => exact ih (p := { p with cursor := c, data := z }) (by rwa [h] at hleft)

theorem finish_map (hm : Mirrors f k b g g') (hg : g.GoesOn) (last : Bool)
    (hb : b ∉ p.cursor.ahead) : (p.map f k).finish g' last = (p.finish g last).map f k := by
  unfold Pass.finish
  split
  · rw [hm.leaveLast_map hg _ hb, hm.endLine_map]
  · rfl

theorem first_map (hm : Mirrors f k b g g') (hb : b ∉ text) :
    Pass.first g' text = (Pass.first g text).map f k := by
  have houtset : (Cursor.outset text).map f = Cursor.outset text := by
    simp [Cursor.outset, Cursor.map, hm.renames.plain, Trail.map_start hm.renames]
  have hbegin := hm.begin (c := Cursor.outset text) {} hb
  rw [houtset] at hbegin
  simp only [Pass.first, Pass.opened, hbegin, Pass.map]

variable [DecidableEq σ] [DecidableEq τ]

theorem dispatch_map (hm : Mirrors f k b g g') (hg : g.GoesOn) (hb : b ∉ p.cursor.ahead) :
    g'.dispatch (p.map f k).cursor (p.map f k).data = (g.dispatch p.cursor p.data).map f k := by
  have hrule : g'.leave (p.map f k).cursor (p.map f k).data =
      (g.leave p.cursor p.data).map f k := hm.leave p.data hb
  have hleft := (hg.leave p.cursor p.data).notMem hb
  unfold Grammar.dispatch
  rw [hrule]
  cases h : g.leave p.cursor p.data with
  | again c z => rfl
  | pass c z =>
    rw [h] at hleft
    have hplain : (c.map f).state = Palette.plain ↔ c.state = Palette.plain :=
      hm.renames.plain_iff c.state
    have henter := hm.enter (c := c) z hleft
    simp only [Flow.map_pass, Flow.map_ite, hplain, henter]

theorem step_map (hm : Mirrors f k b g g') (hg : g.GoesOn) (hb : b ∉ p.cursor.ahead) :
    (p.map f k).step g' = (p.step g).map f k := by
  unfold Pass.step
  rw [hm.dispatch_map hg hb]
  cases g.dispatch p.cursor p.data with
  | pass c z => exact hm.advance_map { p with cursor := c, data := z }
  | again c z =>
    simp only [Flow.map_again]
    rw [apply_ite (Pass.map f k), ← hm.advance_map]
    rfl

/-- **What one step mirrors, a whole run mirrors.** -/
theorem run_map (hm : Mirrors f k b g g') (hg : g.GoesOn) (n : Nat) (hb : b ∉ p.cursor.ahead) :
    (p.map f k).run g' n = (p.run g n).map f k := by
  induction n generalizing p with
  | zero => rfl
  | succ n ih =>
    by_cases hmore : p.cursor.more = true
    · have hmore' : (p.map f k).cursor.more = true := hmore
      rw [Pass.run_succ g n p hmore, Pass.run_succ g' n _ hmore', hm.step_map hg hb]
      exact ih ((hg.onward_step p).notMem hb)
    · rw [Bool.not_eq_true] at hmore
      have hmore' : (p.map f k).cursor.more = false := hmore
      rw [Pass.run_of_not_more g _ p hmore, Pass.run_of_not_more g' _ _ hmore']

/-- **A text is scanned the same under other names.** -/
theorem fresh_map (hm : Mirrors f k b g g') (hg : g.GoesOn) (hb : b ∉ text) :
    Pass.fresh g' text = (Pass.fresh g text).map f k := by
  have hfirst : b ∉ (Pass.first g text).cursor.ahead := (hg.begin (Cursor.outset text) {}).notMem hb
  rw [Pass.fresh_eq, Pass.fresh_eq, hm.first_map hb, hm.run_map hg _ hfirst,
    hm.finish_map hg _ ((hg.onward_run _ _).notMem hfirst)]
  rfl

end Grammar.Mirrors

end Highlight
