import Highlight.Proofs.Fold.Renamed
import Highlight.Proofs.Scan.Progress

/-!
Scans of the same text that are level. Two scans may have found different categories and still stand
at the same place with the same ahead of them: if the categories differ only in what a function `f`
makes of them, they remember the same of the bytes behind (`Cursor.Along`). If they are in the same
state as well, and in runs that will be judged by their bytes have the same bytes, their rules
cannot tell them apart (`Cursor.Level`), and answers that are level bring level passes on
(`Pass.Level.step`).
-/

namespace Highlight

open Byte
open Palette (Renames)

variable {σ τ ζ : Type} {f : σ → τ} {loose : σ → Bool} {like : σ → ζ → ζ → Prop}

/-! ### Places -/

namespace Cursor

/-- The cursors stand at the same place of the same text, and have found the same behind it under
the names that `f` gives. -/
structure Along (f : σ → τ) (c c' : Cursor σ) : Prop where
  start : c.start = c'.start
  pos : c.pos = c'.pos
  line : c.line = c'.line
  prev : c.prev = c'.prev
  ahead : c.ahead = c'.ahead
  byte : c.trail.byte = c'.trail.byte
  visible : c.trail.visible = c'.trail.visible
  indent : c.trail.indent = c'.trail.indent
  found : c.spent.map f = c'.spent.map f

/-- The cursors are in the same state as well. How far the runs in progress go back may differ only
in `loose` states, whose runs are never looked at. -/
structure Level (f : σ → τ) (loose : σ → Bool) (c c' : Cursor σ) : Prop extends Along f c c' where
  state : c.state = c'.state
  word : loose c.state = false → c.word = c'.word

section Far

variable [Palette σ]

/-- At the end no place is further on. -/
theorem forwardN_succ (c : Cursor σ) (n : Nat) : c.forwardN (n + 1) = c.forward.forwardN n := by
  rw [forwardN]
  split
  case isTrue => rfl
  case isFalse h =>
    have hnil : c.ahead = [] := by simpa [more] using h
    rw [forward_nil hnil]
    cases n with
    | zero => rfl
    | succ n => rw [forwardN, if_neg h]

theorem forwardN_add (c : Cursor σ) (n k : Nat) :
    c.forwardN (n + k) = (c.forwardN n).forwardN k := by
  induction n generalizing c with
  | zero => rw [Nat.zero_add, forwardN]
  | succ n ih => rw [Nat.succ_add, forwardN_succ, forwardN_succ, ih]

end Far

namespace Along

variable {c d e : Cursor σ}

theorem refl (c : Cursor σ) : c.Along f c := ⟨rfl, rfl, rfl, rfl, rfl, rfl, rfl, rfl, rfl⟩

theorem symm (h : c.Along f d) : d.Along f c :=
  ⟨h.start.symm, h.pos.symm, h.line.symm, h.prev.symm, h.ahead.symm, h.byte.symm, h.visible.symm,
    h.indent.symm, h.found.symm⟩

theorem trans (h : c.Along f d) (h' : d.Along f e) : c.Along f e :=
  ⟨h.start.trans h'.start, h.pos.trans h'.pos, h.line.trans h'.line, h.prev.trans h'.prev,
    h.ahead.trans h'.ahead, h.byte.trans h'.byte, h.visible.trans h'.visible,
    h.indent.trans h'.indent, h.found.trans h'.found⟩

theorem switch_left (h : c.Along f d) (s : σ) : (c.switch s).Along f d :=
  { h with found := by rw [spent_switch]; exact h.found }

theorem switch (h : c.Along f d) (s t : σ) : (c.switch s).Along f (d.switch t) :=
  ((h.switch_left s).symm.switch_left t).symm

theorem remember (h : c.Along f d) (s t : σ) : (c.remember s).Along f (d.remember t) := { h with }

theorem more_eq (h : c.Along f d) : c.more = d.more := by rw [more, more, h.ahead]

theorem byte_eq (h : c.Along f d) : c.byte = d.byte := by rw [Cursor.byte, peek, h.ahead]; rfl

theorem next_eq (h : c.Along f d) : c.next = d.next := by rw [next, peek, h.ahead]; rfl

theorem reads_eq (h : c.Along f d) (a b : Byte) : c.reads a b = d.reads a b := by
  rw [reads, reads, h.byte_eq, h.next_eq]

theorem nextVisible_eq (h : c.Along f d) : c.nextVisible = d.nextVisible := by
  rw [nextVisible, nextVisible, h.ahead]

theorem behind_eq (h : c.Along f d) : c.behind = d.behind := by rw [behind, behind, h.prev]

theorem atLineStart_eq (h : c.Along f d) : c.atLineStart = d.atLineStart := by
  rw [atLineStart, atLineStart, h.prev]

theorem atLineEnd_eq (h : c.Along f d) : c.atLineEnd = d.atLineEnd := by
  rw [atLineEnd, atLineEnd, h.ahead]

variable [Palette σ]

theorem newLine (h : c.Along f d) : c.newLine.Along f d.newLine :=
  { h with visible := rfl, indent := rfl }

variable [Palette τ]

/-- One more byte is passed, in categories of the same name. -/
theorem forward (hf : Renames f) (h : c.Along f d) (hs : f c.state = f d.state) :
    c.forward.Along f d.forward := by
  cases ha : c.ahead with
  | nil => rwa [forward_nil ha, forward_nil (h.ahead.symm.trans ha)]
  | cons b t =>
    have ha' : d.ahead = b :: t := h.ahead.symm.trans ha
    have hquiet : Palette.isQuiet c.state = Palette.isQuiet d.state := by
      rw [← hf.isQuiet, hs, hf.isQuiet]
    have htrail : (c.trail.pass b c.state).byte = (d.trail.pass b d.state).byte ∧
        (c.trail.pass b c.state).visible = (d.trail.pass b d.state).visible ∧
        (c.trail.pass b c.state).indent = (d.trail.pass b d.state).indent := by
      unfold Trail.pass
      rw [h.visible, hquiet]
      split_ifs
      · exact ⟨h.byte, rfl, congrArg (· + 1) h.indent⟩
      · exact ⟨h.byte, h.visible, h.indent⟩
      · exact ⟨h.byte, rfl, h.indent⟩
      · exact ⟨rfl, rfl, h.indent⟩
    have hfound : c.forward.spent.map f = d.forward.spent.map f := by
      rw [spent_forward ha, spent_forward ha', List.map_cons, List.map_cons, hs, h.found]
    obtain ⟨hbyte, hvisible, hindent⟩ := htrail
    rw [forward_cons ha, forward_cons ha'] at hfound ⊢
    exact ⟨h.start, congrArg (· + 1) h.pos, by rw [h.line], rfl, rfl, hbyte, hvisible, hindent,
      hfound⟩

theorem forwardN (hf : Renames f) (h : c.Along f d) (hs : f c.state = f d.state) (n : Nat) :
    (c.forwardN n).Along f (d.forwardN n) := by
  induction n generalizing c d with
  | zero => exact h
  | succ n ih =>
    rw [forwardN_succ, forwardN_succ]
    exact ih (h.forward hf hs) (by rw [state_forward, state_forward, hs])

end Along

namespace Level

variable {c d : Cursor σ}

/-- In a new run nothing is left of the one before. -/
theorem of_switch (h : c.Along f d) (s : σ) : (c.switch s).Level f loose (d.switch s) :=
  ⟨h.switch s s, rfl, fun _ => rfl⟩

theorem switch (h : c.Level f loose d) (s : σ) : (c.switch s).Level f loose (d.switch s) :=
  .of_switch h.toAlong s

theorem remember (h : c.Level f loose d) (s : σ) : (c.remember s).Level f loose (d.remember s) :=
  ⟨h.toAlong.remember s s, h.state, h.word⟩

/-- A run that is looked at was found by both from the same byte on, so it may take another
category. -/
theorem recolor (h : c.Level f loose d) (hs : loose c.state = false) (s : σ) :
    (c.recolor s).Level f loose (d.recolor s) := by
  have hword := h.word hs
  have hclosed : c.closed.map f = d.closed.map f := by
    have hfound := h.found
    rw [spent, spent, hword, h.state, List.map_append, List.map_append] at hfound
    exact List.append_cancel_left hfound
  refine ⟨{ h.toAlong with found := ?_ }, rfl, fun _ => hword⟩
  change (List.replicate c.word.length s ++ c.closed).map f =
    (List.replicate d.word.length s ++ d.closed).map f
  rw [hword, List.map_append, List.map_append, hclosed]

theorem currentWord_eq (h : c.Level f loose d) (hs : loose c.state = false) :
    c.currentWord = d.currentWord := by rw [currentWord, currentWord, h.word hs]

variable [Palette σ]

theorem newLine (h : c.Level f loose d) : c.newLine.Level f loose d.newLine :=
  ⟨h.toAlong.newLine, h.state, h.word⟩

variable [Palette τ]

theorem forward (hf : Renames f) (h : c.Level f loose d) :
    c.forward.Level f loose d.forward := by
  refine ⟨h.toAlong.forward hf (congrArg f h.state), by simp [h.state], fun hs => ?_⟩
  rw [state_forward] at hs
  cases ha : c.ahead with
  | nil => rw [forward_nil ha, forward_nil (h.ahead.symm.trans ha), h.word hs]
  | cons b t =>
    rw [forward_cons ha, forward_cons (h.ahead.symm.trans ha)]
    exact congrArg (b :: ·) (h.word hs)

theorem forwardN (hf : Renames f) (h : c.Level f loose d) (n : Nat) :
    (c.forwardN n).Level f loose (d.forwardN n) := by
  induction n generalizing c d with
  | zero => exact h
  | succ n ih =>
    rw [forwardN_succ, forwardN_succ]
    exact ih (h.forward hf)

theorem forwardSwitch (hf : Renames f) (h : c.Level f loose d) (s : σ) :
    (c.forwardSwitch s).Level f loose (d.forwardSwitch s) := (h.forward hf).switch s

end Level

end Cursor

/-! ### Answers -/

/-- The answers ask for the same, at level places and with data that are alike there. -/
inductive Flow.Level (f : σ → τ) (loose : σ → Bool) (like : σ → ζ → ζ → Prop) :
    Flow σ ζ → Flow σ ζ → Prop where
  | pass {c d : Cursor σ} {z z' : ζ} (hc : c.Level f loose d) (hz : like c.state z z') :
      Level f loose like (.pass c z) (.pass d z')
  | again {c d : Cursor σ} {z z' : ζ} (hc : c.Level f loose d) (hz : like c.state z z') :
      Level f loose like (.again c z) (.again d z')

/-- The grammars sum up lines alike that end at level places. -/
def Grammar.EndsLevel (f : σ → τ) (loose : σ → Bool) (like : σ → ζ → ζ → Prop)
    (g g' : Grammar σ ζ) : Prop :=
  ∀ {c d : Cursor σ} {z z' : ζ}, c.Level f loose d → like c.state z z' →
    (g.endLine c z).1 = (g'.endLine d z').1 ∧ like c.state (g.endLine c z).2 (g'.endLine d z').2

variable [Palette σ] [DecidableEq σ] {g g' : Grammar σ ζ} {c d : Cursor σ} {z z' : ζ}

/-- Where both rules of two grammars answer alike, so do the grammars. -/
theorem Grammar.dispatch_level
    (hleave : (g.leave c z).Level f loose like (g'.leave d z'))
    (henter : ∀ {c d : Cursor σ} {z z' : ζ}, c.Level f loose d → c.state = Palette.plain →
      like c.state z z' → (g.enter c z).Level f loose like (g'.enter d z')) :
    (g.dispatch c z).Level f loose like (g'.dispatch d z') := by
  unfold Grammar.dispatch
  revert hleave
  generalize g.leave c z = a
  generalize g'.leave d z' = b
  intro hleave
  cases hleave with
  | @pass c d z z' hc hz =>
    simp only [← hc.state]
    split
    case isTrue hplain => exact henter hc hplain hz
    case isFalse => exact .pass hc hz
  | again hc hz => exact .again hc hz

/-! ### Passes -/

namespace Pass

/-- The passes are at level places with data that are alike, and have ended the same lines with the
same states. -/
structure Level (f : σ → τ) (loose : σ → Bool) (like : σ → ζ → ζ → Prop) (p q : Pass σ ζ) :
    Prop where
  cursor : p.cursor.Level f loose q.cursor
  like : like p.cursor.state p.data q.data
  ended : p.ended = q.ended

namespace Level

variable {p q : Pass σ ζ}

omit [DecidableEq σ] in
theorem endLine (hend : g.EndsLevel f loose like g') (h : p.Level f loose like q) :
    (p.endLine g).Level f loose like (q.endLine g') := by
  obtain ⟨hstate, hdata⟩ := hend h.cursor h.like
  refine ⟨h.cursor.newLine, hdata, ?_⟩
  change (_, _) :: p.ended = (_, _) :: q.ended
  rw [hstate, h.cursor.line, h.ended]

variable [Palette τ]

omit [DecidableEq σ] in
theorem advance (hf : Renames f) (hend : g.EndsLevel f loose like g')
    (h : p.Level f loose like q) : (p.advance g).Level f loose like (q.advance g') := by
  have hforward : ∀ {p q : Pass σ ζ}, p.Level f loose like q → Level f loose like
      { p with cursor := p.cursor.forward, rescans := 0 }
      { q with cursor := q.cursor.forward, rescans := 0 } := fun h =>
    ⟨h.cursor.forward hf, by simpa using h.like, h.ended⟩
  unfold Pass.advance
  rw [h.cursor.atLineEnd_eq]
  split
  · exact hforward (h.endLine hend)
  · exact hforward h

/-- **Level passes stay level in a step** if the answers are level and neither is forced on. -/
theorem step (hf : Renames f) (hend : g.EndsLevel f loose like g')
    (hdispatch : (g.dispatch p.cursor p.data).Level f loose like (g'.dispatch q.cursor q.data))
    (hp : ∀ d z, g.dispatch p.cursor p.data = .again d z →
      (if d.pos = p.cursor.pos then p.rescans + 1 else 1) ≤ maxRescans)
    (hq : ∀ d z, g'.dispatch q.cursor q.data = .again d z →
      (if d.pos = q.cursor.pos then q.rescans + 1 else 1) ≤ maxRescans)
    (h : p.Level f loose like q) : (p.step g).Level f loose like (q.step g') := by
  cases hrule : g.dispatch p.cursor p.data with
  | pass d z =>
    rw [hrule] at hdispatch
    generalize hrule' : g'.dispatch q.cursor q.data = answer at hdispatch
    cases hdispatch with
    | pass hc hz =>
      rw [step_of_pass hrule, step_of_pass hrule']
      exact advance hf hend ⟨hc, hz, h.ended⟩
  | again d z =>
    rw [hrule] at hdispatch
    generalize hrule' : g'.dispatch q.cursor q.data = answer at hdispatch
    cases hdispatch with
    | again hc hz =>
      rw [step_of_again hrule (hp _ _ hrule), step_of_again hrule' (hq _ _ hrule')]
      exact ⟨hc, hz, h.ended⟩

omit [Palette σ] [DecidableEq σ] [Palette τ] in
/-- At the end of the text level passes leave their last runs alike. -/
theorem leaveLast (hgoes : ∀ (c : Cursor σ) z, c.Onward (g.leave c z).cursor)
    (hleave : ∀ {c d : Cursor σ} {z z' : ζ}, c.Level f loose d → c.ahead = [] →
      like c.state z z' → (g.leave c z).Level f loose like (g'.leave d z'))
    (n : Nat) (ha : p.cursor.ahead = []) (h : p.Level f loose like q) :
    (p.leaveLast g n).Level f loose like (q.leaveLast g' n) := by
  induction n generalizing p q with
  | zero => exact h
  | succ n ih =>
    have hanswer := hleave h.cursor ha h.like
    have honward := hgoes p.cursor p.data
    unfold Pass.leaveLast
    revert hanswer honward
    generalize g.leave p.cursor p.data = a
    generalize g'.leave q.cursor q.data = b
    intro hanswer honward
    cases hanswer with
    | pass hc hz => exact ⟨hc, hz, h.ended⟩
    | again hc hz =>
      exact ih (List.suffix_nil.1 (ha ▸ honward.ahead)) ⟨hc, hz, h.ended⟩

end Level

end Pass

end Highlight
