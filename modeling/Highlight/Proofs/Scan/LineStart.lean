import Highlight.Proofs.Scan.Sound

/-!
Passes that begin a line. What the run in progress over the end of a line was matters no more once
it is left, so a pass that begins a line can be settled first: a run that ends with its line gives
way to a plain one. Settled, two passes that begin their lines abreast are of a kind, whatever they
found before, and so they find the same from there on: up to the place where their texts part, and
up to the end if they do not part.
-/

namespace Highlight

open Byte

variable {σ ζ : Type} [Palette σ]

namespace Pass

/-- What two passes have found since their origins is the same. -/
structure Tally (r : Regime σ ζ) (o o' : Origin σ) (p p' : Pass σ ζ) : Prop where
  state : p.cursor.state = p'.cursor.state
  start : p.cursor.start = o.start ∧ p'.cursor.start = o'.start
  spent : ∃ y, p.cursor.spent = y ++ o.found ∧ p'.cursor.spent = y ++ o'.found
  like : r.like p.cursor.state p.data p'.data
  ended : ∃ e : List (Nat × LineState), p.ended = e.map (Prod.map (o.line + ·) id) ++ o.ended ∧
    p'.ended = e.map (Prod.map (o'.line + ·) id) ++ o'.ended

/-- The place of a pass as an origin, with the text `u` to part from there. -/
def origin (p : Pass σ ζ) (u : Text) : Origin σ where
  start := p.cursor.start
  found := p.cursor.spent
  ended := p.ended
  line := p.cursor.line
  rest := u

/-- Two passes begin lines, in the same state and with the same in mind. -/
structure Abreast (r : Regime σ ζ) (p p' : Pass σ ζ) : Prop where
  start : p.cursor.prev.getD newline = newline
  start' : p'.cursor.prev.getD newline = newline
  state : p.cursor.state = p'.cursor.state
  crosses : r.crosses p.cursor.state = true
  byte : p.cursor.trail.byte = p'.cursor.trail.byte
  category : r.reads → p.cursor.trail.category = p'.cursor.trail.category
  visible : p.cursor.trail.visible = p'.cursor.trail.visible
  indent : p.cursor.trail.indent = p'.cursor.trail.indent
  like : r.like p.cursor.state p.data p'.data
  fits : r.fits p.cursor.state p.data
  idle : p.rescans = 0
  idle' : p'.rescans = 0

/-- The pass with a run that ends with its line closed. -/
def settle (r : Regime σ ζ) (p : Pass σ ζ) : Pass σ ζ :=
  if r.stable p.cursor.state then p else { p with cursor := p.cursor.switch Palette.plain }

/-- The end of a pass: if the text has a last line without a newline, that ends too. -/
def finish (g : Grammar σ ζ) (last : Bool) (p : Pass σ ζ) : Pass σ ζ :=
  if last then (p.leaveLast g maxRescans).endLine g else p

variable {g : Grammar σ ζ} {r : Regime σ ζ} {o o' : Origin σ} {p p' : Pass σ ζ} {u u' : Text}

omit [Palette σ] in
theorem Kin.tally (h : Kin r o o' p p') : Tally r o o' p p' :=
  ⟨h.cursor.state, h.start, h.cursor.spent, h.like, h.ended⟩

omit [Palette σ] in
theorem Abreast.tally (h : Abreast r p p') : Tally r (p.origin u) (p'.origin u') p p' :=
  ⟨h.state, ⟨rfl, rfl⟩, ⟨[], rfl, rfl⟩, h.like, [], rfl, rfl⟩

/-! ### Settling -/

omit [Palette σ] in
theorem atLineStart_of_prev {c : Cursor σ} (h : c.prev.getD newline = newline) :
    c.atLineStart = true := by
  unfold Cursor.atLineStart
  cases hp : c.prev with
  | none => rfl
  | some b => simpa [hp] using h

theorem ahead_settle : (p.settle r).cursor.ahead = p.cursor.ahead := by
  unfold settle
  split <;> rfl

theorem rescans_settle : (p.settle r).rescans = p.rescans := by
  unfold settle
  split <;> rfl

theorem cost_settle : (p.settle r).cost = p.cost := by
  rw [cost, cost, ahead_settle, rescans_settle]

theorem ready_settle (hg : g.Keeps r) (hc : r.crosses p.cursor.state = true)
    (hfew : p.rescans ≤ maxRescans) : (p.settle r).Ready r := by
  refine ⟨fun hn => ?_, by rwa [rescans_settle]⟩
  unfold settle at hn
  split at hn
  · simp [hg.named_of_crosses hc] at hn
  · have hp := hg.named_of_crosses (s := Palette.plain) (by simp [Conduct.crosses, hg.stable_plain])
    simp [Cursor.switch, hp] at hn

/-- At the beginning of a line two passes that are abreast can be taken for two of a kind. -/
theorem Abreast.settle (hg : g.Keeps r) (h : Abreast r p p') :
    Kin r (p.origin u) (p'.origin u') (p.settle r) (p'.settle r) := by
  have hprev : p.cursor.prev.getD newline = p'.cursor.prev.getD newline := by
    rw [h.start, h.start']
  have hends : p.ended = ([] : List (Nat × LineState)).map (Prod.map (p.cursor.line + ·) id) ++
      (p.origin u).ended := rfl
  unfold Pass.settle
  rw [← h.state]
  by_cases hs : r.stable p.cursor.state = true
  · rw [if_pos hs, if_pos hs]
    refine ⟨⟨h.state, hprev, h.byte, h.category, h.visible, h.indent, .going 0 hs rfl rfl⟩,
      ⟨rfl, rfl⟩, ⟨0, rfl, rfl⟩, h.like, h.fits, h.idle.trans h.idle'.symm, [], rfl, rfl⟩
  · rw [if_neg hs, if_neg hs]
    have he : r.ending p.cursor.state = true := by
      simpa [Conduct.crosses, hs] using h.crosses
    refine ⟨⟨rfl, hprev, h.byte, h.category, h.visible, h.indent, .begun [] rfl rfl rfl⟩,
      ⟨rfl, rfl⟩, ⟨0, rfl, rfl⟩, hg.like_plain he h.like, hg.fits_plain he h.fits,
      h.idle.trans h.idle'.symm, [], rfl, rfl⟩

variable [DecidableEq σ]

theorem dispatch_settle (hg : g.Keeps r) (hc : r.crosses p.cursor.state = true)
    (hs : p.cursor.atLineStart = true) :
    g.dispatch (p.settle r).cursor (p.settle r).data = g.dispatch p.cursor p.data := by
  unfold settle
  by_cases h : r.stable p.cursor.state = true
  · rw [if_pos h]
  · have he : r.ending p.cursor.state = true := by simpa [Conduct.crosses, h] using hc
    rw [if_neg h]
    unfold Grammar.dispatch
    rw [hg.leave_ending he hs, hg.leave_plain rfl]

/-- A settled pass takes the same step. -/
theorem step_settle (hg : g.Keeps r) (hc : r.crosses p.cursor.state = true)
    (hs : p.cursor.atLineStart = true) : (p.settle r).step g = p.step g := by
  have hd := dispatch_settle hg hc hs
  have hpos : (p.settle r).cursor.pos = p.cursor.pos := by unfold settle; split <;> rfl
  have hend : (p.settle r).ended = p.ended := by unfold settle; split <;> rfl
  unfold Pass.step
  rw [hd, hpos, rescans_settle, hend]

theorem run_settle (hg : g.Keeps r) (hc : r.crosses p.cursor.state = true)
    (hs : p.cursor.atLineStart = true) (hne : p.cursor.ahead ≠ []) (n : Nat) :
    (p.settle r).run g (n + 1) = p.run g (n + 1) := by
  have hmore : p.cursor.more = true := by simpa [Cursor.more] using hne
  have hmore' : (p.settle r).cursor.more = true := by
    rwa [Cursor.more, ahead_settle]
  rw [run_succ g n _ hmore', run_succ g n p hmore, step_settle hg hc hs]

/-! ### From the beginning of a line on -/

/-- **Lockstep from the beginning of a line on.** Two passes that begin their lines abreast come
alike to the place where their texts part. -/
theorem Abreast.run (hg : g.Keeps r) (h : Abreast r p p')
    (ha : Text.Agree u u' p.cursor.ahead p'.cursor.ahead) (hne : p.cursor.ahead ≠ []) :
    ∃ n, n + (p.run g n).cost ≤ p.cost ∧
      Kin r (p.origin u) (p'.origin u') (p.run g n) (p'.run g n) ∧ (p.run g n).Ready r ∧
      Part (p.origin u) (p'.origin u') (p.run g n) (p'.run g n) ∧
      (u = [] ∨ (p.run g n).rescans = 0) := by
  have hne' : p'.cursor.ahead ≠ [] := by
    rwa [Ne, ← List.isEmpty_iff, ← ha.isEmpty_eq, List.isEmpty_iff]
  have hc' : r.crosses p'.cursor.state = true := h.state ▸ h.crosses
  have htogether : Together (p.origin u) (p'.origin u') (p.settle r) (p'.settle r) := by
    rwa [Together, ahead_settle, ahead_settle]
  obtain ⟨n, hn, hkin, hready, hpart, hidle⟩ :=
    (h.settle hg).run hg (ready_settle hg h.crosses (h.idle ▸ Nat.zero_le _)) htogether
  cases n with
  | zero =>
    -- a pass that is not at the end has something to read before the texts part
    have hleft : p.cursor.ahead = u := ahead_settle.symm.trans hpart.left
    obtain ⟨l, h₁, -, hl⟩ := ha
    have hnil : l = [] := List.append_left_eq_self.1 (h₁.symm.trans hleft)
    obtain ⟨rfl, -⟩ := hl.resolve_left (by simp [hnil])
    exact absurd hleft hne
  | succ n =>
    have e := run_settle hg h.crosses (atLineStart_of_prev h.start) hne n
    have e' := run_settle hg hc' (atLineStart_of_prev h.start') hne' n
    rw [cost_settle] at hn
    rw [e] at hn hkin hready hpart hidle
    rw [e'] at hkin hpart
    exact ⟨n + 1, hn, hkin, hready, hpart, hidle⟩

omit [DecidableEq σ] in
theorem Kin.finish (hg : g.Keeps r) (last : Bool) (hk : Kin r o o' p p') (hp : p.Ready r)
    (ha : p.cursor.ahead = []) (ha' : p'.cursor.ahead = []) :
    Kin r o o' (p.finish g last) (p'.finish g last) := by
  unfold Pass.finish
  cases last with
  | false => exact hk
  | true => exact (hk.leaveLast hg maxRescans hp.name ha ha').endLine hg

/-- **The same from the beginning of a line to the end of the text.** Two passes that begin the
same line abreast find the same in what they both have ahead. -/
theorem Abreast.rest (hg : g.Keeps r) (h : Abreast r p p')
    (ha : p.cursor.ahead = p'.cursor.ahead) {last : Bool}
    (hl : p.cursor.ahead = [] → last = false) :
    ∃ n, n ≤ p.cost ∧ (p.run g n).cursor.ahead = [] ∧ (p'.run g n).cursor.ahead = [] ∧
      Tally r (p.origin []) (p'.origin []) ((p.run g n).finish g last)
        ((p'.run g n).finish g last) := by
  by_cases hne : p.cursor.ahead = []
  · refine ⟨0, Nat.zero_le _, hne, ha ▸ hne, ?_⟩
    rw [hl hne]
    exact h.tally
  · have hagree : Text.Agree [] [] p.cursor.ahead p'.cursor.ahead := by
      rw [← ha]
      exact .refl _
    obtain ⟨n, hn, hk, hr, hpart, -⟩ := h.run hg hagree hne
    exact ⟨n, by omega, hpart.left, hpart.right,
      (hk.finish hg last hr hpart.left hpart.right).tally⟩

end Pass

end Highlight
