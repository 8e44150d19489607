import Highlight.Proofs.Scan.Regime

/-!
Two passes in lockstep. Where two texts agree, two passes that begin at places of a kind, with data
that cannot be told apart, take the same steps: they make the same moves, look again equally often,
and end the same lines with the same states. `Kin.step` says so of one step, and `Kin.run` of
all steps up to where the texts part, with a bound on their number. `Kin.leaveLast` carries it
over the end of the text.
-/

namespace Highlight

open Byte

variable {σ ζ : Type} [Palette σ]

namespace Pass

/-- Where one of two passes began to run in lockstep with the other. -/
structure Origin (σ : Type) where
  /-- The offset at which its chunk begins. -/
  start : Nat
  /-- The categories found by then, the last one first. -/
  found : List σ
  /-- The lines ended by then. -/
  ended : List (Nat × LineState)
  /-- The line from which lines are counted. -/
  line : Nat
  /-- The text that follows what both passes read. -/
  rest : Text

/-- The passes are at places of a kind, and since they run in lockstep they have ended the same
lines. -/
structure Kin (r : Regime σ ζ) (o o' : Origin σ) (p p' : Pass σ ζ) : Prop where
  cursor : Cursor.Kin r.toConduct o.found o'.found p.cursor p'.cursor
  start : p.cursor.start = o.start ∧ p'.cursor.start = o'.start
  line : ∃ i, p.cursor.line = o.line + i ∧ p'.cursor.line = o'.line + i
  like : r.like p.cursor.state p.data p'.data
  fits : r.fits p.cursor.state p.data
  rescans : p.rescans = p'.rescans
  ended : ∃ e : List (Nat × LineState), p.ended = e.map (Prod.map (o.line + ·) id) ++ o.ended ∧
    p'.ended = e.map (Prod.map (o'.line + ·) id) ++ o'.ended

/-- The passes still have the same bytes ahead, up to where their texts part. -/
def Together (o o' : Origin σ) (p p' : Pass σ ζ) : Prop :=
  Text.Agree o.rest o'.rest p.cursor.ahead p'.cursor.ahead

/-- The passes have come to the place where their texts part. -/
structure Part (o o' : Origin σ) (p p' : Pass σ ζ) : Prop where
  left : p.cursor.ahead = o.rest
  right : p'.cursor.ahead = o'.rest

/-- The pass may ask the rules: a name in progress is one, and a rescan is still allowed. -/
structure Ready (r : Regime σ ζ) (p : Pass σ ζ) : Prop where
  name : r.named p.cursor.state = true → p.cursor.HasName
  few : p.rescans ≤ maxRescans

variable {g : Grammar σ ζ} {r : Regime σ ζ} {o o' : Origin σ} {p p' : Pass σ ζ}

omit [Palette σ] in
theorem Kin.alike (hk : Kin r o o' p p') (ha : Together o o' p p') :
    Cursor.Alike r.toConduct o.found o'.found o.rest o'.rest p.cursor p'.cursor := ⟨hk.cursor, ha⟩

/-- A pass seen as beginning here, with nothing to follow what it reads. -/
def here (p : Pass σ ζ) : Origin σ where
  start := p.cursor.start
  found := p.cursor.closed
  ended := []
  line := 0
  rest := []

theorem Kin.refl (hg : g.Keeps r) (hf : r.fits p.cursor.state p.data) :
    Kin r p.here p.here p p := by
  have hmap : p.ended.map (Prod.map (0 + ·) id) = p.ended := by
    simp only [Nat.zero_add]
    exact List.map_id _
  have hended : p.ended = p.ended.map (Prod.map (p.here.line + ·) id) ++ p.here.ended := by
    rw [here, hmap, List.append_nil]
  exact ⟨.refl _ _, ⟨rfl, rfl⟩, ⟨p.cursor.line, (Nat.zero_add _).symm, (Nat.zero_add _).symm⟩,
    hg.like_refl _ _, hf, rfl, p.ended, hended, hended⟩

omit [Palette σ] in
theorem together_here (p : Pass σ ζ) : Together p.here p.here p p := .refl _

/-! ### The way on -/

/-- Two passes go on alike within the line. -/
theorem Kin.advance_within (hk : Kin r o o' p p') (ha : Together o o' p p') (hr : r.Rests p.cursor)
    (hend : p.cursor.atLineEnd ≠ true) :
    Kin r o o' (p.advance g) (p'.advance g) ∧ (p.advance g).Ready r ∧
      Together o o' (p.advance g) (p'.advance g) := by
  have halike := hk.alike ha
  obtain ⟨i, hi, hi'⟩ := hk.line
  obtain ⟨e, he, he'⟩ := hk.ended
  have hb := Cursor.byte_of_not_atLineEnd hend
  have hcursor : (p.advance g).cursor = p.cursor.forward := by simp [Pass.advance, hend]
  refine ⟨?_, ⟨fun hn => ?_, Nat.zero_le _⟩, ?_⟩
  · unfold Pass.advance
    rw [← halike.atLineEnd_eq, if_neg hend, if_neg hend]
    refine ⟨hk.cursor.forward ha.head?_eq, ?_, ⟨i, ?_, ?_⟩, ?_, ?_, rfl, e, he, he'⟩
    · rw [Cursor.start_forward, Cursor.start_forward]
      exact hk.start
    · rwa [Cursor.line_forward, if_neg hb]
    · rwa [Cursor.line_forward, if_neg (halike.byte_eq ▸ hb)]
    · simpa using hk.like
    · simpa using hk.fits
  · rw [hcursor] at hn ⊢
    rw [Cursor.state_forward] at hn
    obtain ⟨h₀, hs⟩ := hr.named hn
    cases h : p.cursor.ahead with
    | nil => simp [Cursor.byte, Cursor.peek, h] at h₀
    | cons b t =>
      refine ⟨b, p.cursor.word, by simp [Cursor.forward_cons h], ?_⟩
      simpa [Cursor.byte, Cursor.peek, h] using hs
  · rw [Together, ahead_advance, ahead_advance]
    exact ha.tail hb

/-- Two passes go on alike over the end of the line, where their texts may part. -/
theorem Kin.advance_over (hg : g.Keeps r) (hk : Kin r o o' p p') (ha : Together o o' p p')
    (hr : r.Rests p.cursor) (hend : p.cursor.atLineEnd = true) :
    Kin r o o' (p.advance g) (p'.advance g) ∧ (p.advance g).Ready r ∧
      (Together o o' (p.advance g) (p'.advance g) ∨ Part o o' (p.advance g) (p'.advance g)) := by
  have halike := hk.alike ha
  obtain ⟨i, hi, hi'⟩ := hk.line
  obtain ⟨e, he, he'⟩ := hk.ended
  obtain ⟨t, hahead, hb⟩ := Cursor.ahead_of_atLineEnd hend
  obtain ⟨hst, hl, hf⟩ := hg.endLine hk.cursor hk.fits hk.like
  refine ⟨?_, ⟨fun hn => ?_, Nat.zero_le _⟩, ?_⟩
  · unfold Pass.advance
    rw [← halike.atLineEnd_eq, if_pos hend, if_pos hend]
    refine ⟨hk.cursor.newLine.forward ha.head?_eq, ?_, ⟨i + 1, ?_, ?_⟩, ?_, ?_, rfl,
      (i, (g.endLine p.cursor p.data).1) :: e, ?_, ?_⟩
    · rw [Cursor.start_forward, Cursor.start_forward]
      exact hk.start
    · rw [Cursor.line_forward, if_pos (by exact hb)]
      exact congrArg (· + 1) hi
    · rw [Cursor.line_forward, if_pos (by exact halike.byte_eq ▸ hb)]
      exact congrArg (· + 1) hi'
    · simpa [Pass.endLine, Cursor.newLine] using hl
    · simpa [Pass.endLine, Cursor.newLine] using hf
    · simp [Pass.endLine, he, hi]
    · simp [Pass.endLine, he', hi', hst]
  · have hnamed := hg.named_of_crosses (hr.crosses hb)
    simp [Pass.advance, hend, Pass.endLine, Cursor.newLine, hnamed] at hn
  · rcases ha.tail_newline (by rw [hahead]; rfl) with h | ⟨h, h'⟩
    · left
      rwa [Together, ahead_advance, ahead_advance]
    · exact .inr ⟨by rw [ahead_advance, h], by rw [ahead_advance, h']⟩

/-- A pass goes on alike, over the end of the line or not. -/
theorem Kin.advance (hg : g.Keeps r) (hk : Kin r o o' p p') (ha : Together o o' p p')
    (hr : r.Rests p.cursor) :
    Kin r o o' (p.advance g) (p'.advance g) ∧ (p.advance g).Ready r ∧
      (Together o o' (p.advance g) (p'.advance g) ∨ Part o o' (p.advance g) (p'.advance g)) := by
  by_cases hend : p.cursor.atLineEnd = true
  · exact hk.advance_over hg ha hr hend
  · obtain ⟨h₁, h₂, h₃⟩ := hk.advance_within (g := g) ha hr hend
    exact ⟨h₁, h₂, .inl h₃⟩

/-! ### One step -/

/-- Where the rules have left the cursors, the passes are still of a kind. -/
theorem Kin.moved {u u' : Text} {d d' : Cursor σ} {z z' : ζ} {n n' : Nat} (hk : Kin r o o' p p')
    (halike : Cursor.Alike r.toConduct o.found o'.found u u' p.cursor p'.cursor)
    (moves : Cursor.InStep r.toConduct p.cursor p'.cursor d d') (like : r.like d.state z z')
    (fits : r.fits d.state z) (hn : n = n') :
    Kin r o o' { p with cursor := d, data := z, rescans := n }
      { p' with cursor := d', data := z', rescans := n' } := by
  obtain ⟨i, hi, hi'⟩ := hk.line
  obtain ⟨hl, hl'⟩ := moves.line_eq halike
  obtain ⟨hs, hs'⟩ := moves.start_eq
  exact ⟨(moves.alike halike).toKin, ⟨hs.trans hk.start.1, hs'.trans hk.start.2⟩,
    ⟨i, hl.trans hi, hl'.trans hi'⟩, like, fits, hn, hk.ended⟩

/-- From there they go on alike. -/
theorem Kin.moved_advance {d d' : Cursor σ} {z z' : ζ} (hg : g.Keeps r) (hk : Kin r o o' p p')
    (ha : Together o o' p p') (moves : Cursor.InStep r.toConduct p.cursor p'.cursor d d')
    (like : r.like d.state z z') (fits : r.fits d.state z) (rests : r.Rests d) :
    let q : Pass σ ζ := { p with cursor := d, data := z, rescans := 0 }
    let q' : Pass σ ζ := { p' with cursor := d', data := z', rescans := 0 }
    Kin r o o' (q.advance g) (q'.advance g) ∧ (q.advance g).Ready r ∧
      (Together o o' (q.advance g) (q'.advance g) ∨
        Part o o' (q.advance g) (q'.advance g) ∧ (q.advance g).rescans = 0) := by
  intro q q'
  have halike := hk.alike ha
  obtain ⟨h₁, h₂, h₃⟩ :=
    (hk.moved halike moves like fits (rfl : 0 = 0)).advance hg (moves.alike halike).ahead rests
  exact ⟨h₁, h₂, h₃.imp_right fun h => ⟨h, rfl⟩⟩

variable [DecidableEq σ]

/-- **One step in lockstep.** Two passes take a step alike; it brings them nearer to the end, and
perhaps to the place where the texts part. -/
theorem Kin.step (hg : g.Keeps r) (hk : Kin r o o' p p') (hp : p.Ready r)
    (ha : Together o o' p p') (hmore : p.cursor.more = true) :
    Kin r o o' (p.step g) (p'.step g) ∧ (p.step g).Ready r ∧ (p.step g).cost < p.cost ∧
      (Together o o' (p.step g) (p'.step g) ∨
        Part o o' (p.step g) (p'.step g) ∧ (p.step g).rescans = 0) := by
  have halike := hk.alike ha
  have ht := hg.dispatch halike hk.fits hp.name hk.like
  obtain ⟨hcost, -⟩ := cost_step_lt (g := g) ht.onward.notBefore hmore hp.few
  suffices h : Kin r o o' (p.step g) (p'.step g) ∧ (p.step g).Ready r ∧
      (Together o o' (p.step g) (p'.step g) ∨
        Part o o' (p.step g) (p'.step g) ∧ (p.step g).rescans = 0) from ⟨h.1, h.2.1, hcost, h.2.2⟩
  unfold Pass.step
  revert ht
  generalize g.dispatch p.cursor p.data = f
  generalize g.dispatch p'.cursor p'.data = f'
  intro ht
  cases ht with
  | pass moves like fits rests =>
    simpa only [← advance_rescans g _ p.rescans, ← advance_rescans g _ p'.rescans] using
      hk.moved_advance hg ha moves like fits rests
  | @again d d' z z' moves like fits crosses =>
    have hnamed := hg.named_of_crosses crosses
    simp only [← hk.rescans, ← moves.same_pos halike]
    generalize (if d.pos = p.cursor.pos then p.rescans + 1 else 1) = n
    by_cases hle : n ≤ maxRescans
    · simp only [if_pos hle]
      exact ⟨hk.moved halike moves like fits rfl, ⟨by simp [hnamed], hle⟩,
        .inl (moves.alike halike).ahead⟩
    · simp only [if_neg hle]
      simpa only [← advance_rescans g _ n] using
        hk.moved_advance hg ha moves like fits ⟨fun _ => crosses, by simp [hnamed]⟩

/-! ### Whole runs -/

/-- **A run in lockstep.** Two passes come alike to the place where their texts part, after as many
steps as the bytes up to there can cost. -/
theorem Kin.run (hg : g.Keeps r) (hk : Kin r o o' p p') (hp : p.Ready r)
    (ha : Together o o' p p') :
    ∃ n, n + (p.run g n).cost ≤ p.cost ∧ Kin r o o' (p.run g n) (p'.run g n) ∧
      (p.run g n).Ready r ∧ Part o o' (p.run g n) (p'.run g n) ∧
      (o.rest = [] ∨ (p.run g n).rescans = 0) := by
  induction hc : p.cost using Nat.strongRecOn generalizing p p' with
  | ind c ih =>
    subst hc
    by_cases hmore : p.cursor.more = true
    · have hmore' : p'.cursor.more = true := by rwa [← (hk.alike ha).more_eq]
      obtain ⟨hk₁, hp₁, hlt, hend⟩ := hk.step hg hp ha hmore
      rcases hend with ha₁ | ⟨hpart, hr⟩
      · obtain ⟨n, hn, h⟩ := ih _ hlt hk₁ hp₁ ha₁ rfl
        refine ⟨n + 1, ?_, ?_⟩
        · rw [run_succ g n p hmore]
          omega
        · rwa [run_succ g n p hmore, run_succ g n p' hmore']
      · refine ⟨1, ?_, ?_⟩
        · rw [run_succ g 0 p hmore, Pass.run]
          omega
        · rw [run_succ g 0 p hmore, run_succ g 0 p' hmore', Pass.run, Pass.run]
          exact ⟨hk₁, hp₁, hpart, .inr hr⟩
    · have hnil : p.cursor.ahead = [] := by simpa [Cursor.more] using hmore
      obtain ⟨l, h₁, h₂, hl⟩ := ha
      rw [hnil] at h₁
      obtain ⟨rfl, hu⟩ := List.append_eq_nil_iff.1 h₁.symm
      exact ⟨0, by simp [Pass.run], hk, hp, ⟨hnil.trans hu.symm, h₂⟩, .inl hu⟩

/-! ### The end of the text -/

omit [DecidableEq σ] in
/-- At the end of the texts two passes leave their last run alike. -/
theorem Kin.leaveLast (hg : g.Keeps r) (n : Nat) (hk : Kin r o o' p p')
    (hn : r.named p.cursor.state = true → p.cursor.HasName) (ha : p.cursor.ahead = [])
    (ha' : p'.cursor.ahead = []) : Kin r o o' (p.leaveLast g n) (p'.leaveLast g n) := by
  induction n generalizing p p' with
  | zero => exact hk
  | succ n ih =>
    have halike : Cursor.Alike r.toConduct o.found o'.found [] [] p.cursor p'.cursor :=
      ⟨hk.cursor, by rw [ha, ha']; exact .refl []⟩
    have ht := hg.leave halike hk.fits hn hk.like
    unfold Pass.leaveLast
    revert ht
    generalize g.leave p.cursor p.data = f
    generalize g.leave p'.cursor p'.data = f'
    intro ht
    cases ht with
    | pass moves like fits _ => exact hk.moved halike moves like fits hk.rescans
    | @again d d' z z' moves like fits crosses =>
      have hd := moves.alike halike
      have hnil : d.ahead = [] := List.suffix_nil.1 (ha ▸ moves.ahead_suffix)
      refine ih (hk.moved halike moves like fits hk.rescans)
        (by simp [hg.named_of_crosses crosses]) hnil ?_
      rw [← List.isEmpty_iff, ← hd.ahead.isEmpty_eq, hnil, List.isEmpty_nil]

omit [DecidableEq σ] in
/-- Two passes end a last line without a newline alike. -/
theorem Kin.endLine (hg : g.Keeps r) (hk : Kin r o o' p p') :
    Kin r o o' (p.endLine g) (p'.endLine g) := by
  obtain ⟨hst, hl, hf⟩ := hg.endLine hk.cursor hk.fits hk.like
  obtain ⟨i, hi, hi'⟩ := hk.line
  obtain ⟨e, he, he'⟩ := hk.ended
  exact ⟨hk.cursor.newLine, hk.start, ⟨i, hi, hi'⟩, hl, hf, hk.rescans,
    (i, (g.endLine p.cursor p.data).1) :: e, by simp [Pass.endLine, he, hi],
    by simp [Pass.endLine, he', hi', hst]⟩

end Pass

end Highlight
