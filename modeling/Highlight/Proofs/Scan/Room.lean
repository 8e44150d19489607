import Highlight.Proofs.Scan.Fresh

/-!
Scans with more or less room for their data. Two grammars keep to the same room if, as long as there
has been enough of it for both, the data of one are those of the other but for how much room they
have, and every rule goes on at the same places (`Grammar.SharesRoom`). How much room a scan needs
is only known at its end; but room that is enough then was enough all along, and so two scans of a
text are the same if what the first one came to at its end would have had room in both
(`SharesRoom.fresh_moved`).
-/

namespace Highlight

variable {σ ζ : Type}

/-- Two ways to keep the same data, which differ in how much room there is. -/
structure Room (ζ : Type) where
  /-- The data as they are kept the other way. -/
  moved : ζ → ζ
  /-- What always holds of the data. -/
  sound : ζ → Prop
  /-- So far there was enough room for the data, in both ways. -/
  enough : ζ → Prop

/-- What a rule asks for, with its data kept another way. -/
def Flow.mapData (k : ζ → ζ) : Flow σ ζ → Flow σ ζ
  | .pass c z => .pass c (k z)
  | .again c z => .again c (k z)

@[simp] theorem Flow.mapData_pass (k : ζ → ζ) (c : Cursor σ) (z : ζ) :
    (pass c z).mapData k = pass c (k z) := rfl

@[simp] theorem Flow.mapData_again (k : ζ → ζ) (c : Cursor σ) (z : ζ) :
    (again c z).mapData k = again c (k z) := rfl

@[simp] theorem Flow.mapData_ite (k : ζ → ζ) (p : Prop) [Decidable p] (a b : Flow σ ζ) :
    (if p then a else b).mapData k = if p then a.mapData k else b.mapData k := apply_ite _ p a b

/-- A rule, asked with the data `z`, answers `r`, and asked with them kept the other way answers
`r'`: the same, if there is enough room for what it leaves. -/
structure Flow.SharesRoom (w : Room ζ) (z : ζ) (r r' : Flow σ ζ) : Prop where
  sound : w.sound z → w.sound r.data
  before : w.enough r.data → w.enough z
  same : w.sound z → w.enough r.data → r' = r.mapData w.moved

/-- Rules that ask the same question first are compared answer by answer. -/
theorem Flow.SharesRoom.ite {w : Room ζ} {z : ζ} {p : Prop} [Decidable p] {a a' b b' : Flow σ ζ}
    (h : p → a.SharesRoom w z a') (h' : ¬p → b.SharesRoom w z b') :
    (if p then a else b).SharesRoom w z (if p then a' else b') := by
  by_cases hp : p
  · rw [if_pos hp, if_pos hp]
    exact h hp
  · rw [if_neg hp, if_neg hp]
    exact h' hp

/-- The grammars answer the same, as long as there is enough room for the data. -/
structure Grammar.SharesRoom (w : Room ζ) (g g' : Grammar σ ζ) : Prop where
  begin : ∀ c before, g'.begin c before = ((g.begin c before).1, w.moved (g.begin c before).2)
  sound_begin : ∀ c before, w.sound (g.begin c before).2
  leave : ∀ c z, (g.leave c z).SharesRoom w z (g'.leave c (w.moved z))
  enter : ∀ c z, (g.enter c z).SharesRoom w z (g'.enter c (w.moved z))
  endLine : ∀ c z, g'.endLine c (w.moved z) = ((g.endLine c z).1, w.moved (g.endLine c z).2)
  sound_endLine : ∀ c {z}, w.sound z → w.sound (g.endLine c z).2
  before_endLine : ∀ c {z}, w.enough (g.endLine c z).2 → w.enough z
  nesting : ∀ z, g'.nesting (w.moved z) = g.nesting z

namespace Pass

/-- The pass with its data kept the other way. -/
def moved (w : Room ζ) (p : Pass σ ζ) : Pass σ ζ := { p with data := w.moved p.data }

/-- What `p` comes to is `q`, and with its data kept the other way it comes to `q'`: the same, if
there is enough room at the end. -/
structure SharesRoom (w : Room ζ) (p q q' : Pass σ ζ) : Prop where
  sound : w.sound p.data → w.sound q.data
  before : w.enough q.data → w.enough p.data
  same : w.sound p.data → w.enough q.data → q' = q.moved w

variable {w : Room ζ} {p q q' : Pass σ ζ}

theorem SharesRoom.refl (p : Pass σ ζ) : p.SharesRoom w p (p.moved w) :=
  ⟨id, id, fun _ _ => rfl⟩

/-- Room that is enough in the end was enough on the way. -/
theorem SharesRoom.trans {f k : Pass σ ζ → Pass σ ζ} (h : p.SharesRoom w q q')
    (hf : q.SharesRoom w (f q) (k (q.moved w))) : p.SharesRoom w (f q) (k q') where
  sound hp := hf.sound (h.sound hp)
  before he := h.before (hf.before he)
  same hp he := by
    rw [h.same hp (hf.before he)]
    exact hf.same (h.sound hp) he

end Pass

namespace Grammar.SharesRoom

variable [Palette σ] {w : Room ζ} {g g' : Grammar σ ζ}

/-! ### One step -/

theorem endsLine (h : g.SharesRoom w g') (p : Pass σ ζ) :
    p.SharesRoom w (p.endLine g) ((p.moved w).endLine g') where
  sound := h.sound_endLine p.cursor
  before := h.before_endLine p.cursor
  same _ _ := by simp only [Pass.endLine, Pass.moved, h.endLine]

theorem advance (h : g.SharesRoom w g') (p : Pass σ ζ) :
    p.SharesRoom w (p.advance g) ((p.moved w).advance g') := by
  by_cases hend : p.cursor.atLineEnd = true
  · have hend' : (p.moved w).cursor.atLineEnd = true := hend
    unfold Pass.advance
    rw [if_pos hend, if_pos hend']
    exact (h.endsLine p).trans
      (f := fun p => { p with cursor := p.cursor.forward, rescans := 0 })
      (k := fun p => { p with cursor := p.cursor.forward, rescans := 0 }) ⟨id, id, fun _ _ => rfl⟩
  · have hend' : ¬(p.moved w).cursor.atLineEnd = true := hend
    unfold Pass.advance
    rw [if_neg hend, if_neg hend']
    exact ⟨id, id, fun _ _ => rfl⟩

variable [DecidableEq σ]

theorem dispatch (h : g.SharesRoom w g') (c : Cursor σ) (z : ζ) :
    (g.dispatch c z).SharesRoom w z (g'.dispatch c (w.moved z)) := by
  have hleave := h.leave c z
  unfold Grammar.dispatch
  cases hr : g.leave c z with
  | again d y =>
    rw [hr] at hleave
    refine ⟨hleave.sound, hleave.before, fun hz he => ?_⟩
    rw [hleave.same hz he, Flow.mapData_again]
  | pass d y =>
    rw [hr] at hleave
    by_cases hplain : d.state = Palette.plain
    · have henter := h.enter d y
      simp only [if_pos hplain]
      refine ⟨fun hz => henter.sound (hleave.sound hz),
        fun he => hleave.before (henter.before he), fun hz he => ?_⟩
      rw [hleave.same hz (henter.before he), Flow.mapData]
      simp only [if_pos hplain]
      exact henter.same (hleave.sound hz) he
    · simp only [if_neg hplain]
      refine ⟨hleave.sound, hleave.before, fun hz he => ?_⟩
      rw [hleave.same hz he, Flow.mapData_pass]
      exact if_neg hplain

theorem step (h : g.SharesRoom w g') (p : Pass σ ζ) :
    p.SharesRoom w (p.step g) ((p.moved w).step g') := by
  have hask := h.dispatch p.cursor p.data
  unfold Pass.step
  cases hr : g.dispatch p.cursor p.data with
  | pass c z =>
    rw [hr] at hask
    have hgo := h.advance { p with cursor := c, data := z }
    refine ⟨fun hp => hgo.sound (hask.sound hp), fun he => hask.before (hgo.before he),
      fun hp he => ?_⟩
    have hsame : g'.dispatch (p.moved w).cursor (p.moved w).data = _ :=
      hask.same hp (hgo.before he)
    rw [hsame, Flow.mapData_pass]
    exact hgo.same (hask.sound hp) he
  | again c z =>
    rw [hr] at hask
    simp only
    generalize hn : (if c.pos = p.cursor.pos then p.rescans + 1 else 1) = n
    have hgo : Pass.SharesRoom w { p with cursor := c, data := z, rescans := n }
        (if n ≤ maxRescans then { p with cursor := c, data := z, rescans := n }
          else { p with cursor := c, data := z, rescans := n }.advance g)
        (if n ≤ maxRescans then
          (Pass.moved w { p with cursor := c, data := z, rescans := n })
        else (Pass.moved w { p with cursor := c, data := z, rescans := n }).advance g') := by
      split
      · exact .refl _
      · exact h.advance _
    refine ⟨fun hp => hgo.sound (hask.sound hp), fun he => hask.before (hgo.before he),
      fun hp he => ?_⟩
    have hsame : g'.dispatch (p.moved w).cursor (p.moved w).data = _ :=
      hask.same hp (hgo.before he)
    rw [hsame, Flow.mapData_again]
    rw [← hgo.same (hask.sound hp) he, ← hn]
    rfl

/-! ### The whole scan -/

/-- **What every step shares, a whole run shares.** -/
theorem run (h : g.SharesRoom w g') (n : Nat) (p : Pass σ ζ) :
    p.SharesRoom w (p.run g n) ((p.moved w).run g' n) := by
  induction n generalizing p with
  | zero => exact .refl p
  | succ n ih =>
    by_cases hmore : p.cursor.more = true
    · have hmore' : (p.moved w).cursor.more = true := hmore
      rw [Pass.run_succ g n p hmore, Pass.run_succ g' n _ hmore']
      exact (h.step p).trans (ih (p.step g))
    · rw [Bool.not_eq_true] at hmore
      have hmore' : (p.moved w).cursor.more = false := hmore
      rw [Pass.run_of_not_more g _ p hmore, Pass.run_of_not_more g' _ _ hmore']
      exact .refl p

omit [Palette σ] [DecidableEq σ] in
theorem leaveLast (h : g.SharesRoom w g') (n : Nat) (p : Pass σ ζ) :
    p.SharesRoom w (p.leaveLast g n) ((p.moved w).leaveLast g' n) := by
  induction n generalizing p with
  | zero => exact .refl p
  | succ n ih =>
    have hleave := h.leave p.cursor p.data
    unfold Pass.leaveLast
    cases hr : g.leave p.cursor p.data with
    | pass c z =>
      rw [hr] at hleave
      refine ⟨hleave.sound, hleave.before, fun hp he => ?_⟩
      have hsame : g'.leave (p.moved w).cursor (p.moved w).data = _ := hleave.same hp he
      rw [hsame, Flow.mapData_pass]
      rfl
    | again c z =>
      rw [hr] at hleave
      have hgo := ih { p with cursor := c, data := z }
      refine ⟨fun hp => hgo.sound (hleave.sound hp), fun he => hleave.before (hgo.before he),
        fun hp he => ?_⟩
      have hsame : g'.leave (p.moved w).cursor (p.moved w).data = _ :=
        hleave.same hp (hgo.before he)
      rw [hsame, Flow.mapData_again]
      exact hgo.same (hleave.sound hp) he

omit [DecidableEq σ] in
theorem finish (h : g.SharesRoom w g') (p : Pass σ ζ) (last : Bool) :
    p.SharesRoom w (p.finish g last) ((p.moved w).finish g' last) := by
  unfold Pass.finish
  split
  · exact (h.leaveLast _ p).trans (h.endsLine _)
  · exact .refl p

/-- **Room that is enough at the end of a text makes no difference.** -/
theorem fresh_moved (h : g.SharesRoom w g') (text : Text)
    (he : w.enough (Pass.fresh g text).data) :
    Pass.fresh g' text = (Pass.fresh g text).moved w := by
  have hfirst : Pass.first g' text = (Pass.first g text).moved w := by
    simp only [Pass.first, Pass.opened, Pass.moved, h.begin]
  rw [Pass.fresh_eq] at he
  rw [Pass.fresh_eq, Pass.fresh_eq, hfirst]
  exact ((h.run _ _).trans (h.finish _ _)).same (h.sound_begin _ _) he

end Grammar.SharesRoom

end Highlight
