import Highlight.Proofs.Run
import Highlight.Proofs.Scan.Kin

/-!
The runs of a cursor. A run is closed only when the next one begins; until then it may grow and take
another category. Closing it, the cursor lays it behind those closed before (`runs_eq_lay`,
`closedRuns_switch`). So whatever is done with a cursor, its runs lie end to end from where its
chunk begins to where it stands, and no two neighbours have the same category.
-/

namespace Highlight

variable {σ : Type}

namespace Cursor

/-! ### Closing runs -/

section Closing

variable [DecidableEq σ] {c : Cursor σ}

/-- The runs closed so far. -/
def closedRuns (c : Cursor σ) : List (Run σ) := Run.encode c.start c.closed.reverse

/-- The run in progress, which may be empty. -/
def openRun (c : Cursor σ) : Run σ where
  start := c.pos - c.word.length
  len := c.word.length
  category := c.state

omit [DecidableEq σ] in
theorem start_openRun (h : c.pos = c.start + c.spent.length) :
    c.openRun.start = c.start + c.closed.reverse.length := by
  simp only [spent, List.length_append, List.length_replicate] at h
  change c.pos - c.word.length = _
  rw [List.length_reverse]
  omega

omit [DecidableEq σ] in
theorem stop_openRun (h : c.pos = c.start + c.spent.length) : c.openRun.stop = c.pos := by
  simp only [spent, List.length_append, List.length_replicate] at h
  change c.pos - c.word.length + c.word.length = c.pos
  omega

/-- The runs are those closed so far with the run in progress laid behind them. -/
theorem runs_eq_lay (h : c.pos = c.start + c.spent.length) :
    c.runs = Run.lay c.openRun c.closedRuns := by
  have hopen : c.openRun = ⟨c.start + c.closed.reverse.length, c.word.length, c.state⟩ := by
    rw [← start_openRun h]
    rfl
  rw [runs, passed, List.reverse_append, List.reverse_replicate, Run.encode_append_replicate,
    hopen, closedRuns]

/-- The runs closed so far lie end to end, up to where the run in progress begins. -/
theorem tiles_closedRuns (h : c.pos = c.start + c.spent.length) :
    Run.Tiles c.start c.closedRuns c.openRun.start := by
  rw [start_openRun h]
  exact Run.tiles_encode _ _

/-- When a run begins, the one before it is closed. -/
theorem closedRuns_switch (c : Cursor σ) (s : σ) : (c.switch s).closedRuns = c.runs := rfl

/-- While it goes on, none is closed. -/
theorem closedRuns_forward [Palette σ] (c : Cursor σ) : c.forward.closedRuns = c.closedRuns := by
  unfold closedRuns forward
  split <;> rfl

end Closing

/-! ### Whatever is done with a cursor -/

/-- What can be done with a cursor. -/
inductive Op (σ : Type) where
  | forward
  | forwardN (n : Nat)
  | switch (s : σ)
  | recolor (s : σ)
  | forwardSwitch (s : σ)
  /-- What is remembered of the bytes behind is set. -/
  | look (t : Trail σ)

variable [Palette σ]

/-- The cursor after one operation. -/
def apply (c : Cursor σ) : Op σ → Cursor σ
  | .forward => c.forward
  | .forwardN n => c.forwardN n
  | .switch s => c.switch s
  | .recolor s => c.recolor s
  | .forwardSwitch s => c.forwardSwitch s
  | .look t => { c with trail := t }

/-- The cursor began at `start`, and has a category for every byte that it has passed since. -/
structure Paced (start : Nat) (c : Cursor σ) : Prop where
  start : c.start = start
  pos : c.pos = c.start + c.spent.length

namespace Paced

variable {start : Nat} {c : Cursor σ}

theorem forward (h : c.Paced start) : c.forward.Paced start := by
  refine ⟨start_forward.trans h.start, ?_⟩
  cases ha : c.ahead with
  | nil => rw [forward_nil ha, h.pos]
  | cons b t =>
    rw [spent_forward ha, pos_forward_cons ha, start_forward, h.pos, List.length_cons,
      Nat.add_assoc]

theorem forwardN (h : c.Paced start) (n : Nat) : (c.forwardN n).Paced start := by
  induction n generalizing c with
  | zero => exact h
  | succ n ih =>
    unfold Cursor.forwardN
    split
    · exact ih h.forward
    · exact h

omit [Palette σ] in
theorem switch (h : c.Paced start) (s : σ) : (c.switch s).Paced start :=
  ⟨h.start, by rw [spent_switch]; exact h.pos⟩

/-- Every operation keeps pace. -/
theorem apply (h : c.Paced start) (op : Op σ) : (c.apply op).Paced start := by
  cases op with
  | forward => exact h.forward
  | forwardN n => exact h.forwardN n
  | switch s => exact h.switch s
  | recolor s => exact ⟨h.start, by simpa [spent, Cursor.apply, recolor] using h.pos⟩
  | forwardSwitch s => exact h.forward.switch s
  | look t => exact ⟨h.start, h.pos⟩

end Paced

end Cursor

end Highlight
