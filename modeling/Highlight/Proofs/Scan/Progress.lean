import Highlight.Proofs.Scan.Kin
import Highlight.Scan.Pass

/-!
Progress. Whatever its rules answer, a pass then goes on by a byte or stays for them to look again
(`Pass.step_cases`). Rules that never go back and leave the end of the chunk where it is
(`Grammar.NeverGoesBack`) may ask to look again as they like: every step of a pass brings it nearer
to the end, and with as many steps as its cost says it gets there (`NeverGoesBack.ahead_run`). Most
rules do not even change what is ahead (`Grammar.GoesOn`).
-/

namespace Highlight

variable {σ ζ : Type}

/-- The cursor `d` stands no earlier than `c`, and its chunk ends at the same place. -/
structure Cursor.NotBefore (c d : Cursor σ) : Prop where
  pos : c.pos ≤ d.pos
  stop : d.pos + d.ahead.length = c.pos + c.ahead.length

namespace Cursor.NotBefore

variable {c d e : Cursor σ}

theorem trans (h : c.NotBefore d) (h' : d.NotBefore e) : c.NotBefore e :=
  ⟨Nat.le_trans h.pos h'.pos, h'.stop.trans h.stop⟩

/-- No more bytes are ahead than before. -/
theorem length_ahead_le (h : c.NotBefore d) : d.ahead.length ≤ c.ahead.length := by
  have hpos := h.pos
  have hstop := h.stop
  omega

theorem pos_lt (h : c.NotBefore d) (hlt : d.ahead.length < c.ahead.length) : c.pos < d.pos := by
  have hstop := h.stop
  omega

end Cursor.NotBefore

/-- The cursor `d` stands in the chunk where `c` does, or further on. -/
structure Cursor.Onward (c d : Cursor σ) : Prop where
  ahead : d.ahead <:+ c.ahead
  pos : d.pos + d.ahead.length = c.pos + c.ahead.length

namespace Cursor.Onward

variable {c d e : Cursor σ}

theorem refl (c : Cursor σ) : c.Onward c := ⟨List.suffix_refl _, rfl⟩

theorem trans (h : c.Onward d) (h' : d.Onward e) : c.Onward e :=
  ⟨h'.ahead.trans h.ahead, h'.pos.trans h.pos⟩

theorem forward [Palette σ] (c : Cursor σ) : c.Onward c.forward := by
  refine ⟨?_, pos_forward⟩
  rw [ahead_forward]
  exact List.tail_suffix _

theorem notBefore (h : c.Onward d) : c.NotBefore d := by
  have hle := h.ahead.length_le
  have hstop := h.pos
  exact ⟨by omega, hstop⟩

end Cursor.Onward

variable [Palette σ]

namespace Pass

variable {g : Grammar σ ζ} {p : Pass σ ζ}

/-- How many steps a pass takes at most: for every byte ahead, one and as many as there may be
rescans, less those that were made already. -/
def cost (p : Pass σ ζ) : Nat := (maxRescans + 1) * p.cursor.ahead.length - p.rescans

/-! ### Going on -/

theorem ahead_advance (g : Grammar σ ζ) (p : Pass σ ζ) :
    (p.advance g).cursor.ahead = p.cursor.ahead.tail := by
  unfold advance
  split_ifs <;> exact Cursor.ahead_forward

@[simp] theorem rescans_advance (g : Grammar σ ζ) (p : Pass σ ζ) : (p.advance g).rescans = 0 := rfl

/-- Going on, a pass forgets how often it looked again. -/
theorem advance_rescans (g : Grammar σ ζ) (p : Pass σ ζ) (n : Nat) :
    { p with rescans := n }.advance g = p.advance g := by
  unfold Pass.advance Pass.endLine
  split_ifs <;> rfl

/-- Over the end of a line, all that is new is the line. -/
theorem advance_over (g : Grammar σ ζ) (h : p.cursor.atLineEnd = true) :
    (p.advance g).cursor = p.cursor.newLine.forward ∧
      (p.advance g).cursor.line = p.cursor.line + 1 ∧
      (p.advance g).data = (g.endLine p.cursor p.data).2 ∧
      (p.advance g).ended = (p.cursor.line, (g.endLine p.cursor p.data).1) :: p.ended := by
  obtain ⟨t, -, hb⟩ := Cursor.ahead_of_atLineEnd h
  have hcursor : (p.advance g).cursor = p.cursor.newLine.forward := by
    simp [Pass.advance, h, Pass.endLine]
  refine ⟨hcursor, ?_, by simp [Pass.advance, h, Pass.endLine],
    by simp [Pass.advance, h, Pass.endLine]⟩
  rw [hcursor, Cursor.line_forward, if_pos (by exact hb)]
  rfl

/-- Within a line, all that is new is the place. -/
theorem advance_on (g : Grammar σ ζ) (h : p.cursor.atLineEnd ≠ true) :
    (p.advance g).cursor = p.cursor.forward ∧ (p.advance g).cursor.line = p.cursor.line ∧
      (p.advance g).ended = p.ended := by
  have hcursor : (p.advance g).cursor = p.cursor.forward := by simp [Pass.advance, h]
  refine ⟨hcursor, ?_, by simp [Pass.advance, h]⟩
  rw [hcursor, Cursor.line_forward, if_neg (Cursor.byte_of_not_atLineEnd h)]

/-- However a pass goes on, it goes on in its chunk. -/
theorem onward_advance (g : Grammar σ ζ) (p : Pass σ ζ) : p.cursor.Onward (p.advance g).cursor := by
  have hover := Cursor.Onward.forward p.cursor.newLine
  unfold Pass.advance
  split
  · exact ⟨hover.ahead, hover.pos⟩
  · exact .forward _

theorem advance_of_ne {b : Byte} {t : Text} (g : Grammar σ ζ) (ha : p.cursor.ahead = b :: t)
    (hb : b ≠ Byte.newline) :
    p.advance g = { p with cursor := p.cursor.forward, rescans := 0 } := by
  have hend : p.cursor.atLineEnd ≠ true := by
    intro hend
    obtain ⟨u, hu, -⟩ := Cursor.ahead_of_atLineEnd hend
    exact hb (List.cons.inj (ha.symm.trans hu)).1
  unfold Pass.advance
  rw [if_neg hend]

variable [DecidableEq σ]

/-! ### One step -/

/-- **What the rules answer.** The second is asked only where the first has left the plain
category. -/
theorem dispatch_cases (g : Grammar σ ζ) (c : Cursor σ) (z : ζ) :
    g.dispatch c z = g.leave c z ∨ (g.leave c z).cursor.state = Palette.plain ∧
      g.dispatch c z = g.enter (g.leave c z).cursor (g.leave c z).data := by
  unfold Grammar.dispatch
  cases g.leave c z with
  | again d y => exact .inl rfl
  | pass d y =>
    by_cases hplain : d.state = Palette.plain
    · exact .inr ⟨hplain, if_pos hplain⟩
    · exact .inl (if_neg hplain)

/-- The pass with its rules asked, and nothing done about their answer. -/
def asked (g : Grammar σ ζ) (p : Pass σ ζ) : Pass σ ζ :=
  { p with
    cursor := (g.dispatch p.cursor p.data).cursor
    data := (g.dispatch p.cursor p.data).data }

/-- **What a step can do.** After the rules were asked the pass goes on, or it stays for them to
look again, which is counted. -/
theorem step_cases (g : Grammar σ ζ) (p : Pass σ ζ) :
    p.step g = (p.asked g).advance g ∨
      ∃ n, n ≤ maxRescans ∧
        n = (if (p.asked g).cursor.pos = p.cursor.pos then p.rescans + 1 else 1) ∧
        p.step g = { p.asked g with rescans := n } := by
  unfold step asked
  cases g.dispatch p.cursor p.data with
  | pass c z => exact .inl rfl
  | again c z =>
    simp only [Flow.cursor, Flow.data]
    generalize hn : (if c.pos = p.cursor.pos then p.rescans + 1 else 1) = n
    by_cases hle : n ≤ maxRescans
    · exact .inr ⟨n, hle, hn.symm, if_pos hle⟩
    · rw [if_neg hle]
      exact .inl (advance_rescans g { p with cursor := c, data := z } n)

/-- What lets go of a byte is passed on. -/
theorem step_of_pass {d : Cursor σ} {z : ζ} (hrule : g.dispatch p.cursor p.data = .pass d z) :
    p.step g = Pass.advance g { p with cursor := d, data := z } := by
  rw [step, hrule]

/-- What asks to look again is heard, unless it has asked too often. -/
theorem step_of_again {d : Cursor σ} {z : ζ} (hrule : g.dispatch p.cursor p.data = .again d z)
    (hfew : (if d.pos = p.cursor.pos then p.rescans + 1 else 1) ≤ maxRescans) :
    p.step g = { p with
      cursor := d
      data := z
      rescans := if d.pos = p.cursor.pos then p.rescans + 1 else 1 } := by
  rw [step, hrule]
  exact if_pos hfew

omit [Palette σ] [DecidableEq σ] in
theorem ahead_length_pos (hmore : p.cursor.more = true) : 0 < p.cursor.ahead.length := by
  cases h : p.cursor.ahead <;> simp_all [Cursor.more]

/-- A step brings the pass nearer to the end. -/
theorem cost_step_lt (h : p.cursor.NotBefore (p.asked g).cursor) (hmore : p.cursor.more = true)
    (hfew : p.rescans ≤ maxRescans) :
    (p.step g).cost < p.cost ∧ (p.step g).rescans ≤ maxRescans := by
  have hpos := ahead_length_pos hmore
  have hle := h.length_ahead_le
  have hplace := h.stop
  rcases step_cases g p with hstep | ⟨n, hn, hcount, hstep⟩ <;> rw [hstep]
  · refine ⟨?_, Nat.zero_le _⟩
    rw [cost, cost, ahead_advance, List.length_tail, rescans_advance]
    simp only [maxRescans] at hfew ⊢
    omega
  · refine ⟨?_, hn⟩
    -- a pass that has not moved has one rescan less to make
    simp only [cost, maxRescans] at hfew hn ⊢
    split at hcount <;> omega

/-- Going on after an answer, a pass comes to a later place. -/
theorem pos_lt_advance (h : p.cursor.NotBefore (p.asked g).cursor) (hmore : p.cursor.more = true) :
    p.cursor.pos < ((p.asked g).advance g).cursor.pos := by
  have hforward := (onward_advance g (p.asked g)).notBefore
  refine (h.trans hforward).pos_lt ?_
  rw [ahead_advance, List.length_tail]
  have hle := h.length_ahead_le
  have hpos := ahead_length_pos hmore
  omega

/-! ### Whole runs -/

theorem run_succ (g : Grammar σ ζ) (n : Nat) (p : Pass σ ζ) (h : p.cursor.more = true) :
    p.run g (n + 1) = (p.step g).run g n := by rw [run, if_pos h]

theorem run_of_not_more (g : Grammar σ ζ) (n : Nat) (p : Pass σ ζ) (h : p.cursor.more = false) :
    p.run g n = p := by
  cases n with
  | zero => rfl
  | succ n => rw [run, if_neg (by simp [h])]

theorem run_add (g : Grammar σ ζ) (n l : Nat) (p : Pass σ ζ) :
    p.run g (n + l) = (p.run g n).run g l := by
  induction n generalizing p with
  | zero => rw [Nat.zero_add, run]
  | succ n ih =>
    by_cases h : p.cursor.more = true
    · rw [Nat.succ_add, run_succ g _ p h, run_succ g _ p h, ih]
    · rw [Bool.not_eq_true] at h
      rw [run_of_not_more g _ p h, run_of_not_more g _ p h, run_of_not_more g _ p h]

/-- A run that has come to the end stays there. -/
theorem run_of_le (g : Grammar σ ζ) {n l : Nat} {p : Pass σ ζ}
    (h : (p.run g n).cursor.ahead = []) (hle : n ≤ l) : p.run g l = p.run g n := by
  obtain ⟨i, rfl⟩ := Nat.exists_eq_add_of_le hle
  rw [run_add, run_of_not_more]
  simp [Cursor.more, h]

/-- Runs that have come to the end are the same. -/
theorem run_eq_of_ahead_nil {n m : Nat} (h : (p.run g n).cursor.ahead = [])
    (h' : (p.run g m).cursor.ahead = []) : p.run g n = p.run g m := by
  rcases Nat.le_total n m with hle | hle
  · exact (run_of_le g h hle).symm
  · exact run_of_le g h' hle

/-- What every step keeps, every run keeps. -/
theorem run_invariant (inv : Pass σ ζ → Prop)
    (hstep : ∀ p, inv p → p.cursor.more = true → inv (p.step g)) (h : inv p) (n : Nat) :
    inv (p.run g n) := by
  induction n generalizing p with
  | zero => exact h
  | succ n ih =>
    by_cases hmore : p.cursor.more = true
    · rw [run_succ g n p hmore]
      exact ih (hstep p h hmore)
    · rwa [run_of_not_more g _ p (by simpa using hmore)]

omit [Palette σ] [DecidableEq σ] in
/-- What leaving a run keeps is kept when the last run is left. -/
theorem leaveLast_invariant (inv : Pass σ ζ → Prop)
    (hleave : ∀ p, inv p → inv { p with
      cursor := (g.leave p.cursor p.data).cursor
      data := (g.leave p.cursor p.data).data })
    (h : inv p) (n : Nat) : inv (p.leaveLast g n) := by
  induction n generalizing p with
  | zero => exact h
  | succ n ih =>
    have hp := hleave p h
    unfold leaveLast
    cases hrule : g.leave p.cursor p.data with
    | pass c z =>
      rw [hrule] at hp
      exact hp
    | again c z =>
      rw [hrule] at hp
      exact ih hp

end Pass

open Pass

/-! ### Rules that never go back -/

/-- The rules of the grammar never go back, and never change where the chunk ends. What is ahead
they may change. -/
structure Grammar.NeverGoesBack (g : Grammar σ ζ) : Prop where
  begin : ∀ (c : Cursor σ) b, c.NotBefore (g.begin c b).1
  leave : ∀ (c : Cursor σ) z, c.NotBefore (g.leave c z).cursor
  enter : ∀ (c : Cursor σ) z, c.NotBefore (g.enter c z).cursor

/-- The rules of the grammar never go back, and leave what is ahead as it is. -/
structure Grammar.GoesOn (g : Grammar σ ζ) : Prop where
  begin : ∀ (c : Cursor σ) b, c.Onward (g.begin c b).1
  leave : ∀ (c : Cursor σ) z, c.Onward (g.leave c z).cursor
  enter : ∀ (c : Cursor σ) z, c.Onward (g.enter c z).cursor

namespace Grammar.NeverGoesBack

variable [DecidableEq σ] {g : Grammar σ ζ} {p : Pass σ ζ}

theorem dispatch (hg : g.NeverGoesBack) (c : Cursor σ) (z : ζ) :
    c.NotBefore (g.dispatch c z).cursor := by
  rcases dispatch_cases g c z with h | ⟨-, h⟩ <;> rw [h]
  · exact hg.leave c z
  · exact (hg.leave c z).trans (hg.enter _ _)

/-- **Every run comes to the end.** -/
theorem ahead_run (hg : g.NeverGoesBack) (hfew : p.rescans ≤ maxRescans) :
    (p.run g p.cost).cursor.ahead = [] := by
  have key : ∀ n (p : Pass σ ζ), p.rescans ≤ maxRescans → p.cost ≤ n →
      (p.run g n).cursor.ahead = [] := by
    intro n
    induction n with
    | zero =>
      intro p hfew hcost
      have hnil : p.cursor.ahead.length = 0 := by
        simp only [cost, maxRescans] at hfew hcost
        omega
      exact List.length_eq_zero_iff.1 hnil
    | succ n ih =>
      intro p hfew hcost
      by_cases hmore : p.cursor.more = true
      · obtain ⟨hlt, hfew'⟩ := cost_step_lt (g := g) (hg.dispatch _ _) hmore hfew
        rw [run_succ g n p hmore]
        exact ih _ hfew' (by omega)
      · rw [run_of_not_more g _ p (by simpa using hmore)]
        simpa [Cursor.more] using hmore
  exact key _ p hfew (Nat.le_refl _)

end Grammar.NeverGoesBack

namespace Grammar.GoesOn

variable {g : Grammar σ ζ}

omit [Palette σ] in
theorem neverGoesBack (hg : g.GoesOn) : g.NeverGoesBack :=
  ⟨fun c b => (hg.begin c b).notBefore, fun c z => (hg.leave c z).notBefore,
    fun c z => (hg.enter c z).notBefore⟩

variable [DecidableEq σ] {p : Pass σ ζ}

theorem dispatch (hg : g.GoesOn) (c : Cursor σ) (z : ζ) :
    c.Onward (g.dispatch c z).cursor := by
  rcases dispatch_cases g c z with h | ⟨-, h⟩ <;> rw [h]
  · exact hg.leave c z
  · exact (hg.leave c z).trans (hg.enter _ _)

theorem ahead_run (hg : g.GoesOn) (hfew : p.rescans ≤ maxRescans) :
    (p.run g p.cost).cursor.ahead = [] :=
  hg.neverGoesBack.ahead_run hfew

end Grammar.GoesOn

end Highlight
