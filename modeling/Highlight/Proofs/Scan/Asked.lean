import Highlight.Proofs.Language.Toy
import Highlight.Proofs.Scan.Part
import Mathlib.Algebra.BigOperators.Group.Finset.Basic
import Mathlib.Algebra.Order.BigOperators.Group.Finset
import Mathlib.Order.Interval.Finset.Nat

/-!
How often the rules are asked. A grammar with a log (`Grammar.logged`) does what the grammar does,
and writes down every place at which it is asked whether the run in progress ends; but for the log
its scans are the same (`Pass.unlogged_ofPart`). Rules that never go back are asked once at every
place of a part and again as often as they may look again, whether they move on or not
(`Seldom.step`). So the loop of a scan comes to the end of its part, however the rules answer, and
asks at most `maxRescans + 1` times for every byte.
-/

namespace Highlight

open Byte

variable {σ ζ : Type}

/-! ### Keeping a log -/

/-- The answer with a log beside its data. -/
def Flow.withLog (l : List Nat) : Flow σ ζ → Flow σ (ζ × List Nat)
  | pass c z => pass c (z, l)
  | again c z => again c (z, l)

@[simp] theorem Flow.cursor_withLog (l : List Nat) (f : Flow σ ζ) :
    (f.withLog l).cursor = f.cursor := by cases f <;> rfl

@[simp] theorem Flow.data_withLog (l : List Nat) (f : Flow σ ζ) :
    (f.withLog l).data = (f.data, l) := by cases f <;> rfl

/-- The grammar with a log of the places at which it is asked whether the run in progress ends, the
last one first. -/
def Grammar.logged (g : Grammar σ ζ) : Grammar σ (ζ × List Nat) where
  begin c before := ((g.begin c before).1, (g.begin c before).2, [])
  leave c z := (g.leave c z.1).withLog (c.pos :: z.2)
  enter c z := (g.enter c z.1).withLog z.2
  endLine c z := ((g.endLine c z.1).1, (g.endLine c z.1).2, z.2)
  nesting z := g.nesting z.1
  folding := g.folding

/-- Every time that the run in progress might end is an entry in the log. -/
theorem Grammar.leave_logged (g : Grammar σ ζ) (c : Cursor σ) (z : ζ × List Nat) :
    g.logged.leave c z = (g.leave c z.1).withLog (c.pos :: z.2) := rfl

/-- A log goes nowhere. -/
theorem Grammar.NeverGoesBack.logged {g : Grammar σ ζ} (hg : g.NeverGoesBack) :
    g.logged.NeverGoesBack where
  begin := hg.begin
  leave c z := by
    rw [Grammar.logged, Flow.cursor_withLog]
    exact hg.leave c z.1
  enter c z := by
    rw [Grammar.logged, Flow.cursor_withLog]
    exact hg.enter c z.1

variable [Palette σ]

/-- Both rules at one place are one entry in the log. -/
theorem Grammar.dispatch_logged [DecidableEq σ] (g : Grammar σ ζ) (c : Cursor σ)
    (z : ζ × List Nat) :
    g.logged.dispatch c z = (g.dispatch c z.1).withLog (c.pos :: z.2) := by
  unfold Grammar.dispatch
  rw [leave_logged]
  cases g.leave c z.1 with
  | again d y => rfl
  | pass d y =>
    simp only [Flow.withLog]
    by_cases hplain : d.state = Palette.plain
    · rw [if_pos hplain, if_pos hplain]
      rfl
    · rw [if_neg hplain, if_neg hplain]

namespace Pass

variable {g : Grammar σ ζ} {text : Text} {start stop len : Nat}

/-- The places at which the rules were asked. -/
def log (p : Pass σ (ζ × List Nat)) : List Nat := p.data.2

/-- The pass without its log. -/
def unlogged (p : Pass σ (ζ × List Nat)) : Pass σ ζ where
  cursor := p.cursor
  data := p.data.1
  rescans := p.rescans
  ended := p.ended

theorem unlogged_advance (g : Grammar σ ζ) (p : Pass σ (ζ × List Nat)) :
    (p.advance g.logged).unlogged = p.unlogged.advance g := by
  by_cases hend : p.cursor.atLineEnd = true
  · have hend' : p.unlogged.cursor.atLineEnd = true := hend
    rw [advance, advance, if_pos hend, if_pos hend']
    rfl
  · have hend' : ¬p.unlogged.cursor.atLineEnd = true := hend
    rw [advance, advance, if_neg hend, if_neg hend']
    rfl

theorem log_advance (g : Grammar σ ζ) (p : Pass σ (ζ × List Nat)) :
    (p.advance g.logged).log = p.log := by
  unfold advance
  split
  · rfl
  · rfl

omit [Palette σ] in
theorem unlogged_leaveLast (g : Grammar σ ζ) (n : Nat) (p : Pass σ (ζ × List Nat)) :
    (p.leaveLast g.logged n).unlogged = p.unlogged.leaveLast g n := by
  induction n generalizing p with
  | zero => rfl
  | succ n ih =>
    unfold leaveLast
    rw [Grammar.leave_logged]
    change _ = match g.leave p.cursor p.data.1 with
      | .pass c z => ({ p.unlogged with cursor := c, data := z } : Pass σ ζ)
      | .again c z => leaveLast g n { p.unlogged with cursor := c, data := z }
    cases g.leave p.cursor p.data.1 with
    | pass d y => rfl
    | again d y => exact ih _

theorem unlogged_finish (g : Grammar σ ζ) (last : Bool) (p : Pass σ (ζ × List Nat)) :
    (p.finish g.logged last).unlogged = p.unlogged.finish g last := by
  cases last with
  | false => rfl
  | true =>
    change ((p.leaveLast g.logged maxRescans).endLine g.logged).unlogged =
      (p.unlogged.leaveLast g maxRescans).endLine g
    rw [← unlogged_leaveLast]
    rfl

variable [DecidableEq σ]

/-- Asking is one entry in the log. -/
theorem log_asked (g : Grammar σ ζ) (p : Pass σ (ζ × List Nat)) :
    (p.asked g.logged).log = p.cursor.pos :: p.log := by
  unfold asked log
  rw [g.dispatch_logged, Flow.data_withLog]

theorem unlogged_step (g : Grammar σ ζ) (p : Pass σ (ζ × List Nat)) :
    (p.step g.logged).unlogged = p.unlogged.step g := by
  have hrule := g.dispatch_logged p.cursor p.data
  unfold step
  rw [hrule]
  change _ = match g.dispatch p.cursor p.data.1 with
    | .pass c z => advance g { p.unlogged with cursor := c, data := z }
    | .again c z => _
  cases g.dispatch p.cursor p.data.1 with
  | pass d y => exact unlogged_advance g _
  | again d y =>
    simp only [Flow.withLog]
    rw [apply_ite unlogged, unlogged_advance]
    rfl

theorem unlogged_run (g : Grammar σ ζ) (n : Nat) (p : Pass σ (ζ × List Nat)) :
    (p.run g.logged n).unlogged = p.unlogged.run g n := by
  induction n generalizing p with
  | zero => rfl
  | succ n ih =>
    by_cases hmore : p.cursor.more = true
    · rw [run_succ _ n p hmore, run_succ _ n p.unlogged hmore, ih, unlogged_step]
    · have hmore' : p.cursor.more = false := by simpa using hmore
      rw [run_of_not_more _ _ p hmore', run_of_not_more _ _ p.unlogged hmore']

/-- **A log changes nothing.** -/
theorem unlogged_ofPart (g : Grammar σ ζ) (text : Text) (start len : Nat) (s : σ)
    (store : LineStore) (styles : Styles σ) :
    (ofPart g.logged text start len s store styles).unlogged =
      ofPart g text start len s store styles := by
  unfold ofPart
  rw [whole_eq, whole_eq, unlogged_finish, unlogged_run]
  rfl

/-! ### On the way -/

/-- The pass with a log is on its way through the part from `start` to `stop`: it has asked only at
places of the part that it has come by, at none of them too often, and at its own place only when it
looked again. -/
structure Seldom (start stop : Nat) (p : Pass σ (ζ × List Nat)) : Prop where
  begun : start ≤ p.cursor.pos
  left : p.cursor.pos + p.cursor.ahead.length = stop
  few : p.rescans ≤ maxRescans
  within : ∀ i ∈ p.log, start ≤ i ∧ i < stop
  behind : ∀ i ∈ p.log, i ≤ p.cursor.pos
  often : ∀ i, p.log.count i ≤ maxRescans + 1
  here : p.log.count p.cursor.pos ≤ p.rescans

namespace Seldom

variable {p q : Pass σ (ζ × List Nat)}

omit [Palette σ] [DecidableEq σ] in
/-- There is room for one more entry. -/
theorem count_cons_le (h : p.Seldom start stop) (i : Nat) :
    (p.cursor.pos :: p.log).count i ≤ maxRescans + 1 := by
  have hoften := h.often i
  have hhere := h.here
  have hfew := h.few
  by_cases hi : p.cursor.pos = i
  · subst hi
    rw [List.count_cons_self]
    omega
  · rwa [List.count_cons_of_ne hi]

omit [Palette σ] [DecidableEq σ] in
/-- What is asked at the place of the pass, and not too often at the place to which it comes, is
asked seldom. -/
theorem ask (h : p.Seldom start stop) (hmore : p.cursor.more = true)
    (hnext : p.cursor.NotBefore q.cursor) (hlog : q.log = p.cursor.pos :: p.log)
    (hfew : q.rescans ≤ maxRescans)
    (hhere : q.cursor.pos = p.cursor.pos → q.rescans = p.rescans + 1) : q.Seldom start stop where
  begun := Nat.le_trans h.begun hnext.pos
  left := hnext.stop.trans h.left
  few := hfew
  within := by
    have hpos := ahead_length_pos hmore
    have hstop := h.left
    rw [hlog]
    exact List.forall_mem_cons.2 ⟨⟨h.begun, by omega⟩, h.within⟩
  behind := by
    rw [hlog]
    exact List.forall_mem_cons.2 ⟨hnext.pos, fun i hi => Nat.le_trans (h.behind i hi) hnext.pos⟩
  often i := by
    rw [hlog]
    exact h.count_cons_le i
  here := by
    rw [hlog]
    rcases Nat.eq_or_lt_of_le hnext.pos with hsame | hlater
    · rw [← hsame, List.count_cons_self, hhere hsame.symm]
      exact Nat.succ_le_succ h.here
    · -- a later place is new
      have hnew : q.cursor.pos ∉ p.cursor.pos :: p.log := by
        intro hmem
        rcases List.mem_cons.1 hmem with heq | hmem
        · exact absurd heq (Nat.ne_of_gt hlater)
        · exact absurd (h.behind _ hmem) (Nat.not_le_of_lt hlater)
      rw [List.count_eq_zero_of_not_mem hnew]
      exact Nat.zero_le _

/-- **One step asks once**, and then goes on or counts the look. -/
theorem step (hg : g.NeverGoesBack) (h : p.Seldom start stop) (hmore : p.cursor.more = true) :
    (p.step g.logged).Seldom start stop := by
  have hasked : p.cursor.NotBefore (p.asked g.logged).cursor := hg.logged.dispatch _ _
  have hlog := log_asked g p
  rcases step_cases g.logged p with hstep | ⟨n, hn, hcount, hstep⟩ <;> rw [hstep]
  · have hlater := pos_lt_advance hasked hmore
    have hon := (onward_advance g.logged (p.asked g.logged)).notBefore
    refine h.ask hmore (hasked.trans hon) ?_ (Nat.zero_le _) ?_
    · rw [log_advance, hlog]
    · exact fun hsame => absurd hsame (Nat.ne_of_gt hlater)
  · refine h.ask hmore hasked hlog hn fun hsame => ?_
    rwa [if_pos hsame] at hcount

/-- **A run asks seldom**, however long it is. -/
theorem run (hg : g.NeverGoesBack) (h : p.Seldom start stop) (n : Nat) :
    (p.run g.logged n).Seldom start stop :=
  run_invariant (Seldom start stop) (fun _ h hmore => h.step hg hmore) h n

end Seldom

omit [DecidableEq σ] in
/-- A scan begins at the beginning of its part and has asked nothing. -/
theorem seldom_outset (hg : g.NeverGoesBack) (hle : start + len ≤ text.length) (s : σ)
    (store : LineStore) (styles : Styles σ) :
    (outset g.logged text start len s store styles).Seldom start (start + len) := by
  have hpos := Cursor.pos_ofPart hle s styles
  have hahead : (Cursor.ofPart text start len s styles).ahead.length = len := by
    rw [(Cursor.stands_ofPart hle s styles).ahead, hpos, List.length_drop, List.length_take,
      Nat.min_eq_left hle, Nat.add_sub_cancel_left]
  have hbegin := hg.begin (Cursor.ofPart text start len s styles)
    (store.stateBefore (Cursor.ofPart text start len s styles).line)
  refine ⟨?_, ?_, Nat.zero_le _, ?_, ?_, fun _ => Nat.zero_le _, Nat.zero_le _⟩
  · exact Nat.le_trans (Nat.le_of_eq hpos.symm) hbegin.pos
  · exact hbegin.stop.trans (by rw [hpos, hahead])
  · exact fun i hi => absurd hi List.not_mem_nil
  · exact fun i hi => absurd hi List.not_mem_nil

/-! ### The end -/

/-- The loop of a scan: the pass steps on as long as any byte is left, and so comes to `q`. -/
inductive LoopsTo (g : Grammar σ ζ) : Pass σ ζ → Pass σ ζ → Prop where
  | done {p : Pass σ ζ} (h : p.cursor.more = false) : LoopsTo g p p
  | step {p q : Pass σ ζ} (h : p.cursor.more = true) (rest : LoopsTo g (p.step g) q) :
      LoopsTo g p q

/-- A run with steps enough is what the loop comes to. -/
theorem loopsTo_run {n : Nat} {p : Pass σ ζ} (h : (p.run g n).cursor.more = false) :
    p.LoopsTo g (p.run g n) := by
  induction n generalizing p with
  | zero => exact .done h
  | succ n ih =>
    by_cases hmore : p.cursor.more = true
    · rw [run_succ g n p hmore] at h ⊢
      exact .step hmore (ih h)
    · have hmore' : p.cursor.more = false := by simpa using hmore
      rw [run_of_not_more g _ p hmore']
      exact .done hmore'

omit [Palette σ] [DecidableEq σ] in
/-- At the end the rules are asked only there, and at most as often as the last run may be left. -/
theorem exists_log_leaveLast (hg : g.NeverGoesBack) (n : Nat) {p : Pass σ (ζ × List Nat)}
    (hnil : p.cursor.ahead = []) :
    (p.leaveLast g.logged n).cursor.pos = p.cursor.pos ∧
      ∃ k ≤ n, (p.leaveLast g.logged n).log = List.replicate k p.cursor.pos ++ p.log := by
  induction n generalizing p with
  | zero => exact ⟨rfl, 0, Nat.le_refl 0, rfl⟩
  | succ n ih =>
    have hmoves := hg.leave p.cursor p.data.1
    unfold leaveLast
    rw [Grammar.leave_logged]
    revert hmoves
    generalize g.leave p.cursor p.data.1 = answer
    intro hmoves
    have hlength := hmoves.length_ahead_le
    have hstop := hmoves.stop
    rw [hnil, List.length_nil, Nat.le_zero] at hlength
    have hpos : answer.cursor.pos = p.cursor.pos := by
      rwa [hlength, hnil] at hstop
    cases answer with
    | pass d y => exact ⟨hpos, 1, Nat.succ_pos n, rfl⟩
    | again d y =>
      obtain ⟨hend, k, hk, hlog⟩ := ih
        (p := { p with cursor := d, data := (y, p.cursor.pos :: p.log) })
        (List.length_eq_zero_iff.1 hlength)
      refine ⟨hend.trans hpos, k + 1, Nat.succ_le_succ hk, hlog.trans ?_⟩
      change List.replicate k d.pos ++ p.cursor.pos :: p.log = _
      rw [show d.pos = p.cursor.pos from hpos, List.replicate_succ', List.append_assoc]
      rfl

/-- Places of a stretch of `len`, none of them more than `k` times. -/
theorem length_le_of_count_le {l : List Nat} {k : Nat}
    (hin : ∀ i ∈ l, start ≤ i ∧ i < start + len) (hk : ∀ i, l.count i ≤ k) :
    l.length ≤ k * len := by
  have hsub : l.toFinset ⊆ Finset.Ico start (start + len) := by
    intro i hi
    exact Finset.mem_Ico.2 (hin i (List.mem_toFinset.1 hi))
  have hcard : l.toFinset.card ≤ len := by
    have hle := Finset.card_le_card hsub
    rwa [Nat.card_Ico, Nat.add_sub_cancel_left] at hle
  calc l.length
    _ = ∑ i ∈ l.toFinset, l.count i := (List.sum_toFinset_count_eq_length l).symm
    _ ≤ l.toFinset.card * k := Finset.sum_le_card_nsmul _ _ _ fun i _ => hk i
    _ ≤ len * k := Nat.mul_le_mul_right k hcard
    _ = k * len := Nat.mul_comm len k

/-- How often a pass with a log has asked over the `len` bytes from `start` on: `q` is the pass at
the end of the loop and `p` the whole one. Both stand at the end of the part. -/
structure AsksSeldom (start len : Nat) (q p : Pass σ (ζ × List Nat)) : Prop where
  arrives : q.cursor.pos = start + len
  within : ∀ i ∈ q.log, start ≤ i ∧ i < start + len
  often : ∀ i, q.log.count i ≤ maxRescans + 1
  total : q.log.length ≤ (maxRescans + 1) * len
  /-- After the loop the rules are asked only at the end. -/
  last : ∃ k ≤ maxRescans, p.log = List.replicate k (start + len) ++ q.log
  stays : p.cursor.pos = start + len

omit [DecidableEq σ] in
/-- A pass that asked seldom and has come to the end of its part asks seldom until it is over. -/
theorem Seldom.finish (hg : g.NeverGoesBack) {q : Pass σ (ζ × List Nat)}
    (h : q.Seldom start (start + len)) (hnil : q.cursor.ahead = []) (last : Bool) :
    q.AsksSeldom start len (q.finish g.logged last) := by
  have hpos : q.cursor.pos = start + len := by
    have hleft := h.left
    rwa [hnil] at hleft
  have hend : (q.finish g.logged last).cursor.pos = start + len ∧
      ∃ k ≤ maxRescans,
        (q.finish g.logged last).log = List.replicate k (start + len) ++ q.log := by
    cases last with
    | false => exact ⟨hpos, 0, Nat.zero_le _, rfl⟩
    | true =>
      -- to end the last line changes neither the place nor the log
      obtain ⟨hstays, hlog⟩ := exists_log_leaveLast hg maxRescans hnil
      rw [hpos] at hstays hlog
      exact ⟨hstays, hlog⟩
  exact ⟨hpos, h.within, h.often, length_le_of_count_le h.within h.often, hend.2, hend.1⟩

end Pass

open Pass

variable [DecidableEq σ]

/-- **Every scan comes to its end and asks seldom**, whatever its rules answer, if only they never
go back. -/
theorem scan_asks_seldom (g : Grammar σ ζ) (hg : g.NeverGoesBack) (text : Text) (start len : Nat)
    (hle : start + len ≤ text.length) (hline : start = 0 ∨ text[start - 1]? = some newline) (s : σ)
    (store : LineStore) (styles : Styles σ) :
    let p := ofPart g.logged text start len s store styles
    p.unlogged = ofPart g text start len s store styles ∧
      scan g text start len s store styles =
        .ok (p.unlogged.outcome g ((text.take start).count newline), store.recordAll p.ended) ∧
      ∃ q last, (outset g.logged text start len s store styles).LoopsTo g.logged q ∧
        q.cursor.more = false ∧ p = q.finish g.logged last ∧ q.AsksSeldom start len p := by
  intro p
  have hsame : p.unlogged = ofPart g text start len s store styles :=
    unlogged_ofPart g text start len s store styles
  have hscan := scan_of_valid g hle hline s store styles
  rw [← hsame] at hscan
  refine ⟨hsame, hscan, ?_⟩
  let o := outset g.logged text start len s store styles
  have houtset : o.Seldom start (start + len) := seldom_outset hg hle s store styles
  have hnil : (o.run g.logged o.cost).cursor.ahead = [] := hg.logged.ahead_run houtset.few
  have hmore : (o.run g.logged o.cost).cursor.more = false := by
    rw [Cursor.more, hnil]
    rfl
  exact ⟨o.run g.logged o.cost, _, loopsTo_run hmore, hmore, rfl,
    (houtset.run hg o.cost).finish hg hnil _⟩

/-- Rules that never let go of a place are asked there as often as it may be, and then at the end of
the text. -/
theorem scan_asks_seldom_stuck :
    let g := Stuck.grammar
    let text : Text := [0x61, newline, quote]
    let p := ofPart g.logged text 2 1 .plain #[] #[]
    g.NeverGoesBack ∧ 2 + 1 ≤ text.length ∧ (2 = 0 ∨ text[2 - 1]? = some newline) ∧
      p.log = List.replicate 16 3 ++ List.replicate 17 2 ∧
      ∃ q last, (outset g.logged text 2 1 .plain #[] #[]).LoopsTo g.logged q ∧
        q.cursor.more = false ∧ p = q.finish g.logged last ∧ q.AsksSeldom 2 1 p := by
  intro g text p
  have hg : g.NeverGoesBack := Stuck.staysInLine.goesOn.neverGoesBack
  have hle : 2 + 1 ≤ text.length := Nat.le_refl 3
  have hline : 2 = 0 ∨ text[2 - 1]? = some newline := .inr rfl
  obtain ⟨-, -, hloop⟩ := scan_asks_seldom g hg text 2 1 hle hline .plain #[] #[]
  exact ⟨hg, hle, hline, by decide +kernel, hloop⟩

end Highlight
