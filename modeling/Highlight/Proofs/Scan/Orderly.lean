import Highlight.Proofs.Scan.Fresh
import Highlight.Proofs.Scan.Within

/-!
Scans in order. A pass whose rules stay in their line goes over every line of its part, one after
another (`Pass.Orderly`), and at the end it has passed every byte of the part and ended every line
that ends there, just once (`Pass.ofPart_completes`). Each line was summed up where the pass went
over its end, or at the end of the text, and with the data it had there (`Pass.Records`).
-/

namespace Highlight

open Byte

/-- How many lines end in the `len` bytes of the text from `start` on: those that have their newline
there, and the last line of the text if the bytes end with it and it has none. -/
def Text.linesEnding (text : Text) (start len : Nat) : Nat :=
  ((text.drop start).take len).count newline +
    if 0 < len ∧ start + len = text.length ∧ text.getLast? ≠ some newline then 1 else 0

variable {σ ζ : Type} [Palette σ]

namespace Pass

variable {g : Grammar σ ζ} {p q : Pass σ ζ} {text : Text} {start stop first : Nat}

/-! ### Going on in order -/

/-- The pass has come from the line `first` to its place, and has ended the lines between, each
once and in order. -/
structure Orderly (text : Text) (start stop first : Nat) (p : Pass σ ζ) : Prop where
  stands : p.cursor.Stands text stop
  start : p.cursor.start = start
  few : p.rescans ≤ maxRescans
  first_le : first ≤ p.cursor.line
  lines : p.ended.map Prod.fst = (List.range' first (p.cursor.line - first)).reverse

namespace Orderly

theorem advance (h : p.Orderly text start stop first) :
    (p.advance g).Orderly text start stop first := by
  have hfirst := h.first_le
  by_cases hend : p.cursor.atLineEnd = true
  · obtain ⟨hcursor, hline, -, hended⟩ := advance_over g hend
    refine ⟨hcursor ▸ (h.stands.look _).forward, ?_, Nat.zero_le _, by omega, ?_⟩
    · rw [hcursor, Cursor.start_forward]
      exact h.start
    · have hsub : p.cursor.line + 1 - first = p.cursor.line - first + 1 := by omega
      have hlast : first + 1 * (p.cursor.line - first) = p.cursor.line := by omega
      rw [hended, hline, List.map_cons, h.lines, hsub, List.range'_concat, List.reverse_append,
        hlast]
      rfl
  · obtain ⟨hcursor, hline, hended⟩ := advance_on g hend
    refine ⟨hcursor ▸ h.stands.forward, ?_, Nat.zero_le _, hline ▸ hfirst, ?_⟩
    · rw [hcursor, Cursor.start_forward]
      exact h.start
    · rw [hended, hline, h.lines]

/-- Moves within the line leave the pass in order. -/
theorem within {d : Cursor σ} (h : p.Orderly text start stop first) (hm : p.cursor.Within d)
    (z : ζ) {n : Nat} (hn : n ≤ maxRescans) :
    Orderly text start stop first { p with cursor := d, data := z, rescans := n } :=
  ⟨h.stands.within hm, hm.start_eq.trans h.start, hn, hm.line_eq ▸ h.first_le,
    hm.line_eq ▸ h.lines⟩

variable [DecidableEq σ]

/-- Every step leaves the pass in order. -/
theorem step (hg : g.StaysInLine) (h : p.Orderly text start stop first) :
    (p.step g).Orderly text start stop first := by
  have hmoves := hg.dispatch p.cursor p.data
  rcases step_cases g p with hstep | ⟨n, hn, -, hstep⟩ <;> rw [hstep]
  · exact (h.within hmoves _ h.few).advance
  · exact h.within hmoves _ hn

theorem run (hg : g.StaysInLine) (h : p.Orderly text start stop first) (n : Nat) :
    (p.run g n).Orderly text start stop first :=
  run_invariant (Orderly text start stop first) (fun _ h _ => h.step hg) h n

end Orderly

/-- The last run is left within the line. -/
theorem leaveLast_within (hg : g.StaysInLine) (n : Nat) (p : Pass σ ζ) :
    p.cursor.Within (p.leaveLast g n).cursor ∧ (p.leaveLast g n).ended = p.ended :=
  leaveLast_invariant (fun q => p.cursor.Within q.cursor ∧ q.ended = p.ended)
    (fun q h => ⟨h.1.trans (hg.leave q.cursor q.data), h.2⟩) ⟨.refl, rfl⟩ n

/-! ### Where lines are summed up -/

/-- What is written down of the line at the cursor, when it ends there. -/
def summary (g : Grammar σ ζ) (q : Pass σ ζ) : Nat × LineState :=
  (q.cursor.line, (g.endLine q.cursor q.data).1)

variable [DecidableEq σ]

/-- On its way the pass `p` goes over the end of a line: after the rules were asked it is `q`. -/
def GoesOver (g : Grammar σ ζ) (p q : Pass σ ζ) : Prop :=
  ∃ n, (p.run g n).cursor.more = true ∧ q = (p.run g n).asked g ∧ q.cursor.atLineEnd = true ∧
    (p.run g n).step g = q.advance g

/-- At the end of its way the pass `p` has left its last run and is `q`. -/
def Arrives (g : Grammar σ ζ) (p q : Pass σ ζ) : Prop :=
  ∃ n, (p.run g n).cursor.more = false ∧ q = (p.run g n).leaveLast g maxRescans

/-- A line of the text is summed up at its end: where the pass `p` goes over its newline, or where
the pass arrives at the end of a text that has none there. -/
def Records (g : Grammar σ ζ) (text : Text) (p : Pass σ ζ) (e : Nat × LineState) : Prop :=
  ∃ q, e = q.summary g ∧ e.1 = (text.take q.cursor.pos).count newline ∧
    (p.GoesOver g q ∧ text[q.cursor.pos]? = some newline ∨
      p.Arrives g q ∧ q.cursor.pos = text.length ∧ text.getLast? ≠ some newline)

theorem GoesOver.of_step (hmore : p.cursor.more = true) (h : (p.step g).GoesOver g q) :
    p.GoesOver g q := by
  obtain ⟨n, h⟩ := h
  rw [← run_succ g n p hmore] at h
  exact ⟨n + 1, h⟩

/-- A step writes down no line, or the one whose end it goes over. -/
theorem ended_step (g : Grammar σ ζ) (p : Pass σ ζ) (hmore : p.cursor.more = true) :
    (p.step g).ended = p.ended ∨
      ∃ q, p.GoesOver g q ∧ (p.step g).ended = q.summary g :: p.ended := by
  rcases step_cases g p with hstep | ⟨n, -, -, hstep⟩
  · by_cases hend : (p.asked g).cursor.atLineEnd = true
    · obtain ⟨-, -, -, hended⟩ := advance_over g hend
      exact .inr ⟨p.asked g, ⟨0, hmore, rfl, hend, hstep⟩, by rw [hstep, hended]; rfl⟩
    · left
      rw [hstep, (advance_on g hend).2.2]
      rfl
  · left
    rw [hstep]
    rfl

/-- Every line that a run writes down it goes over. -/
theorem mem_ended_run (n : Nat) (p : Pass σ ζ) {e : Nat × LineState}
    (he : e ∈ (p.run g n).ended) : e ∈ p.ended ∨ ∃ q, p.GoesOver g q ∧ e = q.summary g := by
  induction n generalizing p with
  | zero => exact .inl he
  | succ n ih =>
    by_cases hmore : p.cursor.more = true
    · rw [run_succ g n p hmore] at he
      rcases ih (p.step g) he with hmem | ⟨q, hq, rfl⟩
      · rcases ended_step g p hmore with hsame | ⟨q, hq, hnew⟩
        · exact .inl (hsame ▸ hmem)
        · rw [hnew] at hmem
          rcases List.mem_cons.1 hmem with rfl | hmem
          · exact .inr ⟨q, hq, rfl⟩
          · exact .inl hmem
      · exact .inr ⟨q, hq.of_step hmore, rfl⟩
    · rw [run_of_not_more g _ p (by simpa using hmore)] at he
      exact .inl he

/-! ### A whole part -/

/-- The end of a line that a pass in order goes over is the end of its line in the text. -/
theorem Orderly.records_over {o q : Pass σ ζ} (hg : g.StaysInLine)
    (h : o.Orderly text start stop first) (hq : o.GoesOver g q) :
    o.Records g text (q.summary g) := by
  obtain ⟨n, -, hasked, hend, -⟩ := id hq
  have hstands : q.cursor.Stands text stop := by
    rw [hasked]
    exact (h.run hg n).stands.within (hg.dispatch _ _)
  obtain ⟨t, hahead, -⟩ := Cursor.ahead_of_atLineEnd hend
  exact ⟨q, rfl, hstands.line, .inl ⟨hq, (hstands.ahead_cons hahead).2.1⟩⟩

/-- **A pass in order comes to the end of its part.** By then it has ended every line that has its
newline there, and the last one if it is to. -/
theorem Orderly.finish {o : Pass σ ζ} (hg : g.StaysInLine) (hstop : stop ≤ text.length)
    (h : o.Orderly text start stop first) (hnew : o.ended = []) {last : Bool}
    (hlast : last = true → stop = text.length ∧ text.getLast? ≠ some newline) :
    let p := (o.run g o.cost).finish g last
    p.cursor.start = start ∧ start + p.cursor.passed.length = stop ∧
      p.ended.reverse.map Prod.fst =
        List.range' first ((text.take stop).count newline - first + last.toNat) ∧
      ∀ e ∈ p.ended, o.Records g text e := by
  have horder := h.run hg o.cost
  have hnil := hg.goesOn.ahead_run (g := g) h.few
  have hover : ∀ e ∈ (o.run g o.cost).ended, o.Records g text e := by
    intro e he
    obtain ⟨q, hq, rfl⟩ := (mem_ended_run o.cost o he).resolve_left (by simp [hnew])
    exact h.records_over hg hq
  have hmore : (o.run g o.cost).cursor.more = false := by rw [Cursor.more, hnil]; rfl
  have harrives : o.Arrives g ((o.run g o.cost).leaveLast g maxRescans) := ⟨o.cost, hmore, rfl⟩
  revert horder hnil hover harrives
  generalize o.run g o.cost = p
  intro horder hnil hover harrives
  have hpos : ∀ {c : Cursor σ}, c.Stands text stop → c.ahead = [] → c.pos = stop :=
    fun hc => hc.pos_of_ahead_nil hstop
  have hpassed : ∀ {c : Cursor σ}, c.Stands text stop → c.ahead = [] → c.start = start →
      start + c.passed.length = stop := by
    rintro c hc hahead rfl
    rw [hc.length_passed, hpos hc hahead]
  have hlines : p.ended.reverse.map Prod.fst =
      List.range' first ((text.take stop).count newline - first) := by
    rw [List.map_reverse, horder.lines, List.reverse_reverse, horder.stands.line,
      hpos horder.stands hnil]
  unfold Pass.finish
  cases last with
  | false => exact ⟨horder.start, hpassed horder.stands hnil horder.start, hlines, hover⟩
  | true =>
    obtain ⟨rfl, hunended⟩ := hlast rfl
    obtain ⟨hmoves, hended⟩ := leaveLast_within hg maxRescans p
    generalize p.leaveLast g maxRescans = q at hmoves hended harrives
    have hq : q.cursor.Stands text text.length := horder.stands.within hmoves
    have hq' : q.cursor.ahead = [] := List.suffix_nil.1 (hnil ▸ hmoves.onward.ahead)
    have hstart : q.cursor.start = start := hmoves.start_eq.trans horder.start
    have hline : q.cursor.line = first + 1 * ((text.take text.length).count newline - first) := by
      have hle := horder.first_le
      rw [← hmoves.line_eq, hq.line, hpos hq hq'] at hle
      rw [hq.line, hpos hq hq']
      omega
    refine ⟨hstart, hpassed (c := q.cursor.newLine) (hq.look _) hq' hstart, ?_, ?_⟩
    · change (q.summary g :: q.ended).reverse.map Prod.fst = _
      rw [List.reverse_cons, List.map_append, hended, hlines, Bool.toNat_true, List.range'_concat,
        ← hline]
      rfl
    · intro e he
      rcases List.mem_cons.1 he with rfl | he
      · exact ⟨q, rfl, hq.line, .inr ⟨harrives, hpos hq hq', hunended⟩⟩
      · exact hover e (hended ▸ he)

/-- The pass with which the scan of a part of a text begins. -/
def outset (g : Grammar σ ζ) (text : Text) (start len : Nat) (s : σ) (store : LineStore)
    (styles : Styles σ) : Pass σ ζ :=
  let c := Cursor.ofPart text start len s styles
  opened g c (store.stateBefore c.line)

omit [DecidableEq σ] in
theorem orderly_outset (hg : g.StaysInLine) {len : Nat} (h : start + len ≤ text.length) (s : σ)
    (store : LineStore) (styles : Styles σ) :
    (outset g text start len s store styles).Orderly text start (start + len)
      ((text.take start).count newline) := by
  have hstands := Cursor.stands_ofPart h s styles
  have hline : (Cursor.ofPart text start len s styles).line = (text.take start).count newline := rfl
  have hstart : (Cursor.ofPart text start len s styles).start = start := Cursor.pos_ofPart h s styles
  have hmoves := hg.begin (Cursor.ofPart text start len s styles)
    (store.stateBefore (Cursor.ofPart text start len s styles).line)
  have hout : (outset g text start len s store styles).cursor.line =
      (text.take start).count newline := hmoves.line_eq.trans hline
  refine ⟨hstands.within hmoves, hmoves.start_eq.trans hstart, Nat.zero_le _,
    Nat.le_of_eq hout.symm, ?_⟩
  rw [hout, Nat.sub_self]
  rfl

/-- What the pass `p` over the `len` bytes of the text from `start` on has done, if it began as
`o`: it has passed every byte, and written down every line that ends there. -/
structure Completes (g : Grammar σ ζ) (text : Text) (start len : Nat) (o p : Pass σ ζ) : Prop where
  begins : p.cursor.start = start
  passed : p.cursor.passed.length = len
  lines : p.ended.reverse.map Prod.fst =
    List.range' ((text.take start).count newline) (text.linesEnding start len)
  records : ∀ e ∈ p.ended, o.Records g text e

/-- **A scan goes over its part in order.** -/
theorem ofPart_completes (hg : g.StaysInLine) {len : Nat} (h : start + len ≤ text.length) (s : σ)
    (store : LineStore) (styles : Styles σ) :
    Completes g text start len (outset g text start len s store styles)
      (ofPart g text start len s store styles) := by
  have hlast : (start + len == text.length && decide (0 < len) && text.getLast? != some newline) =
      true ↔ 0 < len ∧ start + len = text.length ∧ text.getLast? ≠ some newline := by
    simp only [Bool.and_eq_true, beq_iff_eq, decide_eq_true_eq, bne_iff_ne]
    exact ⟨fun h => ⟨h.1.2, h.1.1, h.2⟩, fun h => ⟨⟨h.2.1, h.1⟩, h.2.2⟩⟩
  obtain ⟨hstart, hpassed, hlines, hrecords⟩ :=
    (orderly_outset hg h s store styles).finish hg h rfl fun he => (hlast.1 he).2
  refine ⟨hstart, Nat.add_left_cancel hpassed, hlines.trans ?_, hrecords⟩
  have hcount : (text.take (start + len)).count newline - (text.take start).count newline =
      ((text.drop start).take len).count newline := by
    rw [List.take_add, List.count_append, Nat.add_sub_cancel_left]
  rw [hcount, Text.linesEnding]
  simp only [← hlast]
  generalize (start + len == text.length && decide (0 < len) && text.getLast? != some newline) = b
  cases b <;> rfl

end Pass

end Highlight
