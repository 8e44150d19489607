import Highlight.Proofs.Scan.InLine
import Highlight.Proofs.Scan.Settling
import Highlight.Proofs.Session.Exact

/-!
Going through a construct. A scan that is never forced on (`Pass.Proper`) is followed place by
place: from a place that it comes by, the answer of the rules there tells the next one
(`ComesTo.pass`, `ComesTo.again`). A construct is known by the categories of its bytes, from where
it begins on (`Cursor.AllFrom`), and by the place where its last run is let go of in the plain
category (`Pass.PlainAt`). What the scan has closed by then it keeps to its end (`Pass.Later`), and
so it does with what it writes down of the lines on the way (`ComesTo.mem_ended`).
-/

namespace Highlight

open Byte

/-- A byte of the text, and what is behind it. -/
theorem Text.drop_eq_cons {text : Text} {i : Nat} {b : Byte} (h : text[i]? = some b) :
    text.drop i = b :: text.drop (i + 1) := by
  obtain ⟨hlt, rfl⟩ := List.getElem?_eq_some_iff.1 h
  exact List.drop_eq_getElem_cons hlt

variable {σ ζ : Type}

/-! ### The bytes since a place -/

namespace Cursor

/-- All bytes passed from the offset `i` on have a category of the kind. -/
structure AllFrom (kind : σ → Prop) (i : Nat) (c : Cursor σ) : Prop where
  le : i ≤ c.pos
  all : ∀ s ∈ c.spent.take (c.pos - i), kind s

namespace AllFrom

variable {kind : σ → Prop} {i j : Nat} {c : Cursor σ}

/-- Where a construct begins, none of its bytes are passed. -/
theorem here (kind : σ → Prop) (c : Cursor σ) : c.AllFrom kind c.pos :=
  ⟨Nat.le_refl _, by simp⟩

theorem switch (h : c.AllFrom kind i) (s : σ) : (c.switch s).AllFrom kind i :=
  ⟨h.le, by rw [spent_switch]; exact h.all⟩

/-- The run in progress may take another category of the kind. -/
theorem recolor (h : c.AllFrom kind i) {s : σ} (hs : kind s) : (c.recolor s).AllFrom kind i := by
  refine ⟨h.le, fun t ht => ?_⟩
  have hall := h.all
  change t ∈ (List.replicate c.word.length s ++ c.closed).take (c.pos - i) at ht
  unfold spent at hall
  rw [List.take_append, List.mem_append, List.length_replicate] at ht
  rcases ht with ht | ht
  · rwa [List.eq_of_mem_replicate (List.mem_of_mem_take ht)]
  · refine hall t ?_
    rw [List.take_append, List.mem_append, List.length_replicate]
    exact .inr ht

theorem look (h : c.AllFrom kind i) (t : Trail σ) : { c with trail := t }.AllFrom kind i :=
  ⟨h.le, h.all⟩

variable [Palette σ]

theorem forward (h : c.AllFrom kind i) (hk : kind c.state) : c.forward.AllFrom kind i := by
  have hle := h.le
  cases ha : c.ahead with
  | nil => rwa [forward_nil ha]
  | cons b t =>
    have hpos := pos_forward_cons ha
    refine ⟨by omega, ?_⟩
    rw [spent_forward ha, hpos, show c.pos + 1 - i = c.pos - i + 1 by omega, List.take_succ_cons]
    exact List.forall_mem_cons.2 ⟨hk, h.all⟩

theorem forwardN (h : c.AllFrom kind i) (hk : kind c.state) (n : Nat) :
    (c.forwardN n).AllFrom kind i := by
  induction n generalizing c with
  | zero => exact h
  | succ n ih =>
    unfold Cursor.forwardN
    split
    · exact ih (h.forward hk) (by rwa [state_forward])
    · exact h

omit [Palette σ] in
/-- What is known of the categories of the bytes, by their offsets. -/
theorem getElem?_passed {text : Text} {stop : Nat} (h : c.AllFrom kind i)
    (hc : c.Stands text stop) (hi : c.start ≤ i) (hij : i ≤ j) (hj : j < c.pos) :
    ∃ s, c.passed[j - c.start]? = some s ∧ kind s := by
  have hpos := hc.pos
  have hlt : c.pos - 1 - j < (c.spent.take (c.pos - i)).length := by
    rw [List.length_take]
    omega
  refine ⟨_, ?_, h.all _ (List.getElem_mem hlt)⟩
  rw [passed_eq, List.getElem?_reverse (by omega), List.getElem_take,
    show c.spent.length - 1 - (j - c.start) = c.pos - 1 - j by omega]
  exact List.getElem?_eq_getElem _

end AllFrom

end Cursor

variable [Palette σ]

namespace Cursor

theorem pos_forwardN {c : Cursor σ} {n : Nat} (h : n ≤ c.ahead.length) :
    (c.forwardN n).pos = c.pos + n := by
  induction n generalizing c with
  | zero => rfl
  | succ n ih =>
    obtain ⟨b, t, ha⟩ := List.exists_cons_of_length_pos (Nat.lt_of_lt_of_le (Nat.succ_pos n) h)
    rw [ha, List.length_cons] at h
    rw [forwardN, if_pos (more_cons ha), ih (by rw [ahead_forward_cons ha]; omega),
      pos_forward_cons ha]
    omega

end Cursor

/-! ### Going on -/

namespace Grammar

/-- The place and the data behind the next byte, if that is passed. A newline ends its line. -/
def goOn (g : Grammar σ ζ) (d : Cursor σ) (y : ζ) : Cursor σ × ζ :=
  if d.atLineEnd then (d.newLine.forward, (g.endLine d y).2) else (d.forward, y)

variable {g : Grammar σ ζ} {c d : Cursor σ} {y z : ζ} {b : Byte} {t : Text}

theorem goOn_of_ne (g : Grammar σ ζ) (hd : d.byte ≠ newline) (y : ζ) :
    g.goOn d y = (d.forward, y) := by
  refine if_neg fun hend => ?_
  obtain ⟨-, -, hb⟩ := Cursor.ahead_of_atLineEnd hend
  exact hd hb

theorem state_goOn (g : Grammar σ ζ) (d : Cursor σ) (y : ζ) : (g.goOn d y).1.state = d.state := by
  unfold goOn
  split <;> exact Cursor.state_forward

theorem ahead_goOn (g : Grammar σ ζ) (d : Cursor σ) (y : ζ) :
    (g.goOn d y).1.ahead = d.ahead.tail := by
  unfold goOn
  split <;> exact Cursor.ahead_forward

theorem pos_goOn (g : Grammar σ ζ) (ha : d.ahead = b :: t) (y : ζ) :
    (g.goOn d y).1.pos = d.pos + 1 := by
  unfold goOn
  split
  · rw [Cursor.forward_cons (c := d.newLine) ha]
    rfl
  · rw [Cursor.forward_cons ha]

theorem prev_goOn (g : Grammar σ ζ) (ha : d.ahead = b :: t) (y : ζ) :
    (g.goOn d y).1.prev = some b := by
  unfold goOn
  split
  · rw [Cursor.forward_cons (c := d.newLine) ha]
  · rw [Cursor.forward_cons ha]

theorem allFrom_goOn {kind : σ → Prop} {i : Nat} (g : Grammar σ ζ) (h : d.AllFrom kind i)
    (hk : kind d.state) (y : ζ) : (g.goOn d y).1.AllFrom kind i := by
  unfold goOn
  split
  · exact Cursor.AllFrom.forward (c := d.newLine) (h.look _) hk
  · exact h.forward hk

variable [DecidableEq σ]

/-- Outside of the plain category, what lets go of a byte has the byte passed. -/
theorem dispatch_of_pass (h : g.leave c z = .pass d y) (hd : d.state ≠ Palette.plain) :
    g.dispatch c z = .pass d y := by
  rw [dispatch, h]
  exact if_neg hd

/-- In the plain category the second rule is asked. -/
theorem dispatch_of_plain (h : g.leave c z = .pass d y) (hd : d.state = Palette.plain) :
    g.dispatch c z = g.enter d y := by
  rw [dispatch, h]
  exact if_pos hd

theorem dispatch_of_again (h : g.leave c z = .again d y) : g.dispatch c z = .again d y := by
  rw [dispatch, h]

end Grammar

namespace Cursor

variable {c d : Cursor σ}

theorem closed_forward : c.forward.closed = c.closed := by
  unfold forward
  split <;> rfl

/-- Runs that are closed stay closed. -/
theorem Within.closed (h : c.Within d) : c.closed <:+ d.closed := by
  induction h with
  | refl => exact List.suffix_refl _
  | forward _ _ ih => rwa [closed_forward]
  | switch _ _ ih => exact ih.trans (List.suffix_append _ _)
  | recolor _ _ ih | remember _ _ ih => exact ih

/-- At the end of the chunk, where no run is in progress, there is nothing to pass or to close. -/
theorem Within.still (h : c.Within d) (hnil : c.ahead = []) (hword : c.word = []) :
    d.ahead = [] ∧ d.word = [] ∧ d.closed = c.closed ∧ d.pos = c.pos := by
  induction h with
  | refl => exact ⟨hnil, hword, rfl, rfl⟩
  | forward _ _ ih => rwa [forward_nil ih.1]
  | switch _ s ih =>
    obtain ⟨hahead, hnone, hclosed, hpos⟩ := ih
    refine ⟨hahead, rfl, ?_, hpos⟩
    simp [Cursor.switch, hnone, hclosed]
  | recolor _ _ ih | remember _ _ ih => exact ih

end Cursor

namespace Pass

variable {g : Grammar σ ζ} {text : Text} {start stop first i n : Nat} {o p q r : Pass σ ζ}
  {c d : Cursor σ} {y z : ζ} {kind : σ → Prop}

theorem advance_eq_goOn (g : Grammar σ ζ) (p : Pass σ ζ) (d : Cursor σ) (y : ζ) :
    (Pass.advance g { p with cursor := d, data := y }).cursor = (g.goOn d y).1 ∧
      (Pass.advance g { p with cursor := d, data := y }).data = (g.goOn d y).2 := by
  unfold Pass.advance Grammar.goOn
  cases d.atLineEnd <;> simp [Pass.endLine]

/-! ### What stays -/

/-- What the pass `p` has closed and written down, the pass `q` has as well. -/
structure Later (p q : Pass σ ζ) : Prop where
  closed : p.cursor.closed <:+ q.cursor.closed
  ended : p.ended <:+ q.ended

namespace Later

omit [Palette σ] in
theorem refl (p : Pass σ ζ) : p.Later p := ⟨List.suffix_refl _, List.suffix_refl _⟩

omit [Palette σ] in
theorem trans (h : p.Later q) (h' : q.Later r) : p.Later r :=
  ⟨h.closed.trans h'.closed, h.ended.trans h'.ended⟩

theorem advance (g : Grammar σ ζ) (p : Pass σ ζ) : p.Later (p.advance g) := by
  by_cases hend : p.cursor.atLineEnd = true
  · obtain ⟨hcursor, -, -, hended⟩ := advance_over g hend
    have hclosed : (p.advance g).cursor.closed = p.cursor.closed :=
      (congrArg Cursor.closed hcursor).trans Cursor.closed_forward
    exact ⟨hclosed ▸ List.suffix_refl _, hended ▸ List.suffix_cons _ _⟩
  · obtain ⟨hcursor, -, hended⟩ := advance_on g hend
    have hclosed : (p.advance g).cursor.closed = p.cursor.closed :=
      (congrArg Cursor.closed hcursor).trans Cursor.closed_forward
    exact ⟨hclosed ▸ List.suffix_refl _, hended ▸ List.suffix_refl _⟩

theorem finish (hm : g.StaysInLine) (p : Pass σ ζ) (last : Bool) : p.Later (p.finish g last) := by
  obtain ⟨hmoves, hended⟩ := leaveLast_within hm maxRescans p
  cases last with
  | false => exact refl p
  | true => exact ⟨hmoves.closed, hended ▸ List.suffix_cons _ _⟩

variable [DecidableEq σ]

/-- What was asked at a place is answered before the step is done. -/
theorem of_asked (g : Grammar σ ζ) (p : Pass σ ζ) : (p.asked g).Later (p.step g) := by
  rcases step_cases g p with hstep | ⟨m, -, -, hstep⟩ <;> rw [hstep]
  · exact advance g _
  · exact ⟨List.suffix_refl _, List.suffix_refl _⟩

theorem step (hm : g.StaysInLine) (p : Pass σ ζ) : p.Later (p.step g) := by
  have hasked : p.Later (p.asked g) :=
    ⟨(hm.dispatch p.cursor p.data).closed, List.suffix_refl _⟩
  exact hasked.trans (of_asked g p)

theorem run (hm : g.StaysInLine) (p : Pass σ ζ) (n : Nat) : p.Later (p.run g n) :=
  run_invariant (Later p) (fun q h _ => h.trans (step hm q)) (refl p) n

end Later

variable [DecidableEq σ]

/-! ### The whole scan -/

/-- The pass at the end of its scan. -/
def completed (g : Grammar σ ζ) (last : Bool) (o : Pass σ ζ) : Pass σ ζ :=
  (o.run g o.cost).finish g last

/-- The pass begins a scan of a part of the text in order, and is never forced on. -/
structure Proper (g : Grammar σ ζ) (text : Text) (start stop first : Nat) (o : Pass σ ζ) :
    Prop where
  stays : g.StaysInLine
  le : stop ≤ text.length
  orderly : o.Orderly text start stop first
  lets : o.LetsGo g

theorem proper_outset {rank : σ → Nat} {holds : ζ → Prop} (hs : g.Settles rank holds)
    (hm : g.StaysInLine) {len : Nat} (hle : start + len ≤ text.length) (s : σ) (store : LineStore)
    (styles : Styles σ) :
    (outset g text start len s store styles).Proper g text start (start + len)
      ((text.take start).count newline) :=
  ⟨hm, hle, orderly_outset hm hle s store styles, letsGo_of_settles hs hm (hs.begin _ _) rfl⟩

theorem proper_first {rank : σ → Nat} {holds : ζ → Prop} (hs : g.Settles rank holds)
    (hm : g.StaysInLine) (text : Text) :
    (Pass.first g text).Proper g text 0 text.length 0 := by
  have hproper := proper_outset hs hm (Nat.le_of_eq (Nat.zero_add text.length)) Palette.plain
    #[] #[]
  rwa [outset_zero, Nat.zero_add] at hproper

namespace Proper

variable (h : o.Proper g text start stop first)

include h

/-- The end of a scan comes later than whatever the scan comes by. -/
theorem later (n : Nat) (last : Bool) : (o.run g n).Later (o.completed g last) := by
  refine .trans ?_ (.finish h.stays _ last)
  rcases Nat.le_total n o.cost with hle | hle
  · obtain ⟨m, hm⟩ := Nat.exists_eq_add_of_le hle
    rw [hm, run_add]
    exact .run h.stays _ m
  · rw [run_of_le g (h.stays.goesOn.ahead_run (g := g) h.orderly.few) hle]
    exact .refl _

theorem within (hrule : g.leave c z = .pass d y) : c.Within d := by
  have hleave := h.stays.leave c z
  rwa [hrule] at hleave

theorem start_completed (last : Bool) : (o.completed g last).cursor.start = start := by
  have hrun := (h.orderly.run h.stays o.cost).start
  cases last with
  | false => exact hrun
  | true => exact ((leaveLast_within h.stays maxRescans _).1.start_eq).trans hrun

end Proper

/-! ### From place to place -/

/-- The pass `o` comes by this place, with these data. -/
def ComesTo (g : Grammar σ ζ) (o : Pass σ ζ) (c : Cursor σ) (z : ζ) : Prop :=
  ∃ n, (o.run g n).cursor = c ∧ (o.run g n).data = z

/-- The pass `o` is in the plain category at the offset `i`: there it lets go of the run in
progress, if there is one, and asks what begins. -/
def PlainAt (g : Grammar σ ζ) (o : Pass σ ζ) (i : Nat) : Prop :=
  ∃ c z d y, o.ComesTo g c z ∧ g.leave c z = .pass d y ∧ d.state = Palette.plain ∧ d.pos = i

/-- All bytes from the offset `i` up to `j` have got a category of the kind. -/
def Fills (kind : σ → Prop) (i j : Nat) (p : Pass σ ζ) : Prop :=
  ∀ k, i ≤ k → k < j → ∃ s, p.cursor.passed[k - p.cursor.start]? = some s ∧ kind s

namespace ComesTo

/-- What is let go of is passed. -/
theorem pass (h : o.ComesTo g c z) (hmore : c.more = true) (hrule : g.dispatch c z = .pass d y) :
    o.ComesTo g (g.goOn d y).1 (g.goOn d y).2 := by
  obtain ⟨n, rfl, rfl⟩ := h
  refine ⟨n + 1, ?_⟩
  rw [run_succ', if_pos hmore, step_of_pass hrule]
  exact advance_eq_goOn g _ d y

variable (hp : o.Proper g text start stop first)

include hp

/-- Where the rules ask to look again, they do. -/
theorem again (h : o.ComesTo g c z) (hmore : c.more = true)
    (hrule : g.dispatch c z = .again d y) : o.ComesTo g d y := by
  obtain ⟨n, rfl, rfl⟩ := h
  refine ⟨n + 1, ?_⟩
  rw [run_succ', if_pos hmore, step_of_again hrule (hp.lets.unforced n d y hmore hrule)]
  exact ⟨rfl, rfl⟩

theorem stands (h : o.ComesTo g c z) : c.Stands text stop ∧ c.start = start := by
  obtain ⟨n, rfl, -⟩ := h
  have hrun := hp.orderly.run hp.stays n
  exact ⟨hrun.stands, hrun.start⟩

/-- A newline that is let go of ends its line, which is written down. -/
theorem mem_ended (h : o.ComesTo g c z) (hmore : c.more = true)
    (hrule : g.dispatch c z = .pass d y) (hend : d.atLineEnd = true) (last : Bool) :
    (d.line, (g.endLine d y).1) ∈ (o.completed g last).ended := by
  obtain ⟨n, rfl, rfl⟩ := h
  refine (hp.later (n + 1) last).ended.subset ?_
  rw [run_succ', if_pos hmore, step_of_pass hrule, (advance_over g hend).2.2.2]
  exact List.mem_cons_self

end ComesTo

/-- In the plain category, where nothing is to be let go of, the scan is where it comes to. -/
theorem ComesTo.plainAt (h : o.ComesTo g c z) (hplain : c.state = Palette.plain)
    (hrule : g.leave c z = .pass c z) : o.PlainAt g c.pos :=
  ⟨c, z, c, z, h, hrule, hplain, rfl⟩

/-- Before the end of its part, a scan in the plain category asks what begins. -/
theorem PlainAt.asks (hp : o.Proper g text start stop first) (h : o.PlainAt g i) (hi : i < stop) :
    ∃ c z d y, o.ComesTo g c z ∧ c.more = true ∧ g.dispatch c z = g.enter d y ∧
      d.state = Palette.plain ∧ d.pos = i ∧ d.Stands text stop := by
  obtain ⟨c, z, d, y, hcomes, hrule, hplain, rfl⟩ := h
  have hmoves := hp.within hrule
  have hstands := (hcomes.stands hp).1.within hmoves
  have hmore : c.more = true := by
    have hle := hmoves.onward.ahead.length_le
    have hlen := hp.le
    rw [hstands.ahead, List.length_drop, List.length_take] at hle
    have hpos : 0 < c.ahead.length := by omega
    simpa [Cursor.more] using List.length_pos_iff.1 hpos
  exact ⟨c, z, d, y, hcomes, hmore, Grammar.dispatch_of_plain hrule hplain, hplain, rfl, hstands⟩

/-! ### What a construct is filled with -/

section Fills

variable (hp : o.Proper g text start stop first)

include hp

/-- What is closed is left as it is. -/
theorem fills_of_closed (hc : c.Stands text stop) (hstart : c.start = start)
    (hword : c.word = []) (hall : c.AllFrom kind i) (hi : start ≤ i) {last : Bool}
    (hclosed : c.closed <:+ (o.completed g last).cursor.closed) :
    (o.completed g last).Fills kind i c.pos := by
  intro k hik hk
  obtain ⟨s, hs, hkind⟩ := hall.getElem?_passed hc (hstart ▸ hi) hik hk
  have hspent : c.spent <:+ (o.completed g last).cursor.spent := by
    rw [Cursor.spent, hword]
    exact hclosed.trans (List.suffix_append _ _)
  obtain ⟨t, ht⟩ := hspent.reverse
  refine ⟨s, ?_, hkind⟩
  rw [hp.start_completed, Cursor.passed_eq, ← ht, ← Cursor.passed_eq, ← hstart]
  exact (List.getElem?_append_left (List.getElem?_eq_some_iff.1 hs).1).trans hs

/-- A construct that has ended where the scan comes by. -/
theorem ComesTo.fills (h : o.ComesTo g c z) (hword : c.word = []) (hall : c.AllFrom kind i)
    (hi : start ≤ i) (last : Bool) : (o.completed g last).Fills kind i c.pos := by
  obtain ⟨hc, hstart⟩ := h.stands hp
  obtain ⟨n, rfl, -⟩ := h
  exact fills_of_closed hp hc hstart hword hall hi (hp.later n last).closed

/-- A construct whose last run is let go of in the plain category. -/
theorem ComesTo.fills_of_pass (h : o.ComesTo g c z) (hmore : c.more = true)
    (hrule : g.leave c z = .pass d y) (hplain : d.state = Palette.plain) (hword : d.word = [])
    (hall : d.AllFrom kind i) (hi : start ≤ i) (last : Bool) :
    (o.completed g last).Fills kind i d.pos := by
  obtain ⟨hc, hstart⟩ := h.stands hp
  have hmoves := hp.within hrule
  obtain ⟨n, rfl, rfl⟩ := h
  refine fills_of_closed hp (hc.within hmoves) (hmoves.start_eq.trans hstart) hword hall hi ?_
  have hasked : d.closed <:+ ((o.run g n).asked g).cursor.closed := by
    rw [asked, Grammar.dispatch_of_plain hrule hplain]
    exact (hp.stays.enter d y).closed
  have hstep := Later.of_asked g (o.run g n)
  have hlater := hp.later (n + 1) last
  rw [run_succ', if_pos hmore] at hlater
  exact hasked.trans (hstep.trans hlater).closed

/-- A construct that the end of the scan cuts off: what is left there as the last run still has a
category of the kind. -/
theorem ComesTo.fills_end (h : o.ComesTo g c z) (hnil : c.ahead = [])
    (inv : Cursor σ → ζ → Prop) (hc : inv c z)
    (hinv : ∀ c z, c.ahead = [] → inv c z → inv (g.leave c z).cursor (g.leave c z).data)
    (hall : ∀ c z, inv c z → c.AllFrom kind i) (hi : start ≤ i) (last : Bool) :
    (o.completed g last).Fills kind i stop := by
  obtain ⟨n, rfl, rfl⟩ := h
  have hrun : o.run g o.cost = o.run g n :=
    run_eq_of_ahead_nil (hp.stays.goesOn.ahead_run (g := g) hp.orderly.few) hnil
  have horder := hp.orderly.run hp.stays n
  have hend : ∃ e w, inv e w ∧ e.ahead = [] ∧ e.Stands text stop ∧ e.start = start ∧
      (o.completed g last).cursor.passed = e.passed := by
    rw [completed, hrun]
    cases last with
    | false => exact ⟨_, _, hc, hnil, horder.stands, horder.start, rfl⟩
    | true =>
      obtain ⟨hmoves, -⟩ := leaveLast_within hp.stays maxRescans (o.run g n)
      obtain ⟨hleft, hnil'⟩ := leaveLast_invariant
        (fun p => inv p.cursor p.data ∧ p.cursor.ahead = []) (fun p hp' =>
          ⟨hinv _ _ hp'.2 hp'.1, List.suffix_nil.1 (hp'.2 ▸ (hp.stays.leave _ _).onward.ahead)⟩)
        ⟨hc, hnil⟩ maxRescans
      exact ⟨_, _, hleft, hnil', horder.stands.within hmoves,
        hmoves.start_eq.trans horder.start, rfl⟩
  obtain ⟨e, w, he, hnil', hstands, hstart, hpassed⟩ := hend
  intro k hik hk
  rw [hp.start_completed, hpassed, ← hstart]
  exact (hall e w he).getElem?_passed hstands (hstart ▸ hi) hik
    (by rwa [hstands.pos_of_ahead_nil hp.le hnil'])

end Fills

end Pass

/-! ### In a session -/

namespace Session

open Pass

variable [DecidableEq σ] {g : Grammar σ ζ} {r : Regime σ ζ} {text : Text} {i j l : Nat}
  {kind : σ → Prop} {st : LineState}

/-- What the scan of a whole text has filled is highlighted so. -/
theorem exists_style (hg : g.Keeps r) (s : Session σ)
    (h : ((Pass.first g text).completed g text.unended).Fills kind i j) {k : Nat} (hi : i ≤ k)
    (hj : k < j) : ∃ a, (s.highlight g text).1.styles[k]? = some a ∧ kind a := by
  obtain ⟨a, ha, hkind⟩ := h k hi hj
  rw [completed, ← Pass.fresh_eq, fresh_start hg, Nat.sub_zero] at ha
  refine ⟨a, ?_, hkind⟩
  rw [highlight_eq hg, List.getElem?_toArray, ha]

end Session

end Highlight
