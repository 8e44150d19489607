import Highlight.Proofs.Scan.Escape
import Highlight.Proofs.Scan.Orderly

/-!
Settling. Rules hand a byte over to one another: a word to what it stands in, an escape to its
string, a value to a key and a key to an error. A rank of the states (`Grammar.Settles`) shows that
this comes to an end: whoever asks to look at the byte again leaves a state of lower rank, unless
the place itself has moved on. So no more than `maxRescans` answers at one place ask to look again,
a pass is never forced on, and the last run is left in time (`Pass.LetsGo`).
-/

namespace Highlight

open Byte

variable {σ ζ : Type}

namespace Flow

/-- What was answered at `c` leaves data of which `holds` is true, and asks to look again only at a
later place or in a state of lower rank. -/
def Settling (rank : σ → Nat) (holds : ζ → Prop) (c : Cursor σ) : Flow σ ζ → Prop
  | pass _ z => holds z
  | again d z => holds z ∧ (d.ahead.length < c.ahead.length ∨ rank d.state < rank c.state)

/-- The place at which an answer asks to look again, if it does. -/
def looks : Flow σ ζ → List Nat
  | pass _ _ => []
  | again d _ => [d.pos]

variable {rank : σ → Nat} {holds : ζ → Prop} {c d : Cursor σ} {z : ζ}

/-- An answer that comes after moves from `c` settles from `c` if it settles from there. -/
theorem Settling.after {f : Flow σ ζ} (hf : f.Settling rank holds d) (hd : d.ahead <:+ c.ahead)
    (hs : rank d.state ≤ rank c.state) : f.Settling rank holds c := by
  cases f with
  | pass e z => exact hf
  | again e z =>
    obtain ⟨hz, hlt⟩ := hf
    have hle := hd.length_le
    exact ⟨hz, by omega⟩

/-- A byte that is there was passed: the place has moved on. -/
theorem Settling.moved [Palette σ] (hz : holds z) (hd : d.ahead <:+ c.ahead) (hb : d.byte ≠ 0)
    (s : σ) : (again (d.forwardSwitch s) z).Settling rank holds c := by
  refine ⟨hz, .inl ?_⟩
  change d.forward.ahead.length < _
  rw [Cursor.ahead_forward]
  have hle := hd.length_le
  cases ha : d.ahead with
  | nil => exact absurd (by simp [Cursor.byte, Cursor.peek, ha]) hb
  | cons b t =>
    rw [ha] at hle
    exact hle

/-- The byte at hand is there, and was passed, and maybe others after it. -/
theorem Settling.passed {n : Nat} (hz : holds z) (hb : c.byte ≠ 0)
    (hd : d.ahead = c.ahead.drop (n + 1)) : (again d z).Settling rank holds c := by
  refine ⟨hz, .inl ?_⟩
  rw [hd, List.length_drop]
  cases ha : c.ahead with
  | nil => exact absurd (by simp [Cursor.byte, Cursor.peek, ha]) hb
  | cons b t =>
    rw [List.length_cons]
    omega

end Flow

variable [Palette σ]

/-- The rules of the grammar let go of every place: the states have ranks below `maxRescans`, and
each answer settles by them. What is always true of the data is `holds`. -/
structure Grammar.Settles (g : Grammar σ ζ) (rank : σ → Nat) (holds : ζ → Prop) : Prop where
  low : ∀ s, rank s < maxRescans
  plain : rank Palette.plain = 0
  begin : ∀ (c : Cursor σ) b, holds (g.begin c b).2
  leave : ∀ (c : Cursor σ) z, holds z → (g.leave c z).Settling rank holds c
  enter : ∀ (c : Cursor σ) z, holds z → (g.enter c z).Settling rank holds c
  endLine : ∀ (c : Cursor σ) z, holds z → holds (g.endLine c z).2

/-- At one place, both rules together settle. -/
theorem Grammar.Settles.dispatch [DecidableEq σ] {g : Grammar σ ζ} {rank : σ → Nat}
    {holds : ζ → Prop} (hg : g.Settles rank holds) (hm : g.StaysInLine) (c : Cursor σ) {z : ζ}
    (hz : holds z) : (g.dispatch c z).Settling rank holds c := by
  have hleave := hg.leave c z hz
  have hmoves := hm.leave c z
  unfold Grammar.dispatch
  cases hrule : g.leave c z with
  | again d y =>
    rw [hrule] at hleave
    exact hleave
  | pass d y =>
    rw [hrule] at hleave hmoves
    simp only
    split
    case isTrue hplain =>
      refine (hg.enter d y hleave).after hmoves.onward.ahead ?_
      rw [hplain, hg.plain]
      exact Nat.zero_le _
    case isFalse => exact hleave

/-! ### Escapes -/

namespace Escape

variable {rank : σ → Nat} {holds : ζ → Prop} {c : Cursor σ} {keep : Escape σ → ζ}

/-- Where an escape begins, nothing is looked at again. -/
theorem enter_settling (e : EscapeSyntax) (s : σ) {z : ζ} (hz : holds z)
    (hkeep : ∀ e, e.outer = c.state → holds (keep e)) :
    (enter e s c z keep).Settling rank holds c := by
  unfold enter
  split
  case isTrue => exact hz
  case isFalse =>
    simp only
    split
    · exact hkeep _ rfl
    · exact hkeep _ rfl

/-- Where an escape ends, the byte is looked at again in the state of what it stands in. -/
theorem leave_settling (e : Escape σ) (hkeep : holds (keep e.count))
    (hrank : rank e.outer < rank c.state) : (leave e c keep).Settling rank holds c := by
  unfold leave
  simp only
  split
  case isTrue => exact ⟨hkeep, .inr hrank⟩
  case isFalse => exact hkeep

end Escape

namespace Pass

/-- The places at which the rules ask to look again, in the first `n` steps of a pass. -/
def looks [DecidableEq σ] (g : Grammar σ ζ) : Nat → Pass σ ζ → List Nat
  | 0, _ => []
  | n + 1, o =>
    let p := o.run g n
    looks g n o ++ if p.cursor.more then (g.dispatch p.cursor p.data).looks else []

/-- The last run of a pass is left after its rule has asked `k` times to look again. -/
inductive Leaves (g : Grammar σ ζ) : Nat → Pass σ ζ → Pass σ ζ → Prop where
  | pass {p : Pass σ ζ} {d : Cursor σ} {y : ζ} (h : g.leave p.cursor p.data = .pass d y) :
      Leaves g 0 p { p with cursor := d, data := y }
  | again {k : Nat} {p q : Pass σ ζ} {d : Cursor σ} {y : ζ}
      (h : g.leave p.cursor p.data = .again d y)
      (rest : Leaves g k { p with cursor := d, data := y } q) : Leaves g (k + 1) p q

/-- The rules let go of every place to which the pass `o` comes, so that it is never forced on. -/
structure LetsGo [DecidableEq σ] (g : Grammar σ ζ) (o : Pass σ ζ) : Prop where
  /-- No place is looked at again more than `maxRescans` times. -/
  few : ∀ n i, (o.looks g n).count i ≤ maxRescans
  /-- Wherever the rules ask to look again, they may. -/
  unforced : ∀ n d y, (o.run g n).cursor.more = true →
    g.dispatch (o.run g n).cursor (o.run g n).data = .again d y →
    (if d.pos = (o.run g n).cursor.pos then (o.run g n).rescans + 1 else 1) ≤ maxRescans
  /-- At the end the last run is left before its rule was asked `maxRescans` times, and what that
  takes is not too much even with what came before. -/
  leaves : ∀ n, (o.run g n).cursor.more = false →
    ∃ k q, k < maxRescans ∧ (o.run g n).Leaves g k q ∧ (o.run g n).leaveLast g maxRescans = q ∧
      (o.looks g n).count (o.run g n).cursor.pos + k ≤ maxRescans

variable {g : Grammar σ ζ} {rank : σ → Nat} {holds : ζ → Prop} {o p q : Pass σ ζ}

/-! ### The end -/

omit [Palette σ] in
/-- With one dispatch more than there are answers that ask to look again, the last run is left. -/
theorem Leaves.leaveLast {k n : Nat} (h : p.Leaves g k q) (hn : k < n) :
    p.leaveLast g n = q := by
  induction h generalizing n with
  | pass h =>
    obtain ⟨n, rfl⟩ := Nat.exists_eq_add_of_lt hn
    rw [Pass.leaveLast, h]
  | again h _ ih =>
    obtain ⟨n, rfl⟩ := Nat.exists_eq_add_of_lt hn
    rw [Pass.leaveLast, h]
    exact ih (by omega)

/-- At the end of the chunk nothing moves on, so that the ranks alone bound the answers. -/
theorem exists_leaves (hg : g.Settles rank holds) (hm : g.StaysInLine) (hz : holds p.data)
    (hnil : p.cursor.ahead = []) : ∃ k q, k ≤ rank p.cursor.state ∧ p.Leaves g k q := by
  induction hr : rank p.cursor.state using Nat.strongRecOn generalizing p with
  | _ r ih =>
    have hsettling := hg.leave p.cursor p.data hz
    have hmoves := hm.leave p.cursor p.data
    cases hrule : g.leave p.cursor p.data with
    | pass d y => exact ⟨0, _, Nat.zero_le _, .pass hrule⟩
    | again d y =>
      rw [hrule] at hsettling hmoves
      obtain ⟨hy, hlt⟩ := hsettling
      have hd : d.ahead = [] := List.suffix_nil.1 (hnil ▸ hmoves.onward.ahead)
      have hless : rank d.state < r := by
        rcases hlt with hlt | hlt
        · rw [hnil] at hlt
          exact absurd hlt (Nat.not_lt_zero _)
        · exact hr ▸ hlt
      obtain ⟨k, q, hk, hq⟩ := ih _ hless (p := { p with cursor := d, data := y }) hy hd rfl
      refine ⟨k + 1, q, ?_, .again hrule hq⟩
      omega

/-! ### On the way -/

/-- The answers at this place so far and those that its state still allows are not too many. -/
structure Unforced (rank : σ → Nat) (holds : ζ → Prop) (p : Pass σ ζ) : Prop where
  holds : holds p.data
  few : p.rescans + rank p.cursor.state ≤ maxRescans

/-- The pass `p` has come to its place with `l` the places at which the rules asked to look
again. -/
structure Looked (l : List Nat) (p : Pass σ ζ) : Prop where
  few : ∀ i, l.count i ≤ maxRescans
  before : ∀ i, p.cursor.pos < i → l.count i = 0
  here : l.count p.cursor.pos ≤ p.rescans

theorem Unforced.advance (hg : g.Settles rank holds) (hz : holds p.data) :
    (p.advance g).Unforced rank holds := by
  refine ⟨?_, ?_⟩
  · unfold Pass.advance Pass.endLine
    split
    · exact hg.endLine _ _ hz
    · exact hz
  · rw [rescans_advance, Nat.zero_add]
    exact Nat.le_of_lt (hg.low _)

omit [Palette σ] in
/-- Before anything was looked at again, any place will do. -/
theorem looked_nil (p : Pass σ ζ) : p.Looked [] :=
  ⟨fun _ => Nat.zero_le _, fun _ _ => rfl, Nat.zero_le _⟩

omit [Palette σ] in
/-- At a later place nothing was looked at again yet. -/
theorem Looked.later {l : List Nat} (h : p.Looked l) (hpos : p.cursor.pos < q.cursor.pos) :
    q.Looked l := by
  refine ⟨h.few, fun i hi => h.before i (by omega), ?_⟩
  rw [h.before _ hpos]
  exact Nat.zero_le _

omit [Palette σ] in
/-- At the same place, one more look is counted. -/
theorem Looked.look {l : List Nat} {d : Cursor σ} {y : ζ} {n : Nat} (h : p.Looked l)
    (hpos : d.pos = p.cursor.pos) (hn : n = p.rescans + 1) (hfew : n ≤ maxRescans) :
    Looked (l ++ [d.pos]) { p with cursor := d, data := y, rescans := n } := by
  have hcount : ∀ i, (l ++ [d.pos]).count i = l.count i + if d.pos = i then 1 else 0 := by
    intro i
    rw [List.count_append, List.count_singleton]
    simp only [beq_iff_eq]
  have hhere := h.here
  refine ⟨fun i => ?_, fun i hi => ?_, ?_⟩
  · rw [hcount]
    by_cases hi : d.pos = i
    · rw [if_pos hi, ← hi, hpos]
      omega
    · rw [if_neg hi]
      exact h.few i
  · change d.pos < i at hi
    rw [hcount, h.before i (hpos ▸ hi), if_neg (Nat.ne_of_lt hi)]
  · change (l ++ [d.pos]).count d.pos ≤ n
    rw [hcount, if_pos rfl, hpos]
    omega

variable [DecidableEq σ]

/-- **One step.** It counts the answer if it asks to look again, and is not forced on. -/
theorem Unforced.step (hg : g.Settles rank holds) (hm : g.StaysInLine)
    (hmore : p.cursor.more = true) {l : List Nat} (h : p.Unforced rank holds) (hl : p.Looked l) :
    (p.step g).Unforced rank holds ∧
      (p.step g).Looked (l ++ (g.dispatch p.cursor p.data).looks) ∧
      ∀ d y, g.dispatch p.cursor p.data = .again d y →
        (if d.pos = p.cursor.pos then p.rescans + 1 else 1) ≤ maxRescans := by
  have hsettling := hg.dispatch hm p.cursor h.holds
  have honward := (hm.dispatch p.cursor p.data).onward
  have hlater := pos_lt_advance (g := g) honward.notBefore hmore
  have hfew := h.few
  unfold asked at hlater
  unfold Pass.step
  cases hrule : g.dispatch p.cursor p.data with
  | pass d y =>
    rw [hrule] at hsettling hlater
    refine ⟨.advance hg hsettling, ?_, fun _ _ e => by cases e⟩
    rw [Flow.looks, List.append_nil]
    exact hl.later hlater
  | again d y =>
    rw [hrule] at hsettling honward
    obtain ⟨hy, hlt⟩ := hsettling
    have hlow := hg.low d.state
    simp only [Flow.looks]
    by_cases hsame : d.pos = p.cursor.pos
    · have hless : rank d.state < rank p.cursor.state := by
        refine hlt.resolve_left fun hlt => ?_
        have hmoved := honward.notBefore.pos_lt hlt
        exact absurd hsame (Nat.ne_of_gt hmoved)
      have hle : p.rescans + 1 ≤ maxRescans := by omega
      simp only [if_pos hsame, if_pos hle]
      refine ⟨⟨hy, ?_⟩, hl.look hsame rfl hle, fun d' y' e => ?_⟩
      · simp only
        omega
      · obtain ⟨rfl, rfl⟩ := Flow.again.inj e
        rwa [if_pos hsame]
    · have hmoved : p.cursor.pos < d.pos :=
          Nat.lt_of_le_of_ne honward.notBefore.pos (Ne.symm hsame)
      have hle : 1 ≤ maxRescans := by decide
      simp only [if_neg hsame, if_pos hle]
      refine ⟨⟨hy, ?_⟩, ?_, fun d' y' e => ?_⟩
      · simp only
        omega
      · -- the first look at a new place
        have hnew : Looked l { p with cursor := d, data := y, rescans := 0 } := hl.later hmoved
        exact hnew.look (y := y) rfl rfl hle
      · obtain ⟨rfl, rfl⟩ := Flow.again.inj e
        rwa [if_neg hsame]

/-! ### A whole pass -/

theorem run_succ' (g : Grammar σ ζ) (n : Nat) (p : Pass σ ζ) :
    p.run g (n + 1) =
      if (p.run g n).cursor.more then (p.run g n).step g else p.run g n := by
  rw [run_add]
  split
  case isTrue h => rw [run_succ g 0 _ h, run]
  case isFalse h => exact run_of_not_more g 1 _ (by simpa using h)

theorem Unforced.run (hg : g.Settles rank holds) (hm : g.StaysInLine)
    (h : o.Unforced rank holds) (n : Nat) :
    (o.run g n).Unforced rank holds ∧ (o.run g n).Looked (o.looks g n) := by
  induction n with
  | zero =>
    exact ⟨h, looked_nil o⟩
  | succ n ih =>
    rw [run_succ', looks]
    by_cases hmore : (o.run g n).cursor.more = true
    · rw [if_pos hmore]
      simp only [if_pos hmore]
      obtain ⟨hun, hl, -⟩ := ih.1.step hg hm hmore ih.2
      exact ⟨hun, hl⟩
    · rw [if_neg hmore]
      simpa only [if_neg hmore, List.append_nil] using ih

/-- **A pass is never forced on** if the rules settle. -/
theorem letsGo_of_settles (hg : g.Settles rank holds) (hm : g.StaysInLine)
    (hz : holds o.data) (hidle : o.rescans = 0) : o.LetsGo g := by
  have hun : o.Unforced rank holds :=
    ⟨hz, by rw [hidle, Nat.zero_add]; exact Nat.le_of_lt (hg.low _)⟩
  refine ⟨fun n i => (hun.run hg hm n).2.few i, fun n d y hmore hrule => ?_, fun n hmore => ?_⟩
  · obtain ⟨h, hl⟩ := hun.run hg hm n
    exact (h.step hg hm hmore hl).2.2 d y hrule
  · obtain ⟨h, hl⟩ := hun.run hg hm n
    have hnil : (o.run g n).cursor.ahead = [] := by simpa [Cursor.more] using hmore
    obtain ⟨k, q, hk, hq⟩ := exists_leaves hg hm h.holds hnil
    have hlow := hg.low (o.run g n).cursor.state
    have hfew := h.few
    have hhere := hl.here
    refine ⟨k, q, by omega, hq, hq.leaveLast (by omega), by omega⟩

end Pass

end Highlight
