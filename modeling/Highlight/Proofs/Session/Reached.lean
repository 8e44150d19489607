import Highlight.Proofs.Scan.Part
import Highlight.Proofs.Session.Restyle

/-!
What every scan of a language keeps to, from wherever in whatever text it begins. A grammar whose
rules keep an invariant of its data (`Grammar.Guards`) sums up every line to a state of a certain
kind, and so every session that its scans lead to has only such states (`Reached.allLines`).
-/

namespace Highlight

variable {σ ζ : Type} [Palette σ]

/-- The rules keep the invariant `inv` of the data, and sum up lines to states of the kind `out`. -/
structure Grammar.Guards (g : Grammar σ ζ) (inv : ζ → Prop) (out : LineState → Prop) : Prop where
  begin : ∀ c b, inv (g.begin c b).2
  leave : ∀ c z, inv z → inv (g.leave c z).data
  enter : ∀ c z, inv z → inv (g.enter c z).data
  endLine : ∀ c z, inv z → out (g.endLine c z).1 ∧ inv (g.endLine c z).2

namespace Pass

/-- The pass keeps to the invariant, and so do the lines that it has ended. -/
structure Guarded (inv : ζ → Prop) (out : LineState → Prop) (p : Pass σ ζ) : Prop where
  data : inv p.data
  ended : ∀ e ∈ p.ended, out e.2

namespace Guarded

variable {g : Grammar σ ζ} {inv : ζ → Prop} {out : LineState → Prop} {p : Pass σ ζ}

theorem endLine (hg : g.Guards inv out) (h : p.Guarded inv out) :
    (p.endLine g).Guarded inv out := by
  obtain ⟨hout, hinv⟩ := hg.endLine p.cursor p.data h.data
  exact ⟨hinv, List.forall_mem_cons.2 ⟨hout, h.ended⟩⟩

theorem advance (hg : g.Guards inv out) (h : p.Guarded inv out) :
    (p.advance g).Guarded inv out := by
  unfold Pass.advance
  split
  · exact ⟨(h.endLine hg).data, (h.endLine hg).ended⟩
  · exact ⟨h.data, h.ended⟩

omit [Palette σ] in
theorem leaveLast (hg : g.Guards inv out) (n : Nat) (h : p.Guarded inv out) :
    (p.leaveLast g n).Guarded inv out :=
  leaveLast_invariant (Guarded inv out) (fun p h => ⟨hg.leave p.cursor p.data h.data, h.ended⟩) h n

variable [DecidableEq σ]

theorem asked (hg : g.Guards inv out) (h : p.Guarded inv out) : (p.asked g).Guarded inv out := by
  have hleave := hg.leave p.cursor p.data h.data
  refine ⟨?_, h.ended⟩
  unfold Pass.asked
  rcases dispatch_cases g p.cursor p.data with hrule | ⟨-, hrule⟩ <;> rw [hrule]
  · exact hleave
  · exact hg.enter _ _ hleave

theorem step (hg : g.Guards inv out) (h : p.Guarded inv out) : (p.step g).Guarded inv out := by
  have hasked := h.asked hg
  rcases step_cases g p with hstep | ⟨n, -, -, hstep⟩ <;> rw [hstep]
  · exact hasked.advance hg
  · exact ⟨hasked.data, hasked.ended⟩

theorem run (hg : g.Guards inv out) (n : Nat) (h : p.Guarded inv out) :
    (p.run g n).Guarded inv out :=
  run_invariant (Guarded inv out) (fun _ h _ => h.step hg) h n

omit [Palette σ] [DecidableEq σ] in
theorem opened (hg : g.Guards inv out) (c : Cursor σ) (before : LineState) :
    (opened g c before).Guarded inv out := ⟨hg.begin c before, by simp [Pass.opened]⟩

omit [DecidableEq σ] in
theorem finish (hg : g.Guards inv out) (last : Bool) (h : p.Guarded inv out) :
    (p.finish g last).Guarded inv out := by
  unfold Pass.finish
  split
  · exact (h.leaveLast hg _).endLine hg
  · exact h

/-- Every scan of a part of a text keeps to the invariant. -/
theorem ofPart (hg : g.Guards inv out) (text : Text) (start len : Nat) (s : σ) (store : LineStore)
    (styles : Styles σ) : (ofPart g text start len s store styles).Guarded inv out := by
  rw [Pass.ofPart, whole_eq]
  exact ((opened hg _ _).run hg _).finish hg _

end Guarded

end Pass

/-! ### Stores and sessions -/

/-- Every line of the store, those that were never written included, has a state of the kind. -/
def LineStore.All (kind : LineState → Prop) (s : LineStore) : Prop := ∀ i, kind (s.state i)

namespace LineStore.All

variable {kind : LineState → Prop} {s : LineStore}

theorem empty (h : kind {}) : All kind #[] := by
  intro i
  rwa [state_of_size_le (Nat.zero_le i)]

theorem take (hs : s.All kind) (h : kind {}) (n : Nat) : All kind (s.take n) := by
  intro i
  by_cases hi : i < n
  · rw [state, word_take hi]
    exact hs i
  · rwa [state_of_size_le (by rw [size_take]; omega)]

theorem recordAll (hs : s.All kind) {ended : List (Nat × LineState)}
    (h : ∀ e ∈ ended, kind (LineState.decode e.2.encode)) : (s.recordAll ended).All kind := by
  induction ended with
  | nil => exact hs
  | cons e ended ih =>
    obtain ⟨he, hrest⟩ := List.forall_mem_cons.1 h
    intro i
    rw [state, recordAll_cons, word_record]
    split
    · exact he
    · exact ih hrest i

end LineStore.All

namespace Session

variable [DecidableEq σ] {g : Grammar σ ζ}

/-- The sessions that scans of a language lead to. -/
inductive Reached (g : Grammar σ ζ) : Session σ → Prop where
  | new : Reached g {}
  | highlight {s} (text : Text) (h : Reached g s) : Reached g (s.highlight g text).1
  | scanRange {s} (text : Text) (start len : Nat) (h : Reached g s) :
      Reached g (s.scanRange g text start len).1
  | restyle {s} (text : Text) (line : Nat) (h : Reached g s) : Reached g (s.restyle g text line).1

variable {inv : ζ → Prop} {kind : LineState → Prop} {s : Session σ}

theorem allLines_scanRange (hg : g.Guards inv fun st => kind (LineState.decode st.encode))
    (h : s.store.All kind) (text : Text) (start len : Nat) :
    (s.scanRange g text start len).1.store.All kind := by
  unfold scanRange
  simp only
  generalize hscan : scan g text start len _ _ _ = answer
  cases answer with
  | error e => exact h
  | ok p =>
    change LineStore.All kind p.2
    rw [(of_scan_ok hscan).2.2]
    exact h.recordAll (Pass.Guarded.ofPart hg ..).ended

theorem allLines_restyle (hg : g.Guards inv fun st => kind (LineState.decode st.encode))
    (h₀ : kind {}) (h : s.store.All kind) (text : Text) (line : Nat) :
    (s.restyle g text line).1.store.All kind := by
  unfold restyle
  simp only
  generalize hscan : scan g text _ _ _ _ _ = answer
  cases answer with
  | error e => exact h
  | ok p =>
    refine LineStore.All.take ?_ h₀ _
    rw [(of_scan_ok hscan).2.2]
    exact h.recordAll (Pass.Guarded.ofPart hg ..).ended

/-- Whatever was scanned, every line has a state of the kind to which lines are summed up. -/
theorem Reached.allLines (hg : g.Guards inv fun st => kind (LineState.decode st.encode))
    (h₀ : kind {}) (h : Reached g s) : s.store.All kind := by
  induction h with
  | new => exact .empty h₀
  | @highlight s text _ _ =>
    exact allLines_scanRange (s := { s with store := #[] }) hg (.empty h₀) text 0 text.length
  | scanRange text start len _ ih => exact allLines_scanRange hg ih text start len
  | restyle text line _ ih => exact allLines_restyle hg h₀ ih text line

end Session

end Highlight
