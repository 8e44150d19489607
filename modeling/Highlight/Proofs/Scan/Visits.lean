import Highlight.Proofs.Scan.Through
import Highlight.Proofs.Session.LastLine

/-!
The places a scan comes by. A text of a known form is followed place by place: from a place that the
scan visits, the answer of the rules there tells the next one (`Visits.pass`, `Visits.again`), and
the place at the end of the text tells what the scan finds (`Visits.fresh_eq`). What is known of the
categories on the way are marks, one for each byte, some of them left open (`Fits`).
-/

namespace Highlight

open Byte

variable {σ ζ : Type}

/-! ### Marks -/

/-- The categories are the marked ones, where there is a mark. -/
def Fits (marks : List (Option σ)) (styles : List σ) : Prop :=
  List.Forall₂ (fun m s => ∀ a ∈ m, s = a) marks styles

namespace Fits

variable {marks marks' : List (Option σ)} {styles styles' : List σ}

theorem append (h : Fits marks styles) (h' : Fits marks' styles') :
    Fits (marks ++ marks') (styles ++ styles') := List.rel_append h h'

/-- Marks that stand behind one another fit behind one another. -/
theorem of_append (marks : List (Option σ)) (h : Fits (marks ++ marks') styles) :
    Fits marks (styles.take marks.length) ∧ Fits marks' (styles.drop marks.length) := by
  have hleft := List.forall₂_take marks.length h
  have hright := List.forall₂_drop marks.length h
  rw [List.take_left] at hleft
  rw [List.drop_left] at hright
  exact ⟨hleft, hright⟩

theorem head?_eq {a : σ} (h : Fits (some a :: marks) styles) : styles.head? = some a := by
  cases h with
  | cons ha _ => exact congrArg some (ha a rfl)

end Fits

/-! ### Places -/

variable [Palette σ] [DecidableEq σ]

namespace Pass

variable {g : Grammar σ ζ} {text : Text} {c d : Cursor σ} {y z : ζ} {rank : σ → Nat}
  {holds : ζ → Prop}

/-- The scan of the text comes by this place, with these data. -/
def Visits (g : Grammar σ ζ) (text : Text) (c : Cursor σ) (z : ζ) : Prop :=
  ∃ n, ((first g text).run g n).cursor = c ∧ ((first g text).run g n).data = z

theorem visits_first (g : Grammar σ ζ) (text : Text) :
    Visits g text (first g text).cursor (first g text).data := ⟨0, rfl, rfl⟩

/-- A byte that is let go of within its line is passed. -/
theorem Visits.pass (h : Visits g text c z) (hmore : c.more = true)
    (hrule : g.dispatch c z = .pass d y) (hd : d.byte ≠ newline) : Visits g text d.forward y := by
  have hnext := ComesTo.pass h hmore hrule
  rwa [Grammar.goOn_of_ne g hd] at hnext

/-- Where the rules ask to look again, they do. -/
theorem Visits.again (hs : g.Settles rank holds) (hm : g.StaysInLine) (h : Visits g text c z)
    (hmore : c.more = true) (hrule : g.dispatch c z = .again d y) : Visits g text d y :=
  ComesTo.again (proper_first hs hm text) h hmore hrule

/-- The end of the last line. If the run in progress is left there at once, its end is the end of
the scan. -/
theorem Visits.fresh_eq (hm : g.StaysInLine) (h : Visits g text c z) (hend : c.ahead = [])
    (hrule : g.leave c z = .pass d y) (htext : text.unended = true) :
    (fresh g text).cursor = d.newLine ∧ (fresh g text).data = (g.endLine d y).2 ∧
      ∃ ended, (fresh g text).ended = (d.line, (g.endLine d y).1) :: ended := by
  obtain ⟨n, rfl, rfl⟩ := h
  rw [fresh_eq_finish hm hend, htext, finish, if_pos rfl]
  have hleave : ((first g text).run g n).leaveLast g maxRescans =
      { (first g text).run g n with cursor := d, data := y } := by
    change ((first g text).run g n).leaveLast g (15 + 1) = _
    rw [leaveLast, hrule]
  rw [hleave]
  exact ⟨rfl, rfl, _, rfl⟩

/-- **What a scan finds that comes by the end of the text.** -/
theorem Visits.finds {r : Regime σ ζ} (hg : g.Keeps r) (hm : g.StaysInLine)
    (h : Visits g text c z) (hend : c.ahead = []) (hrule : g.leave c z = .pass d y)
    (htext : text.unended = true) (s : Session σ) :
    let answer := s.highlight g text
    let state := (g.endLine d y).1
    (∃ found, answer.2 = .ok found ∧ found.endState = d.state ∧
      found.nesting = g.nesting (g.endLine d y).2) ∧
    answer.1.styles.toList = d.passed ∧
    answer.1.store.state d.line = { state with flags := state.flags.known } := by
  intro answer state
  obtain ⟨hcursor, hdata, ended, hended⟩ := h.fresh_eq hm hend hrule htext
  have hanswer : answer = _ := Session.highlight_eq hg s text
  have hstate : (fresh g text).cursor.state = d.state := by
    rw [hcursor]
    rfl
  rw [hanswer]
  refine ⟨⟨_, rfl, hstate, congrArg g.nesting hdata⟩, ?_, ?_⟩
  · rw [hcursor]
    rfl
  · have hmem : (d.line, state) ∈ (fresh g text).ended := by
      rw [hended]
      exact List.mem_cons_self
    have hkept := Session.state_fresh hg hmem
    rwa [Session.fresh_eq hg] at hkept

end Pass

end Highlight
