import Highlight.Proofs.Scan.Renamed
import Highlight.Proofs.Session.Forgets

/-!
Two grammars that differ only in names. If the scans of a text find the same but for the names of
categories, the sessions are left with the same line states and fold levels, and with the same
categories but for their names (`Session.SameUnder`).
-/

namespace Highlight

open Palette (Renames)

variable {σ τ ζ : Type} [Palette σ] [DecidableEq σ] {f : σ → τ} {g g' : Grammar σ ζ} {text : Text}

/-- The passes have found the same, but for the names of categories. -/
structure Pass.SameUnder (f : σ → τ) (g g' : Grammar σ ζ) (p p' : Pass σ ζ) : Prop where
  state : f p.cursor.state = f p'.cursor.state
  passed : p.cursor.passed.map f = p'.cursor.passed.map f
  ended : p.ended = p'.ended
  nesting : g.nesting p.data = g'.nesting p'.data

/-- The scans have found the same, but for the names of categories. -/
structure Outcome.SameUnder (f : σ → τ) (o o' : Outcome σ) : Prop where
  categories : (Run.expand o.runs).map f = (Run.expand o'.runs).map f
  endState : f o.endState = f o'.endState
  firstLine : o.firstLine = o'.firstLine
  nextLine : o.nextLine = o'.nextLine
  nesting : o.nesting = o'.nesting

omit [Palette σ] in
theorem Pass.SameUnder.outcome {p p' : Pass σ ζ} (h : p.SameUnder f g g' p') (first : Nat) :
    (p.outcome g first).SameUnder f (p'.outcome g' first) where
  categories := by
    simp only [Pass.outcome, Cursor.runs, Run.expand_encode]
    exact h.passed
  endState := h.state
  firstLine := rfl
  nextLine := by simp only [Pass.outcome, h.ended]
  nesting := h.nesting

/-- Scans that mirror the same scan find the same, but for the names of categories. -/
theorem Grammar.Mirrors.sameUnder {ξ : Type} [Palette τ] [DecidableEq τ] {g₀ : Grammar τ ξ}
    {k k' : ζ → ξ} {b : Byte} (h : g.Mirrors f k b g₀) (h' : g'.Mirrors f k' b g₀)
    (hg : g.GoesOn) (hg' : g'.GoesOn) (hb : b ∉ text) :
    (Pass.fresh g text).SameUnder f g g' (Pass.fresh g' text) := by
  have hmap : (Pass.fresh g text).map f k = (Pass.fresh g' text).map f k' :=
    (h.fresh_map hg hb).symm.trans (h'.fresh_map hg' hb)
  have hcursor := congrArg Pass.cursor hmap
  have hpassed := congrArg Cursor.passed hcursor
  simp only [Pass.map, Cursor.passed_map] at hpassed
  have hended := congrArg Pass.ended hmap
  refine ⟨congrArg Cursor.state hcursor, hpassed, hended, ?_⟩
  rw [← h.nesting, ← h'.nesting]
  exact congrArg (g₀.nesting ·.data) hmap

namespace Session

/-- Two scans of the text left the sessions the same and answered the same, but for the names of
categories. -/
structure SameUnder (f : σ → τ) (g g' : Grammar σ ζ) (text : Text)
    (a a' : Session σ × Except ScanError (Outcome σ)) : Prop where
  outcome : ∃ found found', a.2 = .ok found ∧ a'.2 = .ok found' ∧ found.SameUnder f found'
  styles : a.1.styles.map f = a'.1.styles.map f
  store : a.1.store = a'.1.store
  foldLevels : a.1.foldLevels g text = a'.1.foldLevels g' text

/-- Whole texts are scanned the same, but for the names of categories, in any two sessions. -/
theorem sameUnder_of_fresh [Palette τ] (hf : Renames f) (hg : g.StaysInLine) (hg' : g'.StaysInLine)
    (hfolding : g.folding = g'.folding)
    (h : (Pass.fresh g text).SameUnder f g g' (Pass.fresh g' text)) (s s' : Session σ) :
    SameUnder f g g' text (s.highlight g text) (s'.highlight g' text) := by
  rw [highlight_of_staysInLine hg, highlight_of_staysInLine hg']
  have hstyles : (Pass.fresh g text).cursor.passed.toArray.map f =
      (Pass.fresh g' text).cursor.passed.toArray.map f := by
    rw [List.map_toArray, List.map_toArray, h.passed]
  have hstore : Pass.freshStore g text = Pass.freshStore g' text :=
    congrArg (LineStore.recordAll #[]) h.ended
  refine ⟨⟨_, _, rfl, rfl, h.outcome 0⟩, hstyles, hstore, ?_⟩
  simp only [Session.foldLevels]
  rw [← foldLevels_map hf, ← foldLevels_map (f := f) hf g'.folding, hstyles, hstore, hfolding]

end Session

end Highlight
