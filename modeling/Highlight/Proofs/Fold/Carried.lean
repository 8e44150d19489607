import Highlight.Fold.Document

/-!
Folding by indentation when it is said which lines are carried. Which lines start inside a region
opened earlier is read off the states of neighbouring lines; said in another way, line by line, it
gives the same levels (`Indentation.levels_eq`).
-/

namespace Highlight.Indentation

open FoldLevel

/-- The indent of every line from the line `line` on that decides about blocks, none for blank
lines, where `carried` says which lines start inside a region opened earlier. Before the first of
these lines, `opener` is the indent of the last one that was not carried. -/
def indentsBy (carried : Nat → Bool) (line opener : Nat) : List LineState → List (Option Nat)
  | [] => []
  | s :: rest =>
    if carried line then some (opener + 1) :: indentsBy carried (line + 1) opener rest
    else if s.flags.blank then none :: indentsBy carried (line + 1) opener rest
    else some s.indent.toNat :: indentsBy carried (line + 1) s.indent.toNat rest

/-- The fold levels of the first lines of a store, where `carried` says which lines start inside a
region opened earlier. -/
def levelsBy (carried : Nat → Bool) (store : LineStore) (count : Nat) : List FoldLevel :=
  let states := statesOf store count
  let (starts, last) :=
    startsFrom [] ((indentsBy carried 0 0 states).zip (states.map (·.flags.closer)))
  ofStarts last states starts

theorem indentsFrom_eq (store : LineStore) (n line opener : Nat) :
    indentsFrom (store.stateBefore line) opener ((List.range' line n).map store.state) =
      indentsBy (fun i => carried (store.stateBefore i) (store.state i)) line opener
        ((List.range' line n).map store.state) := by
  induction n generalizing line opener with
  | zero => rfl
  | succ n ih =>
    rw [List.range'_succ, List.map_cons, indentsFrom, indentsBy]
    -- the line is the one before the next
    have hnext := fun opener => ih (line + 1) opener
    change ∀ opener, indentsFrom (store.state line) opener _ = _ at hnext
    simp only [hnext]

theorem indentsBy_congr {c c' : Nat → Bool} (states : List LineState) (line opener : Nat)
    (h : ∀ i, line ≤ i → i < line + states.length → c i = c' i) :
    indentsBy c line opener states = indentsBy c' line opener states := by
  induction states generalizing line opener with
  | nil => rfl
  | cons s rest ih =>
    have hhere := h line (Nat.le_refl _) (by simp)
    have hrest := fun opener => ih (line + 1) opener fun i hi hlt =>
      h i (by omega) (by simp only [List.length_cons]; omega)
    simp only [indentsBy, hhere, hrest]

theorem levelsBy_congr {c c' : Nat → Bool} (store : LineStore) {count : Nat}
    (h : ∀ i < count, c i = c' i) : levelsBy c store count = levelsBy c' store count := by
  have hindents : indentsBy c 0 0 (statesOf store count) =
      indentsBy c' 0 0 (statesOf store count) :=
    indentsBy_congr _ 0 0 fun i _ hi => h i (by simpa [statesOf] using hi)
  simp only [levelsBy, hindents]

/-- **Levels by what is said of every line.** The levels are those for the lines that are carried by
the states of the line and the one before it. -/
theorem levels_eq (store : LineStore) (count : Nat) :
    levels store count =
      levelsBy (fun i => carried (store.stateBefore i) (store.state i)) store count := by
  have hstates : statesOf store count = (List.range' 0 count).map store.state := by
    rw [statesOf, List.range_eq_range']
  have hindents := indentsFrom_eq store count 0 0
  rw [← hstates] at hindents
  simp only [levels, levelsBy, indents]
  rw [← hindents]
  rfl

end Highlight.Indentation
