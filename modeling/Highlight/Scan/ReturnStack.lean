/-!
The states to return to at the end of nested regions. Holes of interpolated strings and of markup,
and plain braces inside them, each save a state that the closing brace brings back. The stack holds
no more than `cap` states: beyond that it only counts, and closing a region that was only counted
brings back the innermost state held, so that wild nesting costs no memory.
-/

namespace Highlight

/-- A stack of states, bounded in what it holds. -/
structure ReturnStack (σ : Type) where
  /-- The states held, the innermost first. -/
  held : List σ := []
  /-- The number of open regions; those beyond `cap` were only counted. -/
  depth : Nat := 0
  /-- How many states may be held. -/
  cap : Nat
  /-- The greatest depth so far. -/
  peak : Nat := 0

namespace ReturnStack

variable {σ : Type}

/-- How many states a stack holds unless told otherwise. -/
def defaultCap : Nat := 256

/-- The stack with no region open. It may hold one state at least. -/
def empty (cap : Nat) : ReturnStack σ := { cap := max cap 1 }

/-- No region is open. -/
def isEmpty (s : ReturnStack σ) : Bool := s.depth == 0

/-- The stack with one more region open, to return to `a`. -/
def push (s : ReturnStack σ) (a : σ) : ReturnStack σ :=
  { s with
    held := if s.depth < s.cap then a :: s.held else s.held
    depth := s.depth + 1
    peak := max s.peak (s.depth + 1) }

/-- The state that the innermost region returns to, and the stack with that region closed. -/
def pop? (s : ReturnStack σ) : Option (σ × ReturnStack σ) :=
  match s.held with
  | [] => none
  | a :: rest =>
    some (a, { s with held := if s.depth ≤ s.cap then rest else s.held, depth := s.depth - 1 })

/-- The stack with the innermost region closed, if one is open. -/
def drop (s : ReturnStack σ) : ReturnStack σ := (s.pop?.map Prod.snd).getD s

/-- The stack holds the outermost states, as many as it may. -/
def Full (s : ReturnStack σ) : Prop := s.held.length = min s.depth s.cap

theorem full_empty (cap : Nat) : (empty cap : ReturnStack σ).Full := by simp [Full, empty]

theorem Full.push {s : ReturnStack σ} (h : s.Full) (a : σ) : (s.push a).Full := by
  unfold Full at *
  by_cases hd : s.depth < s.cap <;> simp [ReturnStack.push, hd] <;> omega

theorem Full.pop {s t : ReturnStack σ} {a : σ} (h : s.Full) (hp : s.pop? = some (a, t)) :
    t.Full := by
  unfold Full at *
  unfold pop? at hp
  split at hp
  · cases hp
  · next b rest e =>
    rw [e, List.length_cons] at h
    obtain ⟨rfl, rfl⟩ := Prod.mk.inj (Option.some.inj hp)
    by_cases hd : s.depth ≤ s.cap <;> simp [hd, e] <;> omega

end ReturnStack

end Highlight
