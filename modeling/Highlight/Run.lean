/-!
Runs: maximal stretches of bytes of one category, in which a scan reports what it found. A list of
categories, one per byte, is encoded by the runs that a reader can lay end to end to get it back.
-/

namespace Highlight

/-- A stretch of `len` bytes from the offset `start`, all of one category. -/
structure Run (σ : Type) where
  start : Nat
  len : Nat
  category : σ
  deriving DecidableEq, Repr

namespace Run

variable {σ : Type}

/-- The offset just after the run. -/
def stop (r : Run σ) : Nat := r.start + r.len

/-- The category of every byte of a list of runs, in order. -/
def expand (rs : List (Run σ)) : List σ := rs.flatMap fun r => List.replicate r.len r.category

variable [DecidableEq σ]

/-- A byte of category `s` at offset `i`, put in front of the runs of the bytes after it: it joins
the first run if that has the same category. -/
def cons (s : σ) (i : Nat) : List (Run σ) → List (Run σ)
  | [] => [⟨i, 1, s⟩]
  | r :: rs => if r.category = s then ⟨i, r.len + 1, s⟩ :: rs else ⟨i, 1, s⟩ :: r :: rs

/-- The runs of a list of categories, the first of them at the offset `start`. -/
def encode (start : Nat) (categories : List σ) : List (Run σ) :=
  (categories.zipIdx start).foldr (fun p rs => cons p.1 p.2 rs) []

@[simp] theorem encode_nil (start : Nat) : encode start ([] : List σ) = [] := rfl

theorem encode_cons (start : Nat) (s : σ) (l : List σ) :
    encode start (s :: l) = cons s start (encode (start + 1) l) := rfl

theorem expand_cons (s : σ) (i : Nat) (rs : List (Run σ)) :
    expand (cons s i rs) = s :: expand rs := by
  cases rs with
  | nil => rfl
  | cons r rs =>
    by_cases h : r.category = s
    · simp [cons, expand, h, List.replicate_succ]
    · simp [cons, expand, h]

/-- The runs of a list say what the list says. -/
theorem expand_encode (start : Nat) (l : List σ) : expand (encode start l) = l := by
  induction l generalizing start with
  | nil => rfl
  | cons s l ih => rw [encode_cons, expand_cons, ih]

end Run

end Highlight
