import Highlight.Byte
import Highlight.Palette
import Highlight.Run

/-!
The categories that earlier scans gave to the bytes of a document. Reading past the end gives the
plain category, and painting past the end does nothing.
-/

namespace Highlight

/-- The category of every byte of a document, by offset. -/
abbrev Styles (σ : Type) := Array σ

namespace Styles

variable {σ : Type}

/-- The array with the `n` places from `i` on set to `s`, as far as there are any. -/
def fill (s : σ) : Nat → Nat → Styles σ → Styles σ
  | _, 0, a => a
  | i, n + 1, a => fill s (i + 1) n (a.setIfInBounds i s)

/-- The array with one run painted over it. -/
def paintRun (a : Styles σ) (r : Run σ) : Styles σ :=
  fill r.category r.start (min r.len (a.size - r.start)) a

/-- The array with all runs painted over it, in order. -/
def paint (a : Styles σ) (rs : List (Run σ)) : Styles σ := rs.foldl paintRun a

theorem size_fill (s : σ) (i n : Nat) (a : Styles σ) : (fill s i n a).size = a.size := by
  induction n generalizing i a with
  | zero => rfl
  | succ n ih => rw [fill, ih, Array.size_setIfInBounds]

theorem size_paint (a : Styles σ) (rs : List (Run σ)) : (paint a rs).size = a.size := by
  induction rs generalizing a with
  | nil => rfl
  | cons r rs ih => rw [paint, List.foldl_cons, ← paint, ih, paintRun, size_fill]

/-- After filling, the places from `i` on hold `s` and all others what they held. -/
theorem getElem?_fill (s : σ) (i n : Nat) (a : Styles σ) (j : Nat) :
    (fill s i n a)[j]? = if i ≤ j ∧ j < i + n ∧ j < a.size then some s else a[j]? := by
  induction n generalizing i a with
  | zero =>
    rw [fill, if_neg (by omega)]
  | succ n ih =>
    rw [fill, ih, Array.size_setIfInBounds, Array.getElem?_setIfInBounds]
    grind

variable [Palette σ]

/-- The category at an offset. -/
def categoryAt (a : Styles σ) (i : Nat) : σ := a.getD i Palette.plain

/-- The array cut or extended to `n` places; new places are plain. -/
def resize (a : Styles σ) (n : Nat) : Styles σ :=
  a.take n ++ Array.replicate (n - a.size) Palette.plain

/-- Every byte of a text with its category. -/
def styled (text : Text) (a : Styles σ) : List (Byte × σ) :=
  text.mapIdx fun i b => (b, a.categoryAt i)

end Styles

end Highlight
