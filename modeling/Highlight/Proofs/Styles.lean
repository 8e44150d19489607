import Highlight.Styles
import Mathlib.Tactic.SplitIfs

/-!
Painting what a scan found. The runs of a list of categories, painted from some offset on, leave
that list there and nothing changed before it, and what a text was given by earlier scans can be
read back byte by byte.
-/

namespace Highlight

variable {σ : Type}

namespace Run

variable [DecidableEq σ]

theorem start_cons (s : σ) (i : Nat) (rs : List (Run σ)) :
    ∃ r rest, cons s i rs = r :: rest ∧ r.start = i := by
  cases rs with
  | nil => exact ⟨_, _, rfl, rfl⟩
  | cons r rs =>
    unfold cons
    by_cases h : r.category = s
    · exact ⟨⟨i, r.len + 1, s⟩, rs, if_pos h, rfl⟩
    · exact ⟨⟨i, 1, s⟩, r :: rs, if_neg h, rfl⟩

/-- The runs of a list begin where the list does. -/
theorem start_encode (start : Nat) (l : List σ) :
    encode start l = [] ∨ ∃ r rest, encode start l = r :: rest ∧ r.start = start := by
  cases l with
  | nil => exact .inl rfl
  | cons s l => exact .inr (encode_cons start s l ▸ start_cons s start _)

end Run

namespace Styles

/-! ### Painting -/

theorem size_paintRun (a : Styles σ) (r : Run σ) : (paintRun a r).size = a.size := size_fill ..

/-- After painting a run, its places hold its category. -/
theorem getElem?_paintRun (a : Styles σ) (r : Run σ) (j : Nat) :
    (paintRun a r)[j]? =
      if r.start ≤ j ∧ j < r.stop ∧ j < a.size then some r.category else a[j]? := by
  have h : (r.start ≤ j ∧ j < r.start + min r.len (a.size - r.start) ∧ j < a.size) ↔
      (r.start ≤ j ∧ j < r.stop ∧ j < a.size) := by
    unfold Run.stop
    omega
  rw [paintRun, getElem?_fill]
  simp only [h]

theorem paint_cons_run (a : Styles σ) (r : Run σ) (rs : List (Run σ)) :
    paint a (r :: rs) = paint (paintRun a r) rs := rfl

/-- Painting a run is painting its first byte and then the others. -/
theorem paintRun_succ (a : Styles σ) (i n : Nat) (s : σ) :
    paintRun a ⟨i, n + 1, s⟩ = paintRun (paintRun a ⟨i, 1, s⟩) ⟨i + 1, n, s⟩ := by
  refine Array.ext_getElem? fun j => ?_
  simp only [getElem?_paintRun, size_paintRun, Run.stop]
  grind

variable [DecidableEq σ]

/-- A byte in front of the runs of the bytes behind it is painted before them. -/
theorem paint_cons (a : Styles σ) (s : σ) (i : Nat) (rs : List (Run σ))
    (h : rs = [] ∨ ∃ r rest, rs = r :: rest ∧ r.start = i + 1) :
    paint a (Run.cons s i rs) = paint (paintRun a ⟨i, 1, s⟩) rs := by
  rcases h with rfl | ⟨⟨start, len, category⟩, rest, rfl, rfl⟩
  · rfl
  · by_cases h : category = s
    · subst h
      rw [paint_cons_run, ← paintRun_succ, ← paint_cons_run]
      exact congrArg _ (if_pos rfl)
    · exact congrArg _ (if_neg h)

/-- Painting the runs of a list of categories paints the list. -/
theorem getElem?_paint (a : Styles σ) (start : Nat) (l : List σ) (j : Nat) :
    (paint a (Run.encode start l))[j]? =
      if start ≤ j ∧ j < start + l.length ∧ j < a.size then l[j - start]? else a[j]? := by
  induction l generalizing start a with
  | nil =>
    rw [if_neg (by simp; omega)]
    rfl
  | cons s l ih =>
    rw [Run.encode_cons, paint_cons _ _ _ _ (Run.start_encode _ _), ih, size_paintRun,
      getElem?_paintRun]
    simp only [Run.stop, List.length_cons]
    by_cases hj : j = start
    · grind
    · have hsub : start < j → (s :: l)[j - start]? = l[j - (start + 1)]? := by
        intro h
        rw [show j - start = j - (start + 1) + 1 by omega, List.getElem?_cons_succ]
      grind

/-- Painted up to the end, the list stands behind what was there before. -/
theorem paint_encode {a : Styles σ} {start : Nat} {l : List σ} (h : start + l.length = a.size) :
    paint a (Run.encode start l) = a.take start ++ l.toArray := by
  have hsize : (a.take start).size = start := by
    simp
    omega
  refine Array.ext_getElem? fun j => ?_
  rw [getElem?_paint, Array.getElem?_append, hsize]
  by_cases hj : j < start
  · rw [if_neg (by omega), if_pos hj]
    simp
    grind
  · rw [if_neg hj, List.getElem?_toArray]
    grind

/-! ### Reading back -/

variable [Palette σ]

omit [DecidableEq σ] in
theorem size_resize (a : Styles σ) (n : Nat) : (resize a n).size = n := by
  simp [resize]
  omega

omit [DecidableEq σ] in
/-- Making room changes no category. -/
theorem categoryAt_resize (a : Styles σ) {n i : Nat} (h : i < n) :
    (resize a n).categoryAt i = a.categoryAt i := by
  unfold categoryAt resize
  simp only [Array.getD_eq_getD_getElem?]
  grind

omit [DecidableEq σ] in
theorem categoryAt_toArray (l : List σ) (i : Nat) :
    categoryAt l.toArray i = l.getD i Palette.plain := by
  simp [categoryAt, List.getD_eq_getElem?_getD]

omit [DecidableEq σ] in
/-- The beginning of an array, by its categories. -/
theorem take_eq {a : Styles σ} {l : List σ} (hl : l.length ≤ a.size)
    (h : ∀ i < l.length, a.categoryAt i = l.getD i Palette.plain) :
    a.take l.length = l.toArray := by
  refine Array.ext (by simp [Nat.min_eq_left hl]) fun i h₁ h₂ => ?_
  have hi : i < l.length := by simpa using h₂
  have := h i hi
  simp only [categoryAt, Array.getD_eq_getD_getElem?, List.getD_eq_getElem?_getD,
    Array.getElem?_eq_getElem (Nat.lt_of_lt_of_le hi hl), List.getElem?_eq_getElem hi,
    Option.getD_some] at this
  simpa using this

omit [DecidableEq σ] in
/-- A text in the categories that an array gives it. -/
theorem styled_eq {text : Text} {a : Styles σ} {l : List σ} (hl : l.length = text.length)
    (h : ∀ i, i < text.length → a.categoryAt i = l.getD i Palette.plain) :
    styled text a = text.zip l := by
  refine List.ext_getElem (by simp [styled, hl]) fun i h₁ h₂ => ?_
  have hi : i < text.length := by simpa [styled] using h₁
  simp [styled, h i hi, List.getD_eq_getElem?_getD, hl ▸ hi]

end Styles

end Highlight
