import Highlight.Proofs.Fold.Lines
import Mathlib.Data.List.Forall2

/-!
Carriage returns and folds. A carriage return before the newline of a line changes nothing of how
the line folds: it is no bracket, it is not visible, and it is not what a line begins with, unless
the line is blank.
-/

namespace Highlight

open Byte

variable {σ : Type}

namespace FoldText

/-- The second line is the first, perhaps with a carriage return before its newline. -/
inductive Returned : List (Byte × σ) → List (Byte × σ) → Prop where
  | same (l : List (Byte × σ)) : Returned l l
  | returned (x : List (Byte × σ)) (s s' : σ) :
      Returned (x ++ [(newline, s)]) (x ++ [(carriageReturn, s'), (newline, s)])

theorem Returned.cons {l l' : List (Byte × σ)} (h : Returned l l') (p : Byte × σ) :
    Returned (p :: l) (p :: l') := by
  cases h with
  | same => exact .same _
  | returned x s s' => exact .returned (p :: x) s s'

/-- The lines of one document are those of the other, perhaps with returns, and their states are
the same. -/
structure Alike (d d' : FoldText σ) : Prop where
  store : d.store = d'.store
  lines : List.Forall₂ Returned d.lines.toList d'.lines.toList

/-- A carriage return before a newline is in the line of the newline. -/
theorem splitLines_returned (x y : List (Byte × σ)) (s s' : σ) :
    List.Forall₂ Returned (splitLines (x ++ (newline, s) :: y))
      (splitLines (x ++ (carriageReturn, s') :: (newline, s) :: y)) := by
  have hrefl : ∀ ls : List (List (Byte × σ)), List.Forall₂ Returned ls ls := fun ls =>
    List.forall₂_same.2 fun l _ => .same l
  induction x with
  | nil => exact .cons (.returned [] s s') (hrefl _)
  | cons p x ih =>
    unfold splitLines at ih ⊢
    rw [List.cons_append, List.cons_append, List.foldr_cons, List.foldr_cons]
    by_cases hp : p.1 = newline
    · simp only [if_pos hp]
      exact .cons (.same _) ih
    · simp only [if_neg hp]
      revert ih
      generalize List.foldr _ _ (x ++ (newline, s) :: y) = ls
      generalize List.foldr _ _ (x ++ (carriageReturn, s') :: (newline, s) :: y) = ls'
      intro ih
      cases ih with
      | nil => exact hrefl _
      | cons hl hls => exact .cons (hl.cons p) hls

/-! ### One line -/

section Line

variable [Palette σ] {l l' : List (Byte × σ)}

theorem balance_newline (s : σ) : 0 = balance [(newline, s)] := by
  change 0 = weight (newline, s) + 0
  rw [weight_of_isSpace (p := (newline, s)) rfl, Int.add_zero]

theorem balance_append (x y : List (Byte × σ)) : balance (x ++ y) = balance x + balance y := by
  induction x with
  | nil => exact (Int.zero_add _).symm
  | cons p x ih =>
    change weight p + balance (x ++ y) = weight p + balance x + balance y
    rw [ih, Int.add_assoc]

theorem Returned.balance_eq (h : Returned l l') : balance l = balance l' := by
  cases h with
  | same => rfl
  | returned x s s' =>
    rw [balance_append, balance_append]
    change _ = balance x + (weight (carriageReturn, s') + balance [(newline, s)])
    rw [weight_of_isSpace (p := (carriageReturn, s')) rfl, Int.zero_add]

/-- The last visible byte is the same. -/
theorem Returned.find?_eq (h : Returned l l') :
    (l.reverse.find? fun p => Trail.counts p.1 p.2) =
      l'.reverse.find? fun p => Trail.counts p.1 p.2 := by
  cases h with
  | same => rfl
  | returned x s s' => simp [Trail.counts, isSpace, isBlank, isLineEnd]

omit [Palette σ] in
/-- Behind its indentation a line is still the same but for the return, which may be what is left
of it. -/
theorem Returned.dropWhile (h : Returned l l') :
    Returned (l.dropWhile fun p => isBlank p.1) (l'.dropWhile fun p => isBlank p.1) := by
  cases h with
  | same => exact .same _
  | returned x s s' =>
    induction x with
    | nil => exact .returned [] s s'
    | cons p x ih =>
      rw [List.cons_append, List.cons_append, List.dropWhile_cons, List.dropWhile_cons]
      by_cases hp : isBlank p.1 = true
      · rw [if_pos hp, if_pos hp]
        exact ih
      · rw [if_neg hp, if_neg hp]
        exact .returned (p :: x) s s'

end Line

/-! ### Levels -/

namespace Alike

variable {d d' : FoldText σ}

theorem line (h : Alike d d') (i : Nat) : Returned (d.line i) (d'.line i) := by
  have key : ∀ {ls ls' : List (List (Byte × σ))}, List.Forall₂ Returned ls ls' →
      Returned (ls.getD i []) (ls'.getD i []) := by
    intro ls ls' hls
    induction hls generalizing i with
    | nil => exact .same _
    | cons hl _ ih =>
      cases i with
      | zero => exact hl
      | succ i => exact ih i
  have hd : ∀ e : FoldText σ, e.line i = e.lines.toList.getD i [] := by
    intro e
    simp [FoldText.line, Array.getD_eq_getD_getElem?, List.getD_eq_getElem?_getD]
  rw [hd, hd]
  exact key h.lines

theorem unindented (h : Alike d d') (i : Nat) : Returned (d.unindented i) (d'.unindented i) :=
  (h.line i).dropWhile

variable [Palette σ]

theorem opensWithBrace_eq (h : Alike d d') (i : Nat) :
    d.opensWithBrace i = d'.opensWithBrace i := by
  have hline := h.unindented i
  unfold opensWithBrace
  generalize d.unindented i = l at hline
  generalize d'.unindented i = l' at hline
  cases hline with
  | same => rfl
  | returned x s s' => cases x <;> rfl

theorem credited_eq (h : Alike d d') (i : Nat) : d.credited i = d'.credited i := by
  unfold credited isHead
  rw [h.store, h.opensWithBrace_eq, (h.line i).find?_eq]

theorem skipsBrace_eq (h : Alike d d') (i : Nat) : d.skipsBrace i = d'.skipsBrace i := by
  cases i with
  | zero => rfl
  | succ i => exact h.credited_eq i

theorem balance_counted_eq (h : Alike d d') (i : Nat) :
    balance (d.counted i) = balance (d'.counted i) := by
  unfold counted
  rw [h.skipsBrace_eq]
  split
  case isTrue =>
    have hline := h.unindented i
    generalize d.unindented i = l at hline
    generalize d'.unindented i = l' at hline
    cases hline with
    | same => rfl
    | returned x s s' =>
      cases x with
      | nil => exact balance_newline s
      | cons p x => exact (Returned.returned x s s').balance_eq
  case isFalse => exact (h.line i).balance_eq

theorem levelAfter_eq (h : Alike d d') (i level : Nat) :
    d.levelAfter i level = d'.levelAfter i level := by
  unfold levelAfter adjustment
  rw [h.store, h.balance_counted_eq, h.credited_eq]

theorem levelsFrom_eq (h : Alike d d') (n i level : Nat) :
    d.levelsFrom n i level = d'.levelsFrom n i level := by
  induction n generalizing i level with
  | zero => rfl
  | succ n ih =>
    unfold levelsFrom
    rw [h.store, h.levelAfter_eq, ih]

theorem bracketLevels_eq (h : Alike d d') (first last level : Nat) :
    d.bracketLevels first last level = d'.bracketLevels first last level := by
  have hsize : d.lines.size = d'.lines.size := by
    rw [← Array.length_toList, ← Array.length_toList, h.lines.length_eq]
  unfold bracketLevels
  rw [hsize, h.levelsFrom_eq]

end Alike

end FoldText

/-- **A text folds the same with a carriage return before a newline.** -/
theorem foldLevels_returned [Palette σ] (mode : FoldMode) {text text' : Text}
    {styles styles' : Styles σ} (store : LineStore) {x y : List (Byte × σ)} {s s' : σ}
    (h : styles.styled text = x ++ (newline, s) :: y)
    (h' : styles'.styled text' = x ++ (carriageReturn, s') :: (newline, s) :: y) :
    foldLevels mode text styles store = foldLevels mode text' styles' store := by
  have hcount : (LineTable.ofText text).count = (LineTable.ofText text').count := by
    rw [LineTable.count_ofText, LineTable.count_ofText, ← Styles.map_fst_styled text styles,
      ← Styles.map_fst_styled text' styles', h, h']
    simp
  unfold foldLevels
  cases mode with
  | brackets =>
    have halike : (FoldText.of text styles store).Alike (FoldText.of text' styles' store) := by
      refine ⟨rfl, ?_⟩
      simp only [FoldText.of, h, h']
      exact FoldText.splitLines_returned x y s s'
    simp only [hcount, halike.bracketLevels_eq]
  | indentation => simp only [hcount]
  | outline => simp only [hcount]

end Highlight
