import Highlight.Proofs.Fold.Lines
import Mathlib.Tactic.SplitIfs

/-!
Fold levels line by line. Folding by brackets is a recurrence: each line takes the level at which it
starts to the level at which the next one does. Whatever a line does to its level, the levels of a
range are those of its first lines and then those of the others, and each line ends where the next
one starts (`levelsVia_add`, `chained_levelsVia`).
-/

namespace Highlight

open Byte FoldLevel

/-- The fold levels follow one another: the first line starts at `level`, each line ends where the
next one starts, and just those lines open a region that end at a higher level than they start. -/
def FoldLevel.Chained : Nat → List FoldLevel → Prop
  | _, [] => True
  | level, f :: fs => f.start = level ∧ (f.header = true ↔ f.start < f.stop) ∧ Chained f.stop fs

namespace FoldText

variable {σ : Type}

/-! ### The recurrence -/

variable (d : FoldText σ) (after : Nat → Nat → Nat)

/-- The fold levels of `n` lines from the line `i` on, the first of which starts at `level`, where
`after` says what a line does to its level. -/
def levelsVia : Nat → Nat → Nat → List FoldLevel
  | 0, _, _ => []
  | n + 1, i, level =>
    between level (after i level) (d.store.state i).flags.blank ::
      levelsVia n (i + 1) (after i level)

/-- The level that `n` lines from the line `i` on lead to, the first of which starts at `level`. -/
def reachVia (after : Nat → Nat → Nat) (i level : Nat) : Nat → Nat
  | 0 => level
  | n + 1 => after (i + n) (reachVia after i level n)

theorem reachVia_succ' (i level n : Nat) :
    reachVia after i level (n + 1) = reachVia after (i + 1) (after i level) n := by
  induction n with
  | zero => rfl
  | succ n ih => rw [reachVia, ih, reachVia, show i + (n + 1) = i + 1 + n by omega]

/-- **Levels can be split anywhere.** -/
theorem levelsVia_add (n m i level : Nat) :
    d.levelsVia after (n + m) i level =
      d.levelsVia after n i level ++ d.levelsVia after m (i + n) (reachVia after i level n) := by
  induction n generalizing i level with
  | zero => simp [levelsVia, reachVia]
  | succ n ih =>
    rw [show n + 1 + m = n + m + 1 by omega, levelsVia, levelsVia, ih, reachVia_succ',
      show i + (n + 1) = i + 1 + n by omega]
    rfl

theorem length_levelsVia (n i level : Nat) : (d.levelsVia after n i level).length = n := by
  induction n generalizing i level with
  | zero => rfl
  | succ n ih => rw [levelsVia, List.length_cons, ih]

theorem getElem?_levelsVia {n k : Nat} (h : k < n) (i level : Nat) :
    (d.levelsVia after n i level)[k]? =
      some (between (reachVia after i level k) (reachVia after i level (k + 1))
        (d.store.state (i + k)).flags.blank) := by
  induction n generalizing i level k with
  | zero => omega
  | succ n ih =>
    rw [levelsVia]
    cases k with
    | zero => rfl
    | succ k =>
      rw [List.getElem?_cons_succ, ih (by omega), ← reachVia_succ', ← reachVia_succ',
        show i + 1 + k = i + (k + 1) by omega]

theorem chained_levelsVia (n i level : Nat) :
    Chained (min level greatest) (d.levelsVia after n i level) := by
  induction n generalizing i level with
  | zero => trivial
  | succ n ih => exact ⟨rfl, decide_eq_true_iff, ih _ _⟩

/-- The last line ends at the level that all lines lead to. -/
theorem getLast?_levelsVia (n i level : Nat) :
    ((d.levelsVia after n i level).getLast?.map stop).getD (min level greatest) =
      min (reachVia after i level n) greatest := by
  cases n with
  | zero => rfl
  | succ n =>
    rw [List.getLast?_eq_getElem?, length_levelsVia, Nat.add_sub_cancel,
      getElem?_levelsVia _ _ (Nat.lt_succ_self n)]
    rfl

/-! ### Folding by brackets -/

variable [Palette σ]

/-- The level after a line that starts at `level`, if it is said whether the brace that it begins
with is skipped, whether it is credited with the brace of the next line, and which flags the line
before has. -/
def levelOn (skips credits : Bool) (before : LineFlags) (i level : Nat) : Nat :=
  let counted := if skips then (d.unindented i).tail else d.line i
  let here := (d.store.state i).flags
  let after := (d.store.state (i + 1)).flags
  let adjustment : Int :=
    if here.comment then after.comment.toInt - before.comment.toInt
    else if here.string then after.string.toInt - before.string.toInt
    else if credits then 1
    else 0
  ((((level : Int) + balance counted).toNat : Int) + adjustment).toNat

theorem levelAfter_eq_levelOn (i level : Nat) :
    d.levelAfter i level =
      d.levelOn (d.skipsBrace i) (d.credited i) (d.store.stateBefore i).flags i level :=
  rfl

/-- The level that `n` lines from the line `i` on lead to when lines fold by brackets, if the first
of them starts at `level`. -/
def reach (i level n : Nat) : Nat := reachVia d.levelAfter i level n

theorem reach_succ (n : Nat) : d.reach 0 0 (n + 1) = d.levelAfter n (d.reach 0 0 n) := by
  change d.levelAfter (0 + n) _ = _
  rw [Nat.zero_add]
  rfl

theorem levelsFrom_eq_via (n i level : Nat) :
    d.levelsFrom n i level = d.levelsVia d.levelAfter n i level := by
  induction n generalizing i level with
  | zero => rfl
  | succ n ih => rw [levelsFrom, levelsVia, ih]

/-- Every line of a document starts and ends at the levels that the lines before it lead to. -/
theorem getElem?_foldLevels (text : Text) (styles : Styles σ) (store : LineStore) {i : Nat}
    (hi : i < (LineTable.ofText text).count) :
    let d := FoldText.of text styles store
    (foldLevels .brackets text styles store)[i]? =
      some (between (d.reach 0 0 i) (d.reach 0 0 (i + 1)) (store.state i).flags.blank) := by
  intro d
  have hlevels : foldLevels .brackets text styles store =
      d.levelsVia d.levelAfter (LineTable.ofText text).count 0 0 := by
    rw [← levelsFrom_eq_via]
    change d.levelsFrom (min _ d.lines.size - 0) 0 0 = _
    rw [size_lines, Nat.min_self, Nat.sub_zero]
  have h := getElem?_levelsVia d d.levelAfter hi 0 0
  rwa [← hlevels, Nat.zero_add] at h

/-! ### How high levels get -/

theorem balance_le (l : List (Byte × σ)) : balance l ≤ l.countP fun p => p.1 ≠ newline := by
  induction l with
  | nil => exact Int.le_refl 0
  | cons p l ih =>
    have hweight : weight p ≤ if p.1 ≠ newline then 1 else 0 := by
      unfold weight
      split_ifs <;> simp_all [lbrace, lbracket, lparen]
    change weight p + balance l ≤ _
    rw [List.countP_cons]
    simp only [decide_eq_true_eq]
    split_ifs at hweight ⊢ <;> omega

variable {d}

theorem counted_sublist (i : Nat) : (d.counted i).Sublist (d.line i) := by
  unfold counted unindented
  split
  · exact (List.tail_sublist _).trans (List.dropWhile_sublist _)
  · exact .refl _

theorem adjustment_le (i : Nat) : d.adjustment i ≤ 1 := by
  have hflag : ∀ a b : Bool, a.toInt - b.toInt ≤ 1 := by decide
  unfold adjustment
  dsimp only
  split_ifs
  exacts [hflag _ _, hflag _ _, Int.le_refl 1, by decide]

/-- A line adds at most one for each of its bytes, and one more. -/
theorem levelAfter_le (i level : Nat) :
    d.levelAfter i level ≤ level + (d.line i).countP (fun p => p.1 ≠ newline) + 1 := by
  have hbalance := balance_le (d.counted i)
  have hcount : (d.counted i).countP (fun p => p.1 ≠ newline) ≤
      (d.line i).countP fun p => p.1 ≠ newline := (counted_sublist i).countP_le
  have hadjust : d.adjustment i ≤ 1 := adjustment_le i
  unfold levelAfter
  omega

theorem reach_le (n : Nat) :
    d.reach 0 0 n ≤ (d.lines.toList.take n).flatten.countP (fun p => p.1 ≠ newline) + n := by
  induction n with
  | zero => exact Nat.le_refl _
  | succ n ih =>
    have hline : (d.lines.toList.take (n + 1)).flatten =
        (d.lines.toList.take n).flatten ++ d.line n := by
      rw [List.take_add_one, List.flatten_append, line, Array.getD_eq_getD_getElem?,
        ← Array.getElem?_toList]
      cases d.lines.toList[n]? <;> simp
    have hstep : d.levelAfter n (d.reach 0 0 n) ≤ _ := levelAfter_le n (d.reach 0 0 n)
    rw [reach_succ, hline, List.countP_append]
    omega

/-- Before the last line a level is no greater than the number of bytes of the text. -/
theorem reach_le_length (text : Text) (styles : Styles σ) (store : LineStore) {n : Nat}
    (hn : n < (LineTable.ofText text).count) :
    (FoldText.of text styles store).reach 0 0 n ≤ text.length := by
  have hlines : (FoldText.of text styles store).lines.toList =
      splitLines (styles.styled text) := rfl
  rw [← size_lines text styles store, ← Array.length_toList, hlines, length_splitLines] at hn
  have hlen : (styles.styled text).length = text.length := by
    rw [← List.length_map Prod.fst, Styles.map_fst_styled]
  calc (FoldText.of text styles store).reach 0 0 n
      ≤ ((splitLines (styles.styled text)).take n).flatten.countP (fun p => p.1 ≠ newline) + n :=
        reach_le n
    _ ≤ (styles.styled text).length := countP_ne_flatten_take_le (Nat.le_of_lt_succ hn)
    _ = text.length := hlen

end FoldText

end Highlight
