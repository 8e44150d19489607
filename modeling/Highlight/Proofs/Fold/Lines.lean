import Highlight.Fold.Document
import Highlight.Proofs.Line.Table
import Mathlib.Data.List.TakeWhile
import Mathlib.Tactic.ByContra

/-!
The lines that folding sees. A styled text is cut behind each of its newlines: put together again
the lines are the text (`flatten_splitLines`), each of them has its newline at its end and nowhere
else, and the line of a place is found by the newlines before it (`takeWhile_getD_splitLines`).
-/

namespace Highlight

open Byte

theorem Styles.map_fst_styled {σ : Type} [Palette σ] (text : Text) (styles : Styles σ) :
    (styles.styled text).map Prod.fst = text :=
  List.ext_getElem (by simp [styled]) fun i _ _ => by simp [styled]

namespace FoldText

variable {σ : Type}

theorem countP_newline (z : List (Byte × σ)) :
    z.countP (fun p => p.1 = newline) = (z.map Prod.fst).count newline := by
  rw [List.count, List.countP_map]
  rfl

/-- A newline is the end of its line, and any other byte joins the line of the next one. -/
theorem splitLines_cons (p : Byte × σ) (z : List (Byte × σ)) :
    splitLines (p :: z) =
      if p.1 = newline then [p] :: splitLines z
      else (p :: (splitLines z).headD []) :: (splitLines z).tail := by
  unfold splitLines
  rw [List.foldr_cons]
  split
  · rfl
  · cases List.foldr _ _ z <;> rfl

theorem splitLines_ne_nil (z : List (Byte × σ)) : splitLines z ≠ [] := by
  cases z with
  | nil => exact List.cons_ne_nil _ _
  | cons p z =>
    rw [splitLines_cons]
    split <;> exact List.cons_ne_nil _ _

theorem headD_cons_tail (z : List (Byte × σ)) :
    (splitLines z).headD [] :: (splitLines z).tail = splitLines z := by
  cases h : splitLines z with
  | nil => exact absurd h (splitLines_ne_nil z)
  | cons => rfl

theorem flatten_splitLines (z : List (Byte × σ)) : (splitLines z).flatten = z := by
  induction z with
  | nil => rfl
  | cons p z ih =>
    rw [← headD_cons_tail] at ih
    rw [splitLines_cons]
    split
    · rw [← headD_cons_tail z]
      simpa using ih
    · simpa using ih

/-- A text has one line more than newlines. -/
theorem length_splitLines (z : List (Byte × σ)) :
    (splitLines z).length = z.countP (fun p => p.1 = newline) + 1 := by
  induction z with
  | nil => rfl
  | cons p z ih =>
    rw [splitLines_cons, List.countP_cons]
    by_cases hp : p.1 = newline
    · rw [if_pos hp, if_pos (by simpa using hp), List.length_cons, ih]
    · rw [if_neg hp, if_neg (by simpa using hp), ← ih, ← headD_cons_tail z]
      rfl

/-- Every line but the last one has one newline. -/
theorem countP_flatten_take {z : List (Byte × σ)} {n : Nat}
    (h : n ≤ z.countP fun p => p.1 = newline) :
    ((splitLines z).take n).flatten.countP (fun p => p.1 = newline) = n := by
  induction z generalizing n with
  | nil =>
    obtain rfl : n = 0 := by simpa using h
    rfl
  | cons p z ih =>
    cases n with
    | zero => rfl
    | succ n =>
      rw [List.countP_cons] at h
      rw [splitLines_cons]
      by_cases hp : p.1 = newline
      · rw [if_pos (by simpa using hp)] at h
        rw [if_pos hp, List.take_succ_cons, List.flatten_cons, List.countP_append,
          ih (by omega), List.countP_singleton, if_pos (by simpa using hp), Nat.add_comm]
      · rw [if_neg (by simpa using hp), Nat.add_zero] at h
        have hz := ih h
        rw [← headD_cons_tail z, List.take_succ_cons, List.flatten_cons] at hz
        rw [if_neg hp, List.take_succ_cons, List.flatten_cons, List.cons_append, List.countP_cons,
          if_neg (by simpa using hp), hz]

/-- The first lines, but not the last one, have as many bytes as there are of them beside those that
are no newlines. -/
theorem countP_ne_flatten_take_le {z : List (Byte × σ)} {n : Nat}
    (h : n ≤ z.countP fun p => p.1 = newline) :
    ((splitLines z).take n).flatten.countP (fun p => p.1 ≠ newline) + n ≤ z.length := by
  have hall : z.length =
      ((splitLines z).take n).flatten.length + ((splitLines z).drop n).flatten.length := by
    rw [← List.length_append, ← List.flatten_append, List.take_append_drop, flatten_splitLines]
  have hlen := ((splitLines z).take n).flatten.length_eq_countP_add_countP fun p => p.1 = newline
  rw [countP_flatten_take h] at hlen
  simp only [decide_eq_true_eq, ← ne_eq] at hlen
  omega

theorem mem_takeWhile_of_mem {z l : List (Byte × σ)} {p : Byte × σ} (hl : l ∈ splitLines z)
    (hp : p ∈ l) (hne : p.1 ≠ newline) : p ∈ l.takeWhile fun p => p.1 ≠ newline := by
  induction z generalizing l with
  | nil =>
    obtain rfl : l = [] := List.mem_singleton.1 hl
    cases hp
  | cons q z ih =>
    rw [splitLines_cons] at hl
    split at hl
    case isTrue hq =>
      rcases List.mem_cons.1 hl with rfl | hl
      · obtain rfl := List.mem_singleton.1 hp
        exact absurd hq hne
      · exact ih hl hp
    case isFalse hq =>
      rcases List.mem_cons.1 hl with rfl | hl
      · rw [List.takeWhile_cons_of_pos (by simpa using hq)]
        rcases List.mem_cons.1 hp with rfl | hp
        · exact List.mem_cons_self
        · refine List.mem_cons_of_mem _ (ih ?_ hp)
          rw [← headD_cons_tail z]
          exact List.mem_cons_self
      · refine ih ?_ hp
        rw [← headD_cons_tail z]
        exact List.mem_cons_of_mem _ hl

/-- What stands behind the last newline begins later than the first byte, unless there is none. -/
theorem takeWhile_reverse_cons (p : Byte × σ) (z : List (Byte × σ)) :
    ((p :: z).reverse.takeWhile fun p => p.1 ≠ newline) =
      if (p :: z).countP (fun p => p.1 = newline) = 0 then (p :: z).reverse
      else z.reverse.takeWhile fun p => p.1 ≠ newline := by
  split
  case isTrue hnone =>
    rw [List.takeWhile_eq_self_iff]
    intro q hq
    simpa using List.countP_eq_zero.1 hnone q (List.mem_reverse.1 hq)
  case isFalse hsome =>
    rw [List.reverse_cons, List.takeWhile_append]
    split
    case isTrue hlen =>
      -- the newline can only be the first byte
      have hall := (List.takeWhile_prefix _).eq_of_length hlen
      have hz : z.countP (fun p => p.1 = newline) = 0 :=
        List.countP_eq_zero.2 fun q hq => by
          simpa using List.takeWhile_eq_self_iff.1 hall q (List.mem_reverse.2 hq)
      have hp : p.1 = newline := by
        by_contra hp
        rw [List.countP_cons_of_neg (by simpa using hp)] at hsome
        exact hsome hz
      rw [hall, List.takeWhile_cons_of_neg (by simpa using hp), List.append_nil]
    case isFalse => rfl

/-- The line of a place that is followed by a newline or by nothing: up to its newline it is what
stands between the place and the newline before it. -/
theorem takeWhile_getD_splitLines (z : List (Byte × σ)) {y : List (Byte × σ)}
    (hy : ∀ p ∈ y.head?, p.1 = newline) :
    ((splitLines (z ++ y)).getD (z.countP fun p => p.1 = newline) []).takeWhile
        (fun p => p.1 ≠ newline) =
      (z.reverse.takeWhile fun p => p.1 ≠ newline).reverse := by
  induction z with
  | nil =>
    cases y with
    | nil => rfl
    | cons q y =>
      have hq : q.1 = newline := hy q rfl
      simp [splitLines_cons, hq]
  | cons p z ih =>
    rw [takeWhile_reverse_cons, List.cons_append, splitLines_cons]
    by_cases hp : p.1 = newline
    · rw [if_pos hp, List.countP_cons_of_pos (by simpa using hp), List.getD_cons_succ, ih,
        if_neg (Nat.succ_ne_zero _)]
    · rw [if_neg hp, List.countP_cons_of_neg (by simpa using hp)]
      rw [← headD_cons_tail] at ih
      cases hn : z.countP fun p => p.1 = newline with
      | zero =>
        have hall : z.reverse.takeWhile (fun p => p.1 ≠ newline) = z.reverse := by
          rw [List.takeWhile_eq_self_iff]
          simpa using List.countP_eq_zero.1 hn
        rw [hn, hall, List.reverse_reverse, List.getD_cons_zero] at ih
        rw [if_pos rfl, List.getD_cons_zero, List.takeWhile_cons_of_pos (by simpa using hp), ih,
          List.reverse_reverse]
      | succ n =>
        rw [hn, List.getD_cons_succ] at ih
        rw [if_neg (Nat.succ_ne_zero n), List.getD_cons_succ, ih]

variable [Palette σ]

/-- White space weighs nothing. -/
theorem weight_of_isSpace {p : Byte × σ} (h : isSpace p.1 = true) : weight p = 0 := by
  have hopen : ¬(p.1 = lbrace ∨ p.1 = lbracket ∨ p.1 = lparen) := by
    rintro (hb | hb | hb) <;> rw [hb] at h <;> exact absurd h (by decide)
  have hclose : ¬(p.1 = rbrace ∨ p.1 = rbracket ∨ p.1 = rparen) := by
    rintro (hb | hb | hb) <;> rw [hb] at h <;> exact absurd h (by decide)
  rw [weight, if_neg hopen, if_neg hclose, ite_self]

theorem line_of (text : Text) (styles : Styles σ) (store : LineStore) (i : Nat) :
    (FoldText.of text styles store).line i = (splitLines (styles.styled text)).getD i [] := by
  simp [line, of, Array.getD_eq_getD_getElem?, List.getD_eq_getElem?_getD]

/-- A byte of a line that is no newline stands before the newline of the line. -/
theorem mem_takeWhile_line {text : Text} {styles : Styles σ} {store : LineStore} {i : Nat}
    {p : Byte × σ} (hp : p ∈ (FoldText.of text styles store).line i) (hne : p.1 ≠ newline) :
    p ∈ ((FoldText.of text styles store).line i).takeWhile fun p => p.1 ≠ newline := by
  rw [line_of, List.getD_eq_getElem?_getD] at hp ⊢
  cases hl : (splitLines (styles.styled text))[i]? with
  | none => simp [hl] at hp
  | some l =>
    rw [hl] at hp
    exact mem_takeWhile_of_mem (List.mem_of_getElem? hl) hp hne

theorem size_lines (text : Text) (styles : Styles σ) (store : LineStore) :
    (FoldText.of text styles store).lines.size = (LineTable.ofText text).count := by
  rw [of, List.size_toArray, length_splitLines, countP_newline, Styles.map_fst_styled,
    LineTable.count_ofText]

end FoldText

end Highlight
