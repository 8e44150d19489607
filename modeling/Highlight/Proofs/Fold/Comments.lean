import Highlight.Proofs.Fold.Credited

/-!
Comments fold as one. Where lines that are comments follow one another, the level goes up by one
behind the first of them and down by one behind the last, provided that no byte of theirs weighs
anything (`reach_of_commentRun`).
-/

namespace Highlight

open Byte FoldLevel

/-- The lines from `i` to `j` of the first `count` lines are comments, and the lines next to them
are none. -/
structure LineStore.CommentRun (store : LineStore) (count i j : Nat) : Prop where
  le : i ≤ j
  lt : j < count
  comment : ∀ m, i ≤ m → m ≤ j → (store.state m).flags.comment = true
  before : (store.stateBefore i).flags.comment = false
  after : j + 1 < count → (store.state (j + 1)).flags.comment = false

namespace FoldText

variable {σ : Type} [Palette σ] {d : FoldText σ} {i j m : Nat}

theorem balance_eq_zero {l : List (Byte × σ)} (h : ∀ p ∈ l, weight p = 0) : balance l = 0 := by
  induction l with
  | nil => rfl
  | cons p l ih =>
    change weight p + balance l = 0
    rw [h p List.mem_cons_self, ih fun q hq => h q (List.mem_cons_of_mem _ hq), Int.zero_add]

/-- A line on which nothing weighs anything begins with no brace that folds. -/
theorem counted_eq_line (h : ∀ p ∈ d.line m, weight p = 0) : d.counted m = d.line m := by
  have hskips : d.skipsBrace m ≠ true := by
    intro hskips
    have hline := balance_line (opensWithBrace_of_skipsBrace hskips)
    have htail : ∀ p ∈ (d.unindented m).tail, weight p = 0 := fun p hp =>
      h p ((List.dropWhile_sublist _).subset (List.mem_of_mem_tail hp))
    rw [balance_eq_zero h, balance_eq_zero htail] at hline
    omega
  rw [counted, if_neg hskips]

/-- A comment whose bytes weigh nothing changes its level by what stands next to it. -/
theorem levelAfter_comment (hcomment : (d.store.state m).flags.comment = true)
    (hweight : ∀ p ∈ d.line m, weight p = 0) (level : Nat) :
    d.levelAfter m level =
      ((level : Int) + ((d.store.state (m + 1)).flags.comment.toInt -
        (d.store.stateBefore m).flags.comment.toInt)).toNat := by
  have hbalance : balance (d.counted m) = 0 := by
    rw [counted_eq_line hweight, balance_eq_zero hweight]
  simp only [levelAfter, adjustment, hbalance, hcomment, if_true, Int.add_zero, Int.toNat_natCast]

/-- A run of flags adds one while it lasts. -/
theorem toNat_add_flags (n : Nat) (before after : Bool) :
    (((n + before.toNat : Nat) : Int) + (after.toInt - before.toInt)).toNat = n + after.toNat := by
  have hbefore : before.toInt = before.toNat := by cases before <;> rfl
  have hafter : after.toInt = after.toNat := by cases after <;> rfl
  rw [hbefore, hafter]
  omega

/-- Within the run and just behind it, the level is one higher exactly before a comment that another
comment precedes. -/
theorem reach_add_of_commentRun {count : Nat} (h : d.store.CommentRun count i j)
    (hweight : ∀ m, i ≤ m → m ≤ j → ∀ p ∈ d.line m, weight p = 0) {k : Nat} (hk : i + k ≤ j + 1) :
    d.reach 0 0 (i + k) =
      d.reach 0 0 i + ((d.store.state (i + k)).flags.comment &&
        (d.store.stateBefore (i + k)).flags.comment).toNat := by
  induction k with
  | zero => rw [Nat.add_zero, h.before, Bool.and_false]; rfl
  | succ k ih =>
    have hcomment := h.comment (i + k) (by omega) (by omega)
    have hbefore : (d.store.stateBefore (i + (k + 1))).flags.comment = true := hcomment
    rw [← Nat.add_assoc, reach_succ,
      levelAfter_comment hcomment (hweight (i + k) (by omega) (by omega)), ih (by omega), hcomment,
      Nat.add_assoc, hbefore, Bool.true_and, Bool.and_true, toNat_add_flags]

/-- **Comments fold as one.** Behind the first line of the run the level is one higher, and behind
the last line it is what it was before the first. -/
theorem reach_of_commentRun {count : Nat} (h : d.store.CommentRun count i j)
    (hafter : (d.store.state (j + 1)).flags.comment = false)
    (hweight : ∀ m, i ≤ m → m ≤ j → ∀ p ∈ d.line m, weight p = 0) :
    (∀ m, i < m → m ≤ j → d.reach 0 0 m = d.reach 0 0 i + 1) ∧
      d.reach 0 0 (j + 1) = d.reach 0 0 i := by
  refine ⟨fun m hi hj => ?_, ?_⟩
  · obtain ⟨k, rfl⟩ := Nat.exists_eq_add_of_lt hi
    have hbefore : (d.store.stateBefore (i + k + 1)).flags.comment = true :=
      h.comment (i + k) (by omega) (by omega)
    have hreach := reach_add_of_commentRun h hweight (k := k + 1) (by omega)
    rwa [← Nat.add_assoc, h.comment _ (by omega) hj, hbefore] at hreach
  · obtain ⟨k, rfl⟩ := Nat.exists_eq_add_of_le h.le
    have hreach := reach_add_of_commentRun h hweight (k := k + 1) (by omega)
    rwa [← Nat.add_assoc, hafter] at hreach

end FoldText

end Highlight
