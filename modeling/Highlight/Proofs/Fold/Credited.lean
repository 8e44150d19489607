import Highlight.Language.Toy
import Highlight.Proofs.Fold.Levels

/-!
Braces credited to the line before. Folding by brackets credits the brace that opens a block at the
beginning of a line to the head of the block on the line before, and does not count it again. So one
brace moves over one end of a line: the levels at which the credited lines end, and those behind
them start, are one higher than if every brace counted where it stands, and all others are the same
(`credited_moves_braces`).
-/

namespace Highlight

open Byte FoldLevel

namespace FoldText

variable {σ : Type} [Palette σ] (d : FoldText σ)

/-! ### Without credits -/

/-- The level after a line that starts at `level`, if every brace counts where it stands. -/
def plainAfter (i level : Nat) : Nat :=
  d.levelOn false false (d.store.stateBefore i).flags i level

/-- The fold levels of all lines, if every brace counts where it stands. -/
def plainLevels : List FoldLevel := d.levelsVia d.plainAfter d.lines.size 0 0

/-! ### One line -/

variable {d}

/-- The indentation of a line weighs nothing. -/
theorem balance_dropWhile_isBlank (l : List (Byte × σ)) :
    balance (l.dropWhile fun p => isBlank p.1) = balance l := by
  induction l with
  | nil => rfl
  | cons p l ih =>
    rw [List.dropWhile_cons]
    split
    case isTrue h =>
      rw [ih]
      change balance l = weight p + balance l
      have hspace : isSpace p.1 = true := by rw [isSpace, h]; rfl
      rw [weight_of_isSpace hspace, Int.zero_add]
    case isFalse => rfl

/-- A line that begins with a brace weighs one more than what is behind the brace. -/
theorem balance_line {i : Nat} (h : d.opensWithBrace i = true) :
    balance (d.line i) = 1 + balance (d.unindented i).tail := by
  have hline : balance (d.line i) = balance (d.unindented i) :=
    (balance_dropWhile_isBlank _).symm
  rw [hline]
  unfold opensWithBrace at h
  split at h
  case h_1 => cases h
  case h_2 p l heq =>
    rw [heq]
    change weight p + balance l = 1 + balance l
    rw [Bool.and_eq_true, beq_iff_eq] at h
    rw [weight, if_pos h.2, if_pos (.inl h.1)]

theorem opensWithBrace_of_skipsBrace {i : Nat} (h : d.skipsBrace i = true) :
    d.opensWithBrace i = true := by
  cases i with
  | zero => cases h
  | succ i =>
    simp only [skipsBrace, credited, Bool.and_eq_true] at h
    exact h.1.2

/-- A brace that is skipped has been counted before. -/
theorem levelOn_skips {i : Nat} (h : d.skipsBrace i = true) (credits : Bool) (before : LineFlags)
    (level : Nat) :
    d.levelOn true credits before i (level + 1) = d.levelOn false credits before i level := by
  have hbalance := balance_line (opensWithBrace_of_skipsBrace h)
  have hsum : ((level + 1 : Nat) : Int) + balance (d.unindented i).tail =
      level + balance (d.line i) := by omega
  simp only [levelOn, if_true, Bool.false_eq_true, if_false, hsum]

/-- A line that is credited with a brace is no comment and not in a string, so nothing else is added
to its level. -/
theorem levelOn_credited {i : Nat} (h : d.credited i = true) (skips : Bool) (before : LineFlags)
    (level : Nat) :
    d.levelOn skips true before i level = d.levelOn skips false before i level + 1 := by
  simp only [credited, Bool.and_eq_true, Bool.not_eq_true'] at h
  obtain ⟨⟨⟨hcomment, hstring⟩, -⟩, -⟩ := h
  simp only [levelOn, hcomment, hstring, Bool.false_eq_true, if_false, if_true]
  omega

/-- **One line moves its brace over its end.** If it starts one higher for the brace that it
begins with, it ends where it would without credits, or one higher for the next brace. -/
theorem levelAfter_add_skipsBrace (i level : Nat) :
    d.levelAfter i (level + (d.skipsBrace i).toNat) =
      d.plainAfter i level + (d.credited i).toNat := by
  have hskips : d.levelAfter i (level + (d.skipsBrace i).toNat) =
      d.levelOn false (d.credited i) (d.store.stateBefore i).flags i level := by
    rw [levelAfter_eq_levelOn]
    cases h : d.skipsBrace i with
    | false => rfl
    | true => exact levelOn_skips h _ _ _
  rw [hskips]
  cases h : d.credited i with
  | false => rfl
  | true => exact levelOn_credited h _ _ _

/-! ### All lines -/

/-- Behind any number of lines just the brace of the last of them is ahead. -/
theorem reach_eq_plain (n : Nat) :
    d.reach 0 0 n = reachVia d.plainAfter 0 0 n + (d.skipsBrace n).toNat := by
  induction n with
  | zero => rfl
  | succ n ih =>
    change d.levelAfter (0 + n) (d.reach 0 0 n) = _
    rw [ih, Nat.zero_add, levelAfter_add_skipsBrace, reachVia, Nat.zero_add]
    rfl

/-- **A brace that is credited is neither lost nor counted twice.** Every line ends at the level at
which it would end if each brace counted where it stands, or one higher if it is credited with the
brace of the next line; and it starts at the level at which it would start, or one higher if its own
brace is credited to the line before. -/
theorem credited_moves_braces (text : Text) (styles : Styles σ) (store : LineStore) {i : Nat}
    (hi : i < (LineTable.ofText text).count)
    (hstart : (FoldText.of text styles store).reach 0 0 i ≤ greatest)
    (hstop : (FoldText.of text styles store).reach 0 0 (i + 1) ≤ greatest) :
    let d := FoldText.of text styles store
    ∃ f p, (foldLevels .brackets text styles store)[i]? = some f ∧ d.plainLevels[i]? = some p ∧
      f.stop = p.stop + (d.credited i).toNat ∧ f.start = p.start + (d.skipsBrace i).toNat ∧
      f.blank = p.blank := by
  intro d
  change d.reach 0 0 i ≤ greatest at hstart
  change d.reach 0 0 (i + 1) ≤ greatest at hstop
  have hi' : i < d.lines.size := by rwa [size_lines text styles store]
  have hplain := d.getElem?_levelsVia d.plainAfter hi' 0 0
  rw [Nat.zero_add] at hplain
  refine ⟨_, _, getElem?_foldLevels text styles store hi, hplain, ?_, ?_, rfl⟩
  · have h := d.reach_eq_plain (i + 1)
    change min (d.reach 0 0 (i + 1)) greatest = min (reachVia d.plainAfter 0 0 (i + 1)) greatest + _
    rw [Nat.min_eq_left hstop, Nat.min_eq_left (by omega), h]
    rfl
  · have h := d.reach_eq_plain i
    change min (d.reach 0 0 i) greatest = min (reachVia d.plainAfter 0 0 i) greatest + _
    rw [Nat.min_eq_left hstart, Nat.min_eq_left (by omega), h]

/-- Two lines in a row are credited, behind a closer that closes nothing: the second starts and ends
one higher than without. -/
theorem credited_moves_braces_twice :
    let text := Text.ofString "\x7d\nf\n\x7bg\n\x7b"
    let styles : Styles Toy.Category :=
      #[.operator, .plain, .word, .plain, .operator, .word, .plain, .operator]
    let d := FoldText.of text styles #[]
    (2 < (LineTable.ofText text).count ∧ d.reach 0 0 2 ≤ greatest ∧ d.reach 0 0 3 ≤ greatest) ∧
      (∃ f p, (foldLevels .brackets text styles #[])[2]? = some f ∧ d.plainLevels[2]? = some p ∧
        f.stop = p.stop + 1 ∧ f.start = p.start + 1 ∧ f.blank = p.blank) ∧
      (foldLevels .brackets text styles #[]).map stop = [0, 1, 2, 2] ∧
      d.plainLevels.map stop = [0, 0, 1, 2] := by
  intro text styles d
  have hcount : 2 < (LineTable.ofText text).count := by decide +kernel
  have hstart : d.reach 0 0 2 ≤ greatest := by decide +kernel
  have hstop : d.reach 0 0 3 ≤ greatest := by decide +kernel
  have hcredited : (d.credited 2).toNat = 1 := by decide +kernel
  have hskips : (d.skipsBrace 2).toNat = 1 := by decide +kernel
  obtain ⟨f, p, hf, hp, hmoved⟩ := credited_moves_braces text styles #[] hcount hstart hstop
  rw [hcredited, hskips] at hmoved
  exact ⟨⟨hcount, hstart, hstop⟩, ⟨f, p, hf, hp, hmoved⟩, by decide +kernel, by decide +kernel⟩

end FoldText

end Highlight
