import Highlight.Language.Toy
import Highlight.Proofs.Fold.Levels

/-!
Folding a part of a document. A pass over the lines of a range carries the level, the flags of the
line before and whether the brace that the next line begins with is skipped (`Carry`). A pass that
starts in the middle has to find out the last two, and asks for the brace in another way than the
pass that comes along: that one asks only on lines on which something is visible. Both come to the
same, because the head of a block is visible (`Carry.step_resume`). So a document folds in parts as
it folds in one go (`bracketLevels_split`).
-/

namespace Highlight

open Byte FoldLevel

namespace FoldText

variable {σ : Type} [Palette σ] (d : FoldText σ)

/-! ### The pass over a range -/

/-- The next line begins with a brace, and this one is the head of its block. -/
def braceFollows (i : Nat) : Bool := d.opensWithBrace (i + 1) && d.isHead i

/-- The line shows something beside white space, plain text and comments. -/
def isVisible (i : Nat) : Bool := (d.line i).any fun p => Trail.counts p.1 p.2

/-- What a pass carries from line to line. -/
structure Carry where
  level : Nat
  /-- The flags of the line before. -/
  before : LineFlags
  /-- The brace that the line begins with is credited to the line before. -/
  skips : Bool

namespace Carry

/-- What a pass that starts with the line `i` finds out about the line before. -/
def resume (i level : Nat) : Carry where
  level := level
  before := (d.store.stateBefore i).flags
  skips :=
    match i with
    | 0 => false
    | i + 1 =>
      !((d.store.state i).flags.comment || (d.store.state i).flags.string) && d.braceFollows i

/-- What a pass carries on from the line `i`. -/
def step (c : Carry) (i : Nat) : Carry :=
  let here := (d.store.state i).flags
  let credits := !here.comment && !here.string && (d.isVisible i && d.braceFollows i)
  { level := d.levelOn c.skips credits c.before i c.level
    before := here
    skips := credits }

end Carry

/-- The fold levels that a pass gives to `n` lines from the line `i` on. -/
def passLevels : Nat → Nat → Carry → List FoldLevel
  | 0, _, _ => []
  | n + 1, i, c =>
    between c.level (c.step d i).level (d.store.state i).flags.blank ::
      passLevels n (i + 1) (c.step d i)

/-- The fold levels of the lines from `first` on and before `last`, by a pass over them. -/
def foldLines (first last level : Nat) : List FoldLevel :=
  d.passLevels (min last d.lines.size - first) first (.resume d first level)

/-! ### A pass that goes on and a pass that starts -/

variable {d}

/-- The head of a block is visible. -/
theorem isVisible_of_isHead {i : Nat} (h : d.isHead i = true) : d.isVisible i = true := by
  unfold isHead at h
  split at h
  case h_1 => cases h
  case h_2 p hp =>
    have hcounts := List.find?_some hp
    exact List.any_eq_true.2 ⟨p, List.mem_reverse.1 (List.mem_of_find?_eq_some hp), hcounts⟩

/-- Whether something is visible need not be asked. -/
theorem visible_and_braceFollows (i : Nat) :
    (d.isVisible i && d.braceFollows i) = d.braceFollows i := by
  rw [Bool.and_eq_right_iff_imp]
  intro h
  exact isVisible_of_isHead (Bool.and_eq_true_iff.1 h).2

theorem credited_eq_braceFollows (i : Nat) :
    d.credited i =
      (!(d.store.state i).flags.comment && !(d.store.state i).flags.string &&
        d.braceFollows i) := by
  rw [credited, braceFollows, Bool.and_assoc]

theorem Carry.resume_eq (i level : Nat) :
    Carry.resume d i level = ⟨level, (d.store.stateBefore i).flags, d.skipsBrace i⟩ := by
  cases i with
  | zero => rfl
  | succ i => rw [skipsBrace, credited_eq_braceFollows, ← Bool.not_or]; rfl

/-- **What a pass carries on is what another one finds out that starts there.** -/
theorem Carry.step_resume (i level : Nat) :
    (Carry.resume d i level).step d i = .resume d (i + 1) (d.levelAfter i level) := by
  have hcredit : (!(d.store.state i).flags.comment && !(d.store.state i).flags.string &&
      (d.isVisible i && d.braceFollows i)) = d.credited i := by
    rw [visible_and_braceFollows, credited_eq_braceFollows]
  rw [resume_eq, resume_eq, levelAfter_eq_levelOn]
  simp only [step, hcredit]
  rfl

theorem passLevels_resume (n i level : Nat) :
    d.passLevels n i (.resume d i level) = d.levelsFrom n i level := by
  induction n generalizing i level with
  | zero => rfl
  | succ n ih =>
    rw [passLevels, Carry.step_resume, ih, levelsFrom]
    rfl

theorem bracketLevels_eq_foldLines (first last level : Nat) :
    d.bracketLevels first last level = d.foldLines first last level :=
  (passLevels_resume _ _ _).symm

/-! ### Parts of a document -/

section Range

variable {a b c v : Nat}

theorem bracketLevels_eq_via (hb : b ≤ d.lines.size) :
    d.bracketLevels a b v = d.levelsVia d.levelAfter (b - a) a v := by
  rw [bracketLevels, Nat.min_eq_left hb, levelsFrom_eq_via]

theorem length_bracketLevels (hb : b ≤ d.lines.size) : (d.bracketLevels a b v).length = b - a := by
  rw [bracketLevels_eq_via hb, length_levelsVia]

theorem chained_bracketLevels (hv : v ≤ greatest) : Chained v (d.bracketLevels a b v) := by
  have h := d.chained_levelsVia d.levelAfter (min b d.lines.size - a) a v
  rwa [Nat.min_eq_left hv, ← levelsFrom_eq_via] at h

/-- The level that is reported at the end of a part is the one with which the pass goes on, unless
it is too great to be reported. -/
theorem last_bracketLevels (hb : b ≤ d.lines.size) (hv : v ≤ greatest)
    (h : d.reach a v (b - a) ≤ greatest) :
    ((d.bracketLevels a b v).getLast?.map stop).getD v = d.reach a v (b - a) := by
  have hlast := d.getLast?_levelsVia d.levelAfter (b - a) a v
  rw [← reach, Nat.min_eq_left h, Nat.min_eq_left hv, ← bracketLevels_eq_via hb] at hlast
  exact hlast

end Range

/-- **A document folds in parts as it folds in one go.** The lines before `b`, and those from `b` on
with the level that the last of the others was reported to end at, get the levels that a pass over
all of them gives; the levels of each of the three passes follow one another, and each pass gives
what it would give if it carried everything along. -/
theorem bracketLevels_split (text : Text) (styles : Styles σ) (store : LineStore)
    {a b c v : Nat} (hab : a ≤ b) (hbc : b ≤ c) (hc : c ≤ (LineTable.ofText text).count)
    (hv : v ≤ greatest) (h : (FoldText.of text styles store).reach a v (b - a) ≤ greatest) :
    let d := FoldText.of text styles store
    let left := d.bracketLevels a b v
    let next := (left.getLast?.map stop).getD v
    d.bracketLevels a c v = left ++ d.bracketLevels b c next ∧
      (left.length = b - a ∧ (d.bracketLevels b c next).length = c - b) ∧
      (Chained v (d.bracketLevels a c v) ∧ Chained v left ∧
        Chained next (d.bracketLevels b c next)) ∧
      ∀ first last level, d.bracketLevels first last level = d.foldLines first last level := by
  intro d left next
  rw [← size_lines text styles store] at hc
  have hb : b ≤ d.lines.size := Nat.le_trans hbc hc
  have hnext : next = d.reach a v (b - a) := last_bracketLevels hb hv h
  have hnextLe : next ≤ greatest := hnext ▸ h
  have hsum : c - a = b - a + (c - b) := by omega
  refine ⟨?_, ?_, ?_, bracketLevels_eq_foldLines⟩
  · rw [bracketLevels_eq_via hc, bracketLevels_eq_via hc, hsum, levelsVia_add,
      Nat.add_sub_cancel' hab, hnext, reach, ← bracketLevels_eq_via hb]
  · exact ⟨length_bracketLevels hb, length_bracketLevels hc⟩
  · exact ⟨chained_bracketLevels hv, chained_bracketLevels hv, chained_bracketLevels hnextLe⟩

/-- A pass that starts between the head of a block and its brace does not count the brace again. -/
theorem bracketLevels_split_brace :
    let text := Text.ofString "f\n\x7b\n\x7d\x7d"
    let styles : Styles Toy.Category :=
      #[.word, .plain, .operator, .plain, .operator, .operator]
    let d := FoldText.of text styles #[]
    (0 ≤ 1 ∧ 1 ≤ 3 ∧ 3 ≤ (LineTable.ofText text).count ∧ 7 ≤ greatest ∧
      d.reach 0 7 1 ≤ greatest) ∧
      d.bracketLevels 0 3 7 = d.bracketLevels 0 1 7 ++ d.bracketLevels 1 3 8 ∧
      d.bracketLevels 1 3 8 = [⟨8, 8, false, false⟩, ⟨8, 6, false, false⟩] := by
  intro text styles d
  have hcount : 3 ≤ (LineTable.ofText text).count := by decide +kernel
  have hreach : d.reach 0 7 1 ≤ greatest := by decide +kernel
  have hnext : ((d.bracketLevels 0 1 7).getLast?.map stop).getD 7 = 8 := by decide +kernel
  obtain ⟨hsplit, -⟩ := bracketLevels_split text styles #[] (a := 0) (b := 1) (c := 3) (v := 7)
    (by decide) (by decide) hcount (by decide) hreach
  rw [hnext] at hsplit
  exact ⟨⟨by decide, by decide, hcount, by decide, hreach⟩, hsplit, by decide +kernel⟩

end FoldText

end Highlight
