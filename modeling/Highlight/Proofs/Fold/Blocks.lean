import Highlight.Fold.Indentation
import Mathlib.Tactic.ByContra
import Mathlib.Tactic.SplitIfs

/-!
Which blocks a line lies in. A line opens a block if the next line with an indent lies deeper, and a
block is open as long as the lines behind the one that opened it lie deeper than that. Folding by
indentation walks over the lines with a stack of the blocks that are open; said line by line, the
level of a line is the number of the blocks around it (`levels_by_blocks`).
-/

namespace Highlight.Indentation

open FoldLevel

/-! ### The stack -/

section Stack

variable {blocks : List Nat} {indent n : Nat} {closer : Bool}

/-- Of the blocks on the stack those stay open that were opened further out, and for a closer the
one that it closes. -/
theorem stillOpen_eq (h : blocks.Pairwise (· > ·)) (indent : Nat) (closer : Bool) :
    stillOpen blocks indent closer =
      (if closer && blocks.contains indent then [indent] else []) ++
        blocks.filter (· < indent) := by
  induction blocks with
  | nil => simp [stillOpen]
  | cons top blocks ih =>
    obtain ⟨hlt, hrest⟩ := List.pairwise_cons.1 h
    have hall : blocks.filter (· < top) = blocks := List.filter_eq_self.2 fun b hb => by
      simpa using hlt b hb
    have hnot : top ∉ blocks := fun hmem => Nat.lt_irrefl _ (hlt top hmem)
    rcases Nat.lt_trichotomy top indent with htop | rfl | htop
    · have hbelow : blocks.filter (· < indent) = blocks := List.filter_eq_self.2 fun b hb => by
        have := hlt b hb
        simp
        omega
      have hnot' : indent ∉ blocks := fun hmem => by
        have := hlt indent hmem
        omega
      simp [stillOpen, htop, hbelow, hnot', Nat.not_lt_of_lt htop, Nat.ne_of_lt htop,
        Nat.ne_of_gt htop]
    · cases closer with
      | false => simpa [stillOpen, hall] using ih hrest
      | true => simp [stillOpen, hall]
    · have hrest' := ih hrest
      rw [stillOpen] at hrest' ⊢
      simp [htop, hrest', Nat.ne_of_lt htop, Nat.not_lt_of_lt htop]

/-- The innermost block that stays open is the one that the line closes, if it closes any. -/
theorem head?_stillOpen (h : blocks.Pairwise (· > ·)) (indent : Nat) (closer : Bool) :
    (closer && (stillOpen blocks indent closer).head? == some indent) =
      (closer && blocks.contains indent) := by
  have houter : ((blocks.filter (· < indent)).head? == some indent) = false := by
    refine beq_eq_false_iff_ne.2 fun hhead => ?_
    have hmem := (List.mem_filter.1 (List.mem_of_head? hhead)).2
    simp at hmem
  rw [stillOpen_eq h]
  cases hcloses : closer && blocks.contains indent with
  | false => rw [if_neg Bool.false_ne_true, List.nil_append, houter, Bool.and_false]
  | true => simp [(Bool.and_eq_true_iff.1 hcloses).1]

/-- A list that goes down is no longer than what it stays below. -/
theorem length_le_of_pairwise_gt (h : blocks.Pairwise (· > ·)) (hlt : ∀ b ∈ blocks, b < n) :
    blocks.length ≤ n := by
  induction blocks generalizing n with
  | nil => exact Nat.zero_le n
  | cons top blocks ih =>
    obtain ⟨hbelow, hrest⟩ := List.pairwise_cons.1 h
    have htop := hlt top List.mem_cons_self
    have hlen := ih hrest hbelow
    rw [List.length_cons]
    omega

/-- A line that has an indent starts within the blocks around it, and within the one that it closes
unless it opens another one. -/
theorem startsFrom_some (h : blocks.Pairwise (· > ·)) (indent : Nat) (closer : Bool)
    (rest : List (Option Nat × Bool)) :
    let outer := blocks.filter (· < indent)
    let opens := opensBlock indent rest
    let walk := startsFrom (if opens then indent :: outer else outer) rest
    startsFrom blocks ((some indent, closer) :: rest) =
      ((outer.length + (closer && blocks.contains indent && !opens).toNat) :: walk.1, walk.2) := by
  intro outer opens walk
  rw [startsFrom]
  simp only [head?_stillOpen h]
  simp only [stillOpen_eq h]
  cases hcloses : closer && blocks.contains indent <;> cases hopens : opensBlock indent rest <;>
    simp [outer, walk, opens, hopens]

end Stack

/-! ### Blocks -/

/-- What decides how lines fold by indentation. -/
structure Layout where
  /-- The number of lines. -/
  count : Nat
  /-- The indent of a line that decides about blocks; a blank line has none, and neither has a line
  beyond the last one. -/
  indent : Nat → Option Nat
  /-- The line begins with a closer. -/
  closer : Nat → Bool

namespace Layout

variable (l : Layout) {i j k n m : Nat}

/-- The line `j` lies deeper than the line `k`, if both have an indent. -/
def Deeper (k j : Nat) : Prop := ∀ x ∈ l.indent k, ∀ y ∈ l.indent j, x < y

/-- The line opens a block: the next line that has an indent has a larger one. -/
def Opens (i : Nat) : Prop :=
  (l.indent i).isSome ∧ ∃ j < l.count, i < j ∧ (l.indent j).isSome ∧
    (∀ k < j, i < k → l.indent k = none) ∧ l.Deeper i j

/-- The line `k` opens a block that is open before the line `n`: all lines between lie deeper. -/
def OpenBefore (k n : Nat) : Prop := l.Opens k ∧ ∀ j < n, k < j → l.Deeper k j

/-- The line closes a block and opens no other: it begins with a closer, and a block is open before
it whose first line has the same indent. -/
def Closes (i : Nat) : Prop :=
  l.closer i = true ∧ ¬l.Opens i ∧ ∃ k < i, l.OpenBefore k i ∧ l.indent k = l.indent i

instance (k j : Nat) : Decidable (l.Deeper k j) :=
  inferInstanceAs (Decidable (∀ x ∈ l.indent k, ∀ y ∈ l.indent j, x < y))

instance (i : Nat) : Decidable (l.Opens i) :=
  inferInstanceAs (Decidable ((l.indent i).isSome ∧ ∃ j < l.count, i < j ∧ (l.indent j).isSome ∧
    (∀ k < j, i < k → l.indent k = none) ∧ l.Deeper i j))

instance (k n : Nat) : Decidable (l.OpenBefore k n) :=
  inferInstanceAs (Decidable (l.Opens k ∧ ∀ j < n, k < j → l.Deeper k j))

instance (i : Nat) : Decidable (l.Closes i) :=
  inferInstanceAs (Decidable
    (l.closer i = true ∧ ¬l.Opens i ∧ ∃ k < i, l.OpenBefore k i ∧ l.indent k = l.indent i))

/-- The number of blocks around a line: those that a line before it opens, such that all lines
behind that one, this line among them, lie deeper. -/
def enclosing (i : Nat) : Nat := (List.range i).countP fun k => l.OpenBefore k (i + 1)

/-- The number of blocks that are still open behind the last line. -/
def openAtEnd : Nat := (List.range l.count).countP fun k => l.OpenBefore k l.count

/-! ### The blocks that are open before a line -/

/-- The lines that open the blocks that are open before a line, the innermost first. -/
def openLines (n : Nat) : List Nat := ((List.range n).filter fun k => l.OpenBefore k n).reverse

/-- The indents of these lines. -/
def blocks (n : Nat) : List Nat := (l.openLines n).map fun k => (l.indent k).getD 0

variable {l}

theorem mem_openLines : k ∈ l.openLines n ↔ k < n ∧ l.OpenBefore k n := by
  simp [openLines]

theorem deeper_of_eq_none (h : l.indent j = none) (k : Nat) : l.Deeper k j := by
  simp [Deeper, h]

theorem openBefore_succ (h : k < n) : l.OpenBefore k (n + 1) ↔ l.OpenBefore k n ∧ l.Deeper k n := by
  constructor
  · rintro ⟨hopens, hall⟩
    exact ⟨⟨hopens, fun j hj => hall j (by omega)⟩, hall n (by omega) h⟩
  · rintro ⟨⟨hopens, hall⟩, hn⟩
    refine ⟨hopens, fun j hj hk => ?_⟩
    rcases Nat.lt_or_eq_of_le (Nat.le_of_lt_succ hj) with hj | rfl
    · exact hall j hj hk
    · exact hn

theorem openBefore_self : l.OpenBefore n (n + 1) ↔ l.Opens n :=
  ⟨And.left, fun h => ⟨h, fun j hj hn => by omega⟩⟩

theorem filter_openBefore_succ (n : Nat) :
    (List.range n).filter (fun k => l.OpenBefore k (n + 1)) =
      ((List.range n).filter fun k => l.OpenBefore k n).filter fun k => l.Deeper k n := by
  rw [List.filter_filter]
  refine List.filter_congr fun k hk => ?_
  rw [decide_eq_decide.2 (openBefore_succ (List.mem_range.1 hk)), Bool.decide_and, Bool.and_comm]

/-- What a line does to the blocks: those stay open that it lies deeper than, and it may open one
more. -/
theorem openLines_succ (n : Nat) :
    l.openLines (n + 1) =
      (if l.Opens n then [n] else []) ++ (l.openLines n).filter fun k => l.Deeper k n := by
  rw [openLines, openLines, List.range_succ, List.filter_append, List.reverse_append,
    filter_openBefore_succ, List.filter_reverse]
  congr 1
  by_cases hopens : l.Opens n <;> simp [hopens, openBefore_self]

/-- Over a line without an indent nothing changes. -/
theorem openLines_of_eq_none (h : l.indent n = none) : l.openLines (n + 1) = l.openLines n := by
  have hopens : ¬l.Opens n := fun hopens => by simp [Opens, h] at hopens
  rw [openLines_succ, if_neg hopens, List.nil_append, List.filter_eq_self]
  simp [deeper_of_eq_none h]

/-- Of the blocks that are open before a line those are around it that it lies deeper than. -/
theorem enclosing_eq (i : Nat) :
    l.enclosing i = ((l.openLines i).filter fun k => l.Deeper k i).length := by
  rw [enclosing, List.countP_eq_length_filter, filter_openBefore_succ, openLines,
    List.filter_reverse, List.length_reverse]

theorem openAtEnd_eq : l.openAtEnd = (l.openLines l.count).length := by
  rw [openAtEnd, List.countP_eq_length_filter, openLines, List.length_reverse]

/-! ### Their indents -/

theorem Opens.exists_indent (h : l.Opens i) : ∃ x, l.indent i = some x :=
  Option.isSome_iff_exists.1 h.1

/-- Further in, blocks are indented deeper. -/
theorem pairwise_blocks (n : Nat) : (l.blocks n).Pairwise (· > ·) := by
  rw [blocks, List.pairwise_map, openLines, List.pairwise_reverse]
  refine List.Pairwise.imp_of_mem (fun {k j} hk hj hlt => ?_)
    (List.pairwise_lt_range.sublist List.filter_sublist)
  obtain ⟨-, hopens, hall⟩ := mem_openLines.1 (List.mem_reverse.2 hk)
  obtain ⟨hj, hopens', -⟩ := mem_openLines.1 (List.mem_reverse.2 hj)
  obtain ⟨x, hx⟩ := hopens.exists_indent
  obtain ⟨y, hy⟩ := hopens'.exists_indent
  simpa [hx, hy] using hall j hj hlt x hx y hy

theorem mem_blocks {x : Nat} :
    x ∈ l.blocks n ↔ ∃ k < n, l.OpenBefore k n ∧ l.indent k = some x := by
  simp only [blocks, List.mem_map, mem_openLines]
  constructor
  · rintro ⟨k, ⟨hk, hopen⟩, rfl⟩
    obtain ⟨y, hy⟩ := hopen.1.exists_indent
    exact ⟨k, hk, hopen, by simp [hy]⟩
  · rintro ⟨k, hk, hopen, hx⟩
    exact ⟨k, ⟨hk, hopen⟩, by simp [hx]⟩

/-- The blocks that stay open over a line are those that are indented less. -/
theorem filter_blocks {x : Nat} (h : l.indent n = some x) :
    (l.blocks n).filter (· < x) =
      ((l.openLines n).filter fun k => l.Deeper k n).map fun k => (l.indent k).getD 0 := by
  rw [blocks, List.filter_map]
  congr 1
  refine List.filter_congr fun k hk => ?_
  obtain ⟨y, hy⟩ := (mem_openLines.1 hk).2.1.exists_indent
  simp [Deeper, h, hy]

theorem blocks_succ {x : Nat} (h : l.indent n = some x) :
    l.blocks (n + 1) =
      if l.Opens n then x :: (l.blocks n).filter (· < x) else (l.blocks n).filter (· < x) := by
  rw [filter_blocks h, blocks, openLines_succ]
  by_cases hopens : l.Opens n <;> simp [hopens, h]

theorem length_filter_blocks {x : Nat} (h : l.indent n = some x) :
    ((l.blocks n).filter (· < x)).length = l.enclosing n := by
  rw [filter_blocks h, List.length_map, enclosing_eq]

/-! ### Walking over the lines -/

/-- What the walk is told of a line. -/
def told (l : Layout) (i : Nat) : Option Nat × Bool := (l.indent i, l.closer i)

/-- The first line from a line on that has an indent. -/
def next? (l : Layout) (i : Nat) : Option Nat :=
  (List.range' i (l.count - i)).find? fun j => (l.indent j).isSome

/-- The level at which a line starts. A blank one starts where the next line does that is not. -/
def startOf (l : Layout) (i : Nat) : Nat :=
  match l.next? i with
  | some j => l.enclosing j + if l.Closes j then 1 else 0
  | none => l.openAtEnd

theorem next?_of_lt (h : i < l.count) :
    l.next? i = if (l.indent i).isSome then some i else l.next? (i + 1) := by
  rw [next?, show l.count - i = l.count - (i + 1) + 1 by omega, List.range'_succ, List.find?_cons,
    ← next?]
  cases (l.indent i).isSome <;> rfl

theorem next?_count : l.next? l.count = none := by simp [next?]

theorem exists_of_next? (h : l.next? i = some j) :
    i ≤ j ∧ j < l.count ∧ (l.indent j).isSome ∧ ∀ k, i ≤ k → k < j → l.indent k = none := by
  obtain ⟨hsome, hmem, hall⟩ := List.find?_range'_eq_some.1 h
  have hj := List.mem_range'_1.1 hmem
  exact ⟨hj.1, by omega, hsome, fun k hi hk => by simpa using hall k hi hk⟩

theorem eq_none_of_next? (h : l.next? i = none) (hi : i ≤ j) (hj : j < l.count) :
    l.indent j = none := by
  simpa using List.find?_range'_eq_none.1 h j hi (by omega)

theorem startOf_of_some (h : i < l.count) (hi : (l.indent i).isSome) :
    l.startOf i = l.enclosing i + if l.Closes i then 1 else 0 := by
  rw [startOf, next?_of_lt h, if_pos hi]

theorem startOf_of_none (h : i < l.count) (hi : l.indent i = none) :
    l.startOf i = l.startOf (i + 1) := by
  rw [startOf, startOf, next?_of_lt h, hi, if_neg (by simp)]

/-- Lines without an indent start where the line behind them does. -/
theorem startOf_eq_of_none (hle : i ≤ j) (hj : j ≤ l.count)
    (h : ∀ k < j, i ≤ k → l.indent k = none) : l.startOf i = l.startOf j := by
  obtain ⟨d, rfl⟩ := Nat.exists_eq_add_of_le hle
  induction d with
  | zero => rfl
  | succ d ih =>
    rw [ih (by omega) (by omega) fun k hk => h k (by omega),
      startOf_of_none (by omega) (h (i + d) (by omega) (by omega)), Nat.add_assoc]

theorem startOf_count : l.startOf l.count = l.openAtEnd := by rw [startOf, next?_count]

theorem opens_iff {x : Nat} (h : l.indent i = some x) :
    l.Opens i ↔ ∃ j y, l.next? (i + 1) = some j ∧ l.indent j = some y ∧ x < y := by
  constructor
  · rintro ⟨-, j, hj, hij, hsome, hall, hdeeper⟩
    obtain ⟨y, hy⟩ := Option.isSome_iff_exists.1 hsome
    refine ⟨j, y, List.find?_range'_eq_some.2 ⟨hsome, List.mem_range'_1.2 ⟨hij, by omega⟩,
      fun k hk hkj => by simp [hall k hkj hk]⟩, hy, hdeeper x h y hy⟩
  · rintro ⟨j, y, hnext, hy, hlt⟩
    obtain ⟨hij, hj, hsome, hall⟩ := exists_of_next? hnext
    exact ⟨by simp [h], j, hj, hij, hsome, fun k hk hik => hall k hik hk,
      by simp [Deeper, h, hy, hlt]⟩

theorem closes_iff {x : Nat} (h : l.indent i = some x) :
    l.Closes i ↔ l.closer i = true ∧ ¬l.Opens i ∧ x ∈ l.blocks i := by
  rw [Closes, mem_blocks, h]

/-- Over lines without an indent nothing changes. -/
theorem blocks_of_none (hle : i ≤ j) (h : ∀ k, i ≤ k → k < j → l.indent k = none) :
    l.blocks j = l.blocks i := by
  obtain ⟨d, rfl⟩ := Nat.exists_eq_add_of_le hle
  induction d with
  | zero => rfl
  | succ d ih =>
    rw [← Nat.add_assoc, blocks, openLines_of_eq_none (h (i + d) (by omega) (by omega)), ← blocks]
    exact ih (by omega) fun k hi hk => h k hi (by omega)

/-! ### From a line to the next -/

/-- Behind a line that opens a block the level is one higher. -/
theorem startOf_succ_of_opens (h : l.Opens i) : l.startOf (i + 1) = l.startOf i + 1 := by
  obtain ⟨x, hx⟩ := h.exists_indent
  obtain ⟨j, y, hnext, hy, hlt⟩ := (opens_iff hx).1 h
  obtain ⟨hij, hj, hsome, hall⟩ := exists_of_next? hnext
  have hblocks : l.blocks j = x :: (l.blocks i).filter (· < x) := by
    rw [blocks_of_none hij hall, blocks_succ hx, if_pos h]
  have hbelow : ∀ b ∈ l.blocks j, b < y := by
    intro b hb
    rw [hblocks, List.mem_cons, List.mem_filter] at hb
    rcases hb with rfl | ⟨-, hb⟩
    · exact hlt
    · have hb : b < x := by simpa using hb
      omega
  have henclosing : l.enclosing j = l.enclosing i + 1 := by
    rw [← length_filter_blocks hy, List.filter_eq_self.2 fun b hb => by simpa using hbelow b hb,
      hblocks, List.length_cons, length_filter_blocks hx]
  have hcloses : ¬l.Closes j := fun hcloses =>
    Nat.lt_irrefl y (hbelow y ((closes_iff hy).1 hcloses).2.2)
  have hcloses' : ¬l.Closes i := fun hcloses => hcloses.2.1 h
  rw [startOf_of_some (by omega) h.1, if_neg hcloses', startOf, hnext]
  simp [hcloses, henclosing]

/-- Behind a line that opens none it is not higher. -/
theorem startOf_succ_le (hi : i < l.count) (h : ¬l.Opens i) : l.startOf (i + 1) ≤ l.startOf i := by
  cases hx : l.indent i with
  | none => exact Nat.le_of_eq (startOf_of_none hi hx).symm
  | some x =>
    have hblocks : l.blocks (i + 1) = (l.blocks i).filter (· < x) := by
      rw [blocks_succ hx, if_neg h]
    have hlen : (l.blocks (i + 1)).length = l.enclosing i := by
      rw [hblocks, length_filter_blocks hx]
    have hstart : l.enclosing i ≤ l.startOf i := by
      rw [startOf_of_some hi (by simp [hx])]
      exact Nat.le_add_right _ _
    refine Nat.le_trans ?_ hstart
    rw [startOf]
    cases hnext : l.next? (i + 1) with
    | none =>
      have hnone := fun k hk hlt => eq_none_of_next? (j := k) hnext hk hlt
      have hend := blocks_of_none (l := l) hi hnone
      have hlen' : (l.blocks l.count).length = l.openAtEnd := by
        rw [openAtEnd_eq, blocks, List.length_map]
      rw [hend] at hlen'
      exact Nat.le_of_eq (hlen'.symm.trans hlen)
    | some j =>
      obtain ⟨hij, hj, hsome, hall⟩ := exists_of_next? hnext
      obtain ⟨y, hy⟩ := Option.isSome_iff_exists.1 hsome
      have hsame := blocks_of_none hij hall
      have hfilter := length_filter_blocks hy
      rw [hsame] at hfilter
      simp only
      split
      case isTrue hcloses =>
        -- the block that is closed is not around the line that closes it
        have hmem := ((closes_iff hy).1 hcloses).2.2
        rw [hsame] at hmem
        have hlt : ((l.blocks (i + 1)).filter (· < y)).length < (l.blocks (i + 1)).length :=
          List.length_filter_lt_length_iff_exists.2 ⟨y, hmem, by simp⟩
        omega
      case isFalse =>
        have hle := List.length_filter_le (decide <| · < y) (l.blocks (i + 1))
        omega

/-! ### The walk -/

theorem findSome?_eq (f : Nat → Option Nat) (L : List Nat) :
    L.findSome? f = (L.find? fun i => (f i).isSome).bind f := by
  induction L with
  | nil => rfl
  | cons i L ih =>
    rw [List.findSome?_cons, List.find?_cons]
    cases hf : f i <;> simp [hf, ih]

theorem opensBlock_told {x : Nat} (h : l.indent n = some x) (hm : n + 1 + m = l.count) :
    opensBlock x ((List.range' (n + 1) m).map l.told) = decide (l.Opens n) := by
  have hnext : ((List.range' (n + 1) m).map l.told).findSome? Prod.fst =
      (l.next? (n + 1)).bind l.indent := by
    rw [List.findSome?_map, next?, show l.count - (n + 1) = m by omega]
    exact findSome?_eq l.indent _
  rw [opensBlock, hnext, Bool.eq_iff_iff, decide_eq_true_iff, opens_iff h]
  cases l.next? (n + 1) with
  | none => simp
  | some j =>
    rw [Option.bind_some]
    cases hy : l.indent j <;> simp [hy]

/-- **The walk over the lines.** With the blocks on the stack that are open before a line, it finds
where that line and all behind it start. -/
theorem startsFrom_blocks (hm : n + m = l.count) :
    startsFrom (l.blocks n) ((List.range' n m).map l.told) =
      ((List.range' n m).map l.startOf, l.openAtEnd) := by
  induction m generalizing n with
  | zero =>
    obtain rfl : n = l.count := hm
    rw [openAtEnd_eq]
    simp [startsFrom, blocks]
  | succ m ih =>
    have ih := ih (n := n + 1) (by omega)
    rw [List.range'_succ, List.map_cons, List.map_cons, told]
    cases hx : l.indent n with
    | none =>
      have hnext : ((List.range' (n + 1) m).map l.startOf).headD l.openAtEnd =
          l.startOf (n + 1) := by
        cases m with
        | zero =>
          rw [hm, startOf_count]
          rfl
        | succ m => rfl
      rw [blocks, openLines_of_eq_none hx, ← blocks] at ih
      simp only [startsFrom, ih, hnext, startOf_of_none (by omega : n < l.count) hx]
    | some x =>
      have hopens := opensBlock_told hx (m := m) (by omega)
      have hcloses : (l.closer n && (l.blocks n).contains x && !decide (l.Opens n)) =
          decide (l.Closes n) := by
        rw [Bool.eq_iff_iff, decide_eq_true_iff, closes_iff hx]
        simp [and_assoc, and_comm]
      have hstart : l.startOf n = l.enclosing n + (decide (l.Closes n)).toNat := by
        rw [startOf_of_some (by omega) (by simp [hx])]
        by_cases hc : l.Closes n <;> simp [hc]
      have hblocks : (if opensBlock x ((List.range' (n + 1) m).map l.told) then
          x :: (l.blocks n).filter (· < x) else (l.blocks n).filter (· < x)) =
            l.blocks (n + 1) := by
        rw [hopens, blocks_succ hx]
        by_cases ho : l.Opens n <;> simp [ho]
      rw [startsFrom_some (pairwise_blocks n), hblocks, ih, hopens, hcloses,
        length_filter_blocks hx, hstart]

/-! ### Levels -/

/-- No line starts deeper than one more than the greatest indent there may be. -/
theorem startOf_le {b : Nat} (h : ∀ i, ∀ x ∈ l.indent i, x < b) (i : Nat) :
    l.startOf i ≤ b + 1 := by
  have hlen : ∀ n, (l.blocks n).length ≤ b := fun n =>
    length_le_of_pairwise_gt (pairwise_blocks n) fun x hx => by
      obtain ⟨k, -, -, hk⟩ := mem_blocks.1 hx
      exact h k x hk
  rw [startOf]
  cases hnext : l.next? i with
  | none =>
    have hend := hlen l.count
    rw [blocks, List.length_map, ← openAtEnd_eq] at hend
    exact Nat.le_succ_of_le hend
  | some j =>
    obtain ⟨y, hy⟩ := Option.isSome_iff_exists.1 (exists_of_next? hnext).2.2.1
    have henclosing := length_filter_blocks hy
    have hle := List.length_filter_le (decide <| · < y) (l.blocks j)
    have hlen := hlen j
    simp only
    split <;> omega

/-- What decides how the first lines of a store fold. -/
def ofStore (store : LineStore) (count : Nat) : Layout where
  count := count
  indent i := (indents (statesOf store count)).getD i none
  closer i := (store.state i).flags.closer

end Layout

theorem length_indentsFrom (before : LineState) (opener : Nat) (states : List LineState) :
    (indentsFrom before opener states).length = states.length := by
  induction states generalizing before opener with
  | nil => rfl
  | cons s rest ih =>
    unfold indentsFrom
    split_ifs <;> rw [List.length_cons, List.length_cons, ih]

/-- No indent is greater than one more than a line state holds. -/
theorem indentsFrom_le {before : LineState} {opener : Nat} {states : List LineState}
    (h : opener ≤ LineState.maxIndent) {e : Option Nat}
    (he : e ∈ indentsFrom before opener states) : ∀ x ∈ e, x ≤ LineState.maxIndent + 1 := by
  induction states generalizing before opener with
  | nil => cases he
  | cons s rest ih =>
    have hs : s.indent.toNat ≤ LineState.maxIndent := Nat.le_of_lt_succ s.indent.toNat_lt
    unfold indentsFrom at he
    split_ifs at he <;> rcases List.mem_cons.1 he with rfl | he
    · rintro x ⟨⟩
      exact Nat.succ_le_succ h
    · exact ih h he
    · rintro x ⟨⟩
    · exact ih h he
    · rintro x ⟨⟩
      exact Nat.le_succ_of_le hs
    · exact ih hs he

theorem ofStarts_eq (f : Nat → LineState) (g : Nat → Nat) (n m : Nat) :
    ofStarts (g (n + m)) ((List.range' n m).map f) ((List.range' n m).map g) =
      (List.range' n m).map fun i => between (g i) (g (i + 1)) (f i).flags.blank := by
  induction m generalizing n with
  | zero => rfl
  | succ m ih =>
    have hnext : ((List.range' (n + 1) m).map g).headD (g (n + (m + 1))) = g (n + 1) := by
      cases m with
      | zero => rfl
      | succ m => rfl
    rw [List.range'_succ, List.map_cons, List.map_cons, List.map_cons, ofStarts, hnext,
      ← ih (n + 1), show n + (m + 1) = n + 1 + m by omega]

open Layout

/-- The levels of the first lines of a store are those at which the lines start. -/
theorem levels_eq_map (store : LineStore) (count : Nat) :
    levels store count = (List.range' 0 count).map fun i =>
      between ((ofStore store count).startOf i) ((ofStore store count).startOf (i + 1))
        (store.state i).flags.blank := by
  have hstates : statesOf store count = (List.range' 0 count).map store.state := by
    rw [statesOf, List.range_eq_range']
  have htold : (indents (statesOf store count)).zip
      ((statesOf store count).map (·.flags.closer)) =
      (List.range' 0 count).map (ofStore store count).told := by
    refine List.ext_getElem (by simp [indents, length_indentsFrom, statesOf]) fun i h₁ h₂ => ?_
    have hi : i < (indents (statesOf store count)).length :=
      Nat.lt_of_lt_of_le h₁ (by rw [List.length_zip]; exact Nat.min_le_left _ _)
    refine Prod.ext ?_ ?_
    · simp [told, ofStore, List.getD_eq_getElem?_getD, hi]
    · simp [told, ofStore, statesOf]
  have hwalk := startsFrom_blocks (l := ofStore store count) (n := 0) (m := count) (Nat.zero_add _)
  have hlast : (ofStore store count).openAtEnd = (ofStore store count).startOf (0 + count) := by
    rw [Nat.zero_add]
    exact startOf_count.symm
  rw [levels, htold, show ([] : List Nat) = (ofStore store count).blocks 0 from rfl, hwalk]
  simp only
  rw [hlast, hstates, ofStarts_eq]

/-- No line starts deeper than is reported. -/
theorem startOf_ofStore_le (store : LineStore) (count i : Nat) :
    (ofStore store count).startOf i ≤ greatest := by
  have hindent : ∀ i, ∀ x ∈ (ofStore store count).indent i, x < LineState.maxIndent + 2 := by
    intro i x hx
    change (indents (statesOf store count)).getD i none = some x at hx
    rw [List.getD_eq_getElem?_getD] at hx
    cases hget : (indents (statesOf store count))[i]? with
    | none => simp [hget] at hx
    | some e =>
      obtain rfl : e = some x := by simpa [hget] using hx
      exact Nat.lt_succ_of_le
        (indentsFrom_le (Nat.zero_le _) (List.mem_of_getElem? hget) x rfl)
  exact Nat.le_trans (startOf_le hindent i) (by decide)

/-- The fold level of a line, by where it and the next line start. -/
theorem getElem?_levels {store : LineStore} {count i : Nat} {f : FoldLevel}
    (h : (levels store count)[i]? = some f) :
    i < count ∧ f.start = (ofStore store count).startOf i ∧
      f.stop = (ofStore store count).startOf (i + 1) ∧
      (f.header = true ↔
        (ofStore store count).startOf i < (ofStore store count).startOf (i + 1)) := by
  rw [levels_eq_map, List.getElem?_map, Option.map_eq_some_iff] at h
  obtain ⟨j, hj, rfl⟩ := h
  obtain ⟨hi, hj⟩ := List.getElem?_eq_some_iff.1 hj
  rw [List.length_range'] at hi
  obtain rfl : i = j := by simpa using hj
  have hstart := Nat.min_eq_left (startOf_ofStore_le store count i)
  have hstop := Nat.min_eq_left (startOf_ofStore_le store count (i + 1))
  refine ⟨hi, hstart, hstop, ?_⟩
  rw [between, hstart, hstop, decide_eq_true_iff]

/-- What the blocks around a line say of its fold level, among the fold levels of all lines. -/
structure Layout.Places (l : Layout) (levels : List FoldLevel) (i : Nat) (f : FoldLevel) :
    Prop where
  start : (l.indent i).isSome → f.start = l.enclosing i + if l.Closes i then 1 else 0
  /-- A line without an indent starts where the next line does that has one. -/
  start_blank : ∀ j f', levels[j]? = some f' → i < j → (l.indent j).isSome →
    (∀ k < j, i ≤ k → l.indent k = none) → f.start = f'.start
  /-- If there is none, it starts within the blocks that are open at the end. -/
  start_end : (∀ k < l.count, i ≤ k → l.indent k = none) → f.start = l.openAtEnd
  stop : ∀ f', levels[i + 1]? = some f' → f.stop = f'.start
  stop_end : i + 1 = l.count → f.stop = l.openAtEnd
  header : f.header = true ↔ l.Opens i
  stop_header : l.Opens i → f.stop = f.start + 1

/-- **Lines fold by the blocks around them.** -/
theorem levels_by_blocks (store : LineStore) (count : Nat) :
    (levels store count).length = count ∧
      ∀ i f, (levels store count)[i]? = some f →
        (ofStore store count).Places (levels store count) i f := by
  refine ⟨by simp [levels_eq_map], fun i f hf => ?_⟩
  obtain ⟨hi, hstart, hstop, hheader⟩ := getElem?_levels hf
  have hi' : i < (ofStore store count).count := hi
  refine ⟨fun hsome => ?_, fun j f' hf' hij hsome hnone => ?_, fun hnone => ?_, fun f' hf' => ?_,
    fun hlast => ?_, ?_, fun hopens => ?_⟩
  · rw [hstart, startOf_of_some hi' hsome]
  · obtain ⟨hj, hstart', -⟩ := getElem?_levels hf'
    rw [hstart, hstart', startOf_eq_of_none (Nat.le_of_lt hij) (Nat.le_of_lt hj) hnone]
  · rw [hstart, startOf_eq_of_none (Nat.le_of_lt hi') (Nat.le_refl _) hnone, startOf_count]
  · rw [hstop, (getElem?_levels hf').2.1]
  · rw [hstop, hlast, startOf_count]
  · rw [hheader]
    refine ⟨fun hlt => ?_, fun hopens => ?_⟩
    · by_contra hopens
      exact Nat.not_lt_of_le (startOf_succ_le hi' hopens) hlt
    · rw [startOf_succ_of_opens hopens]
      exact Nat.lt_succ_self _
  · rw [hstop, startOf_succ_of_opens hopens, hstart]

/-- A closer that opens a block again is not within the block that it closes; the last closer is,
and the blank line lies as deep as the line behind it. -/
theorem levels_by_blocks_reopened :
    let line := fun (flags : LineFlags) indent => (LineState.of flags 0 indent).encode
    let store : LineStore := #[line {} 0, line {} 2, line {} 4, line { closer := true } 2,
      line { blank := true } 0, line {} 4, line { closer := true } 2, line {} 0]
    let l := ofStore store 8
    (levels store 8).map FoldLevel.start = [0, 1, 2, 1, 2, 2, 2, 0] ∧
      (levels store 8)[6]? = some ⟨2, 0, false, false⟩ ∧
      l.Places (levels store 8) 6 ⟨2, 0, false, false⟩ ∧ l.Closes 6 ∧ ¬l.Closes 3 ∧
      l.enclosing 6 = 1 := by
  intro line store l
  have h : (levels store 8)[6]? = some ⟨2, 0, false, false⟩ := by decide +kernel
  obtain ⟨-, hplaces⟩ := levels_by_blocks store 8
  exact ⟨by decide +kernel, h, hplaces 6 _ h, by decide +kernel, by decide +kernel,
    by decide +kernel⟩

end Highlight.Indentation
