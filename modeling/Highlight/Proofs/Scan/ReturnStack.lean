import Highlight.Scan.ReturnStack

/-!
Return stacks that bring back the same states. They may differ in how deep they once were, which no
rule asks.
-/

namespace Highlight.ReturnStack

variable {σ : Type}

/-- The stacks hold the same and count the same, whatever their peaks. -/
structure Same (s t : ReturnStack σ) : Prop where
  held : s.held = t.held
  depth : s.depth = t.depth
  cap : s.cap = t.cap

variable {s t : ReturnStack σ}

theorem Same.refl (s : ReturnStack σ) : s.Same s := ⟨rfl, rfl, rfl⟩

theorem Same.isEmpty_eq (h : s.Same t) : s.isEmpty = t.isEmpty := by
  rw [isEmpty, isEmpty, h.depth]

theorem Same.push (h : s.Same t) (a : σ) : (s.push a).Same (t.push a) := by
  refine ⟨?_, congrArg (· + 1) h.depth, h.cap⟩
  simp only [ReturnStack.push, h.held, h.depth, h.cap]

/-- Either both stacks hold nothing, or both bring back the same state. -/
theorem Same.pop? (h : s.Same t) :
    s.pop? = none ∧ t.pop? = none ∨
      ∃ a s' t', s.pop? = some (a, s') ∧ t.pop? = some (a, t') ∧ s'.Same t' := by
  obtain ⟨held, depth, cap, peak⟩ := s
  obtain ⟨held', depth', cap', peak'⟩ := t
  obtain ⟨rfl, rfl, rfl⟩ := h
  cases held with
  | nil => exact .inl ⟨rfl, rfl⟩
  | cons a rest => exact .inr ⟨a, _, _, rfl, rfl, rfl, rfl, rfl⟩

theorem Same.drop (h : s.Same t) : s.drop.Same t.drop := by
  rcases h.pop? with ⟨h₁, h₂⟩ | ⟨a, s', t', h₁, h₂, h'⟩
  · simpa [ReturnStack.drop, h₁, h₂] using h
  · simpa [ReturnStack.drop, h₁, h₂] using h'

theorem cap_pop {a : σ} (h : s.pop? = some (a, t)) : t.cap = s.cap := by
  unfold pop? at h
  split at h
  · cases h
  · cases h
    rfl

/-- The innermost state held is one that was put there. -/
theorem mem_of_pop {a : σ} (h : s.pop? = some (a, t)) : a ∈ s.held ∧ ∀ b ∈ t.held, b ∈ s.held := by
  unfold pop? at h
  split at h
  · cases h
  · next b rest e =>
    cases h
    refine ⟨by simp [e], fun c hc => ?_⟩
    simp only at hc
    split at hc
    · exact e ▸ List.mem_cons_of_mem _ hc
    · exact hc

theorem Full.drop (h : s.Full) : s.drop.Full := by
  unfold ReturnStack.drop
  cases hp : s.pop? with
  | none => exact h
  | some p => exact h.pop hp

theorem cap_drop (s : ReturnStack σ) : s.drop.cap = s.cap := by
  unfold ReturnStack.drop
  cases hp : s.pop? with
  | none => rfl
  | some p => exact cap_pop hp

/-- With no region open the stack is as it was made. -/
theorem Full.same_empty {cap : Nat} (h : s.Full) (hc : s.cap = max cap 1)
    (he : s.isEmpty = true) : s.Same (empty cap) := by
  have hd : s.depth = 0 := by simpa [isEmpty] using he
  refine ⟨?_, hd, hc⟩
  rw [Full, hd, Nat.zero_min] at h
  exact List.length_eq_zero_iff.1 h

/-! ### Regions that are closed again -/

/-- The stack, had it been `n` deep once. -/
def raise (s : ReturnStack σ) (n : Nat) : ReturnStack σ := { s with peak := max s.peak n }

@[simp] theorem depth_raise (s : ReturnStack σ) (n : Nat) : (s.raise n).depth = s.depth := rfl

@[simp] theorem peak_raise (s : ReturnStack σ) (n : Nat) : (s.raise n).peak = max s.peak n := rfl

theorem raise_raise (s : ReturnStack σ) (m n : Nat) : (s.raise m).raise n = s.raise (max m n) := by
  simp only [raise, Nat.max_assoc]

theorem depth_le_peak_raise (h : s.depth ≤ s.peak) (n : Nat) :
    (s.raise n).depth ≤ (s.raise n).peak := Nat.le_trans h (Nat.le_max_left _ _)

theorem raise_of_le {n : Nat} (h : n ≤ s.peak) : s.raise n = s := by
  rw [raise, Nat.max_eq_left h]

@[simp] theorem depth_push (s : ReturnStack σ) (a : σ) : (s.push a).depth = s.depth + 1 := rfl

/-- A region that was held brings back its own state, and leaves the stack as it was. -/
theorem pop?_push {a : σ} (h : s.depth < s.cap) (n : Nat) :
    ((s.push a).raise n).pop? = some (a, s.raise (max (s.depth + 1) n)) := by
  have hle : s.depth + 1 ≤ s.cap := h
  simp [pop?, raise, push, h, hle, Nat.max_assoc]

/-! ### Stacks with other room -/

/-- The stack, had it room for `n` states. -/
def recap (s : ReturnStack σ) (n : Nat) : ReturnStack σ := { s with cap := n }

/-- Where either stack has room, the new state is held. -/
theorem push_recap {n : Nat} (h : s.depth < s.cap) (h' : s.depth < n) (a : σ) :
    (s.recap n).push a = (s.push a).recap n := by
  simp [push, recap, h, h']

/-- Where either stack holds all its states, it brings back the same one. -/
theorem pop?_recap {n : Nat} (h : s.depth ≤ s.cap) (h' : s.depth ≤ n) :
    (s.recap n).pop? = s.pop?.map (Prod.map id (recap · n)) := by
  unfold pop? recap
  cases s.held with
  | nil => rfl
  | cons a rest => simp [h, h']

/-- Closing a region leaves the stack no deeper, and what it was at most. -/
theorem depth_peak_pop {a : σ} (h : s.pop? = some (a, t)) :
    t.depth ≤ s.depth ∧ t.peak = s.peak := by
  unfold pop? at h
  split at h
  · cases h
  · cases h
    exact ⟨Nat.sub_le _ _, rfl⟩

/-! ### Stacks with one state -/

/-- The stack has room, and every region that is held returns to `a`. -/
structure Uniform (a : σ) (s : ReturnStack σ) : Prop where
  full : s.Full
  cap : 0 < s.cap
  held : ∀ b ∈ s.held, b = a

theorem uniform_empty (a : σ) (cap : Nat) : (empty cap).Uniform a :=
  ⟨full_empty cap, Nat.lt_of_lt_of_le Nat.one_pos (Nat.le_max_right cap 1), nofun⟩

theorem Uniform.push {a : σ} (h : s.Uniform a) : (s.push a).Uniform a := by
  refine ⟨h.full.push a, h.cap, fun b hb => ?_⟩
  simp only [ReturnStack.push] at hb
  split at hb
  · exact (List.mem_cons.1 hb).elim id (h.held b)
  · exact h.held b hb

/-- Every region returns to the one state, also one that was only counted. -/
theorem Uniform.pop? {a : σ} (h : s.Uniform a) (hd : 0 < s.depth) :
    ∃ t, s.pop? = some (a, t) ∧ t.Uniform a ∧ t.depth = s.depth - 1 := by
  have hlength : 0 < s.held.length := by
    have hfull : s.held.length = min s.depth s.cap := h.full
    have hcap := h.cap
    omega
  obtain ⟨b, rest, hheld⟩ := List.exists_cons_of_length_pos hlength
  obtain rfl : b = a := h.held b (hheld ▸ List.mem_cons_self)
  have hpop : ∃ t, s.pop? = some (b, t) ∧ t.depth = s.depth - 1 := by
    unfold ReturnStack.pop?
    rw [hheld]
    exact ⟨_, rfl, rfl⟩
  obtain ⟨t, hpop, hdepth⟩ := hpop
  refine ⟨t, hpop, ⟨h.full.pop hpop, cap_pop hpop ▸ h.cap, fun c hc => ?_⟩, hdepth⟩
  exact h.held c ((mem_of_pop hpop).2 c hc)

end Highlight.ReturnStack
