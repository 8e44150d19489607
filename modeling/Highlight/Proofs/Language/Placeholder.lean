import Highlight.Language.Placeholder
import Highlight.Proofs.Scan.Agree
import Mathlib.Tactic.SplitIfs

/-!
Format placeholders lie on one line: none goes over its end, and what is read of one does not depend
on what stands behind.
-/

namespace Highlight.Placeholder

open Byte

/-- The length `f` measures bytes of one line, and only they decide it. -/
def Local (f : Text → Nat) : Prop :=
  ∀ {u u' t t' : Text}, Text.Agree u u' t t' → f t = f t' ∧ t.Clear (f t)

variable {closer : Option Byte} {u u' t t' : Text} {n : Nat}

theorem stops_newline (closer : Option Byte) : stops closer newline = true := rfl

theorem byteAt_drop (t : Text) (n i : Nat) :
    byteAt closer (t.drop n) i = byteAt closer t (n + i) := by
  simp [byteAt, List.getD_eq_getElem?_getD]

theorem byteAt_eq (h : Text.Agree u u' t t') (hn : t.Clear n) :
    byteAt closer t n = byteAt closer t' n := by
  rw [show n = n + 0 from rfl, ← byteAt_drop, ← byteAt_drop, byteAt, byteAt, (h.drop hn).getD_zero]

/-- Behind a byte that a placeholder goes over the line goes on. -/
theorem clear_succ (hn : t.Clear n) (hb : byteAt closer t n ≠ 0) : t.Clear (n + 1) := by
  refine hn.add (.one fun h => hb ?_)
  rw [show n = n + 0 from rfl, ← byteAt_drop, byteAt, h, stops_newline, if_pos rfl]

theorem clear_succ_of_eq {b : Byte} (hn : t.Clear n) (hb : byteAt closer t n = b)
    (h₀ : b ≠ 0) : t.Clear (n + 1) := clear_succ hn (hb ▸ h₀)

variable (closer)

theorem lengthOf_local (kind : Byte → Bool) : Local (lengthOf closer kind) := by
  intro u u' t t' h
  have hk : (kind newline && !stops closer newline) = false := by simp [stops_newline]
  refine ⟨congrArg List.length (h.takeWhile_eq hk), fun b hb => ?_⟩
  have := Text.of_mem_take hb
  rintro rfl
  simp [stops_newline] at this

theorem specifierLength_local : Local (specifierLength closer) := by
  intro u u' t t' h
  have h₀ : byteAt closer t 0 = byteAt closer t' 0 := byteAt_eq h (.zero t)
  have hany : (byteAt closer t 0 = lowerA ∧ byteAt closer t 1 = lowerN ∧
      byteAt closer t 2 = lowerY ↔ byteAt closer t' 0 = lowerA ∧ byteAt closer t' 1 = lowerN ∧
      byteAt closer t' 2 = lowerY) ∧
      (byteAt closer t 0 = lowerA ∧ byteAt closer t 1 = lowerN ∧ byteAt closer t 2 = lowerY →
        t.Clear 3) := by
    rw [← h₀]
    by_cases ha : byteAt closer t 0 = lowerA
    · have c₁ : t.Clear 1 := clear_succ_of_eq (.zero t) ha (by decide)
      rw [← byteAt_eq h c₁]
      by_cases hn : byteAt closer t 1 = lowerN
      · have c₂ := clear_succ_of_eq c₁ hn (by decide)
        rw [← byteAt_eq h c₂]
        exact ⟨Iff.rfl, fun hy => clear_succ_of_eq c₂ hy.2.2 (by decide)⟩
      · simp [hn]
    · simp [ha]
  unfold specifierLength
  by_cases hword : byteAt closer t 0 = lowerA ∧ byteAt closer t 1 = lowerN ∧
      byteAt closer t 2 = lowerY
  · rw [if_pos hword, if_pos (hany.1.1 hword)]
    exact ⟨rfl, hany.2 hword⟩
  · rw [if_neg hword, if_neg fun h => hword (hany.1.2 h), ← h₀]
    split_ifs with hletter
    · have hb : byteAt closer t 0 ≠ 0 := by
        intro h
        rw [h] at hletter
        exact absurd hletter (by decide)
      exact ⟨rfl, clear_succ (.zero t) hb⟩
    · exact ⟨rfl, .zero t⟩

theorem argumentLength?_local (h : Text.Agree u u' t t') :
    argumentLength? closer t = argumentLength? closer t' ∧
      ∀ n, argumentLength? closer t = some n → t.Clear n := by
  unfold argumentLength?
  rw [← byteAt_eq h (.zero t)]
  by_cases hb : byteAt closer t 0 = lbracket
  · have c₁ : t.Clear 1 := clear_succ_of_eq (.zero t) hb (by decide)
    obtain ⟨hn, hc⟩ := lengthOf_local closer isNameByte (h.drop c₁)
    have c₂ : t.Clear (lengthOf closer isNameByte (t.drop 1) + 1) := by
      rw [Nat.add_comm]
      exact c₁.add hc
    simp only [if_pos hb, ← hn, ← byteAt_eq h c₁, ← byteAt_eq h c₂]
    split_ifs with hclose
    · refine ⟨trivial, fun n hn => ?_⟩
      obtain rfl := Option.some.inj hn
      exact clear_succ_of_eq c₂ hclose.2 (by decide)
    · exact ⟨trivial, nofun⟩
  · obtain ⟨hn, hc⟩ := lengthOf_local closer isDigit h
    rw [if_neg hb, if_neg hb, ← hn]
    refine ⟨rfl, fun n hn => ?_⟩
    obtain rfl := Option.some.inj hn
    exact hc

theorem fillLength_local : Local (fillLength closer) := by
  intro u u' t t' h
  unfold fillLength
  simp only [← byteAt_eq h (.zero t)]
  by_cases hb : byteAt closer t 0 = 0 ∨ byteAt closer t 0 = lbrace ∨ byteAt closer t 0 = rbrace
  · rw [if_pos hb, if_pos hb]
    exact ⟨rfl, .zero t⟩
  · have c₁ : t.Clear 1 := clear_succ (.zero t) fun h => hb (.inl h)
    obtain ⟨hn, hc⟩ := lengthOf_local closer isContinuation (h.drop c₁)
    rw [if_neg hb, if_neg hb, ← hn]
    split_ifs with hmore
    · refine ⟨rfl, ?_⟩
      rw [Nat.add_comm]
      exact c₁.add (hc.mono hmore)
    · exact ⟨rfl, c₁⟩

omit closer in
theorem ne_zero_of_isAlignment {b : Byte} (h : isAlignment b = true) : b ≠ 0 := by
  rintro rfl
  cases h

theorem alignmentLength_local : Local (alignmentLength closer) := by
  intro u u' t t' h
  obtain ⟨hn, hc⟩ := fillLength_local closer h
  unfold alignmentLength
  simp only [← hn, ← byteAt_eq h hc, ← byteAt_eq h (.zero t)]
  split_ifs with hfill halign
  · exact ⟨trivial, clear_succ hc (ne_zero_of_isAlignment hfill.2)⟩
  · exact ⟨trivial, clear_succ (.zero t) (ne_zero_of_isAlignment halign)⟩
  · exact ⟨trivial, .zero t⟩

theorem precisionLength_local : Local (precisionLength closer) := by
  intro u u' t t' h
  unfold precisionLength
  rw [← byteAt_eq h (.zero t)]
  by_cases hb : byteAt closer t 0 = dot
  · have c₁ : t.Clear 1 := clear_succ_of_eq (.zero t) hb (by decide)
    obtain ⟨hn, hc⟩ := lengthOf_local closer isDigit (h.drop c₁)
    rw [if_pos hb, if_pos hb, ← hn, Nat.add_comm]
    exact ⟨rfl, c₁.add hc⟩
  · rw [if_neg hb, if_neg hb]
    exact ⟨rfl, .zero t⟩

theorem optionsLength_local : Local (optionsLength closer) := by
  intro u u' t t' h
  unfold optionsLength
  rw [← byteAt_eq h (.zero t)]
  by_cases hb : byteAt closer t 0 = colon
  · have c₁ : t.Clear 1 := clear_succ_of_eq (.zero t) hb (by decide)
    obtain ⟨ha, hc₁⟩ := alignmentLength_local closer (h.drop c₁)
    have c₂ := c₁.add hc₁
    obtain ⟨hw, hc₂⟩ := lengthOf_local closer isDigit (h.drop c₂)
    have c₃ := c₂.add hc₂
    obtain ⟨hp, hc₃⟩ := precisionLength_local closer (h.drop c₃)
    simp only [if_pos hb, ← ha, ← hw, ← hp]
    exact ⟨trivial, c₃.add hc₃⟩
  · rw [if_neg hb, if_neg hb]
    exact ⟨rfl, .zero t⟩

/-- **A placeholder lies on one line.** It is found or not whatever stands behind the line, and it
goes over no end of a line. -/
theorem read_local (h : Text.Agree u u' t t') :
    read closer t = read closer t' ∧
      ∀ p, read closer t = some p →
        t.Clear p.length ∧ p.specStart ≤ p.specStop ∧ p.specStop ≤ p.length := by
  cases t with
  | nil =>
    have ht : t' = [] := List.isEmpty_iff.1 (h.isEmpty_eq ▸ rfl)
    rw [ht]
    exact ⟨rfl, nofun⟩
  | cons b t =>
    obtain ⟨t', rfl⟩ : ∃ v, t' = b :: v := by
      have := h.head?_eq
      cases t' <;> simp_all
    unfold read
    by_cases hb : b = lbrace
    · have c₀ : Text.Clear (b :: t) 1 := .one (by simp [hb])
      have htail : Text.Agree u u' t t' := h.drop c₀
      obtain ⟨ha, hc₁⟩ := argumentLength?_local closer htail
      simp only [if_pos hb, ← ha]
      cases hargument : argumentLength? closer t with
      | none => exact ⟨rfl, nofun⟩
      | some argument =>
        have c₁ := hc₁ argument hargument
        obtain ⟨hs, hc₂⟩ := specifierLength_local closer (htail.drop c₁)
        have c₂ := c₁.add hc₂
        have h₃ := htail.drop c₂
        obtain ⟨ho, hc₃⟩ := optionsLength_local closer h₃
        simp only [Option.bind_eq_bind, Option.bind_some, ← hs, ← ho, ← byteAt_eq h₃ hc₃,
          ← byteAt_eq h₃ (.zero _)]
        split_ifs with hspec hclose
        · exact ⟨trivial, nofun⟩
        · refine ⟨trivial, fun p hp => ?_⟩
          obtain rfl := Option.some.inj hp
          have c₃ := clear_succ_of_eq hc₃ hclose (by decide)
          refine ⟨?_, by simp, by simp; omega⟩
          have := c₀.add (c₂.add c₃)
          refine this.mono ?_
          simp only
          omega
        · exact ⟨trivial, nofun⟩
    · simp only [if_neg hb]
      exact ⟨trivial, nofun⟩

/-- The opening brace stands before the specifier. -/
theorem specStart_pos {p : Placeholder} (h : read closer t = some p) : 0 < p.specStart := by
  unfold read at h
  cases t with
  | nil => cases h
  | cons b t =>
    simp only at h
    split at h
    case isFalse => cases h
    case isTrue =>
      obtain ⟨argument, -, h⟩ := Option.bind_eq_some_iff.1 h
      split_ifs at h
      obtain rfl := Option.some.inj h
      exact Nat.succ_pos argument

/-! ### Parts -/

theorem getD_of_byteAt {b : Byte} (h : byteAt closer t n = b) (hb : b ≠ 0) : t.getD n 0 = b := by
  unfold byteAt at h
  simp only at h
  split at h
  · exact absurd h.symm hb
  · exact h

/-- A specifier begins with a letter or a sign of ASCII. -/
theorem ascii_of_specifierLength (h : 0 < specifierLength closer t) : t.getD 0 0 < 0x80 := by
  have hspecifiers : ∀ b ∈ specifiers, b ≠ 0 ∧ b < 0x80 := by decide +kernel
  unfold specifierLength at h
  split_ifs at h with hany hone
  · rw [getD_of_byteAt closer hany.1 (by decide)]
    decide
  · obtain ⟨hne, hascii⟩ := hspecifiers _ hone
    rwa [getD_of_byteAt closer rfl hne]
  · exact absurd h (Nat.lt_irrefl 0)

/-- **The parts of a placeholder** lie behind one another. Those that are not empty begin with a
byte of ASCII, and the last one ends with the closing brace. -/
theorem read_parts {p : Placeholder} (h : read closer t = some p) :
    p.specStart ≤ p.specStop ∧ p.specStop < p.length ∧ t.getD (p.length - 1) 0 = rbrace ∧
      (p.specStart < p.specStop →
        t.getD p.specStart 0 < 0x80 ∧ t.getD p.specStop 0 < 0x80) := by
  unfold read at h
  cases t with
  | nil => cases h
  | cons b t =>
    simp only at h
    split at h
    case isFalse => cases h
    case isTrue =>
      obtain ⟨argument, -, h⟩ := Option.bind_eq_some_iff.1 h
      split_ifs at h with hspec hclose
      obtain rfl := Option.some.inj h
      have hdrop : ∀ i j : Nat, (b :: t).getD (i + j + 1) 0 = (t.drop i).getD j 0 := by
        intro i j
        simp [List.getD_eq_getElem?_getD]
      generalize hn : specifierLength closer (t.drop argument) = n at hspec hclose ⊢
      generalize hl : optionsLength closer (t.drop (argument + n)) = l at hclose ⊢
      have hstart : argument + 1 ≤ argument + n + 1 := by omega
      have hstop : argument + n + 1 < argument + n + l + 2 := by omega
      refine ⟨hstart, hstop, ?_, fun hlt => ?_⟩
      · change (b :: t).getD (argument + n + l + 1) 0 = rbrace
        rw [hdrop (argument + n) l]
        exact getD_of_byteAt closer hclose (by decide)
      · have hpos : 0 < n := by
          change argument + 1 < argument + n + 1 at hlt
          omega
        refine ⟨?_, ?_⟩
        · exact (hdrop argument 0).symm ▸ ascii_of_specifierLength closer (hn ▸ hpos)
        · -- behind the specifier stands a colon or the closing brace
          have hafter : byteAt closer (t.drop (argument + n)) 0 = colon ∨
              byteAt closer (t.drop (argument + n)) 0 = rbrace := by
            by_cases hcolon : byteAt closer (t.drop (argument + n)) 0 = colon
            · exact .inl hcolon
            · exact .inr (Decidable.of_not_not fun hne => hspec ⟨hpos, hcolon, hne⟩)
          change (b :: t).getD (argument + n + 0 + 1) 0 < 0x80
          rw [hdrop (argument + n) 0]
          rcases hafter with h | h <;> rw [getD_of_byteAt closer h (by decide)] <;> decide

end Highlight.Placeholder
