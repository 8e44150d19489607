import Highlight.Scan.Cursor

/-!
Texts that agree up to the end of a line. Two texts agree up to the rests `u` and `u'` if both go
on with the same bytes until the one has only `u` left and the other only `u'`, where the last of
these bytes is a newline, or where nothing is left of either. A rule that looks ahead within its
line sees the same in both: the next byte, the next visible byte, a run of equal bytes.
-/

namespace Highlight

open Byte

/-- The texts `t` and `t'` read the same up to the rests `u` and `u'`, which begin new lines unless
they are both empty. -/
def Text.Agree (u u' t t' : Text) : Prop :=
  ∃ l : Text, t = l ++ u ∧ t' = l ++ u' ∧ (l.getLast? = some newline ∨ u = [] ∧ u' = [])

theorem Text.getD_tail (t : Text) (n : Nat) : t.tail.getD n 0 = t.getD (n + 1) 0 := by
  cases t <;> simp

/-- The first `n` bytes of the text end no line. -/
def Text.Clear (t : Text) (n : Nat) : Prop := ∀ b ∈ t.take n, b ≠ newline

namespace Text.Clear

variable {t : Text} {n m : Nat}

theorem zero (t : Text) : t.Clear 0 := by simp [Clear]

theorem mono (h : t.Clear n) (hle : m ≤ n) : t.Clear m :=
  fun b hb => h b (List.take_subset_take_left t hle hb)

theorem one (h : t.getD 0 0 ≠ newline) : t.Clear 1 := by
  intro b hb
  cases t with
  | nil => simp at hb
  | cons a t =>
    obtain rfl : b = a := by simpa using hb
    simpa using h

theorem getD_zero (h : t.Clear 1) : t.getD 0 0 ≠ newline := by
  cases t with
  | nil => simp
  | cons b t => simpa using h b (by simp)

theorem drop (h : t.Clear (n + m)) : Clear (t.drop n) m := by
  intro b hb
  rw [List.take_drop] at hb
  exact h b (List.mem_of_mem_drop hb)

theorem add (h : t.Clear n) (h' : Clear (t.drop n) m) : t.Clear (n + m) := by
  intro b hb
  rw [List.take_add, List.mem_append] at hb
  exact hb.elim (h b) (h' b)

end Text.Clear

theorem Text.of_mem_take {kind : Byte → Bool} {t : Text} {b : Byte}
    (h : b ∈ t.take (t.takeWhile kind).length) : kind b = true := by
  rw [← List.prefix_iff_eq_take.1 (List.takeWhile_prefix kind)] at h
  exact List.all_eq_true.1 List.all_takeWhile b h

/-- A run of equal bytes that end no line is clear. -/
theorem Text.clear_run {b : Byte} (hb : b ≠ newline) (t : Text) :
    Clear (b :: t) (t.takeWhile (· == b)).length := by
  intro a ha
  have hmem : a = b := by
    cases hn : (t.takeWhile (· == b)).length with
    | zero => simp [hn] at ha
    | succ n =>
      rw [hn, List.take_succ_cons] at ha
      rcases List.mem_cons.1 ha with rfl | ha
      · rfl
      · have hle : n ≤ (t.takeWhile (· == b)).length := by omega
        simpa using Text.of_mem_take (List.take_subset_take_left t hle ha)
  exact hmem ▸ hb

namespace Text.Agree

variable {u u' t t' : Text}

theorem refl (t : Text) : Agree [] [] t t := ⟨t, by simp, by simp, .inr ⟨rfl, rfl⟩⟩

theorem head?_eq (h : Agree u u' t t') : t.head? = t'.head? := by
  obtain ⟨l, rfl, rfl, hl⟩ := h
  cases l with
  | nil =>
    obtain ⟨rfl, rfl⟩ := hl.resolve_left (by simp)
    rfl
  | cons b l => rfl

theorem isEmpty_eq (h : Agree u u' t t') : t.isEmpty = t'.isEmpty := by
  have isNone_head? : ∀ v : Text, v.head?.isNone = v.isEmpty := by
    intro v
    cases v <;> rfl
  rw [← isNone_head? t, ← isNone_head? t', h.head?_eq]

theorem getD_zero (h : Agree u u' t t') : t.getD 0 0 = t'.getD 0 0 := by
  rw [List.getD_eq_getElem?_getD, List.getD_eq_getElem?_getD, ← List.head?_eq_getElem?,
    ← List.head?_eq_getElem?, h.head?_eq]

/-- Behind a byte that ends no line the texts still agree. -/
theorem tail (h : Agree u u' t t') (hb : t.getD 0 0 ≠ newline) : Agree u u' t.tail t'.tail := by
  obtain ⟨l, rfl, rfl, hl⟩ := h
  cases l with
  | nil =>
    obtain ⟨rfl, rfl⟩ := hl.resolve_left (by simp)
    exact refl []
  | cons b l =>
    refine ⟨l, rfl, rfl, hl.imp_left fun hl => ?_⟩
    cases l with
    | nil => exact absurd (by simpa using hl) (by simpa using hb)
    | cons c l => simpa using hl

/-- Behind a newline the texts still agree, or it was the last byte that they share. -/
theorem tail_newline (h : Agree u u' t t') (hb : t.head? = some newline) :
    Agree u u' t.tail t'.tail ∨ t.tail = u ∧ t'.tail = u' := by
  obtain ⟨l, rfl, rfl, hl⟩ := h
  cases l with
  | nil =>
    obtain ⟨rfl, rfl⟩ := hl.resolve_left (by simp)
    simp at hb
  | cons b l =>
    cases l with
    | nil => exact .inr ⟨rfl, rfl⟩
    | cons c l =>
      exact .inl ⟨c :: l, rfl, rfl, hl.imp_left fun hl => by simpa using hl⟩

theorem drop {n : Nat} (h : Agree u u' t t') (hn : t.Clear n) :
    Agree u u' (t.drop n) (t'.drop n) := by
  induction n generalizing t t' with
  | zero => exact h
  | succ n ih =>
    cases t with
    | nil =>
      have ht : t' = [] := List.isEmpty_iff.1 (h.isEmpty_eq ▸ rfl)
      simpa [ht] using h
    | cons b t =>
      have htail := h.tail (by simpa using hn b (by simp))
      have := ih htail fun a ha => hn a (by simp; exact .inr (by simpa using ha))
      simpa [← List.drop_tail] using this

theorem getD_one (h : Agree u u' t t') (hb : t.getD 0 0 ≠ newline) : t.getD 1 0 = t'.getD 1 0 := by
  rw [← getD_tail, ← getD_tail, (h.tail hb).getD_zero]

theorem getD_two (h : Agree u u' t t') (hb : t.getD 0 0 ≠ newline) (hn : t.getD 1 0 ≠ newline) :
    t.getD 2 0 = t'.getD 2 0 := by
  rw [← getD_tail t, ← getD_tail t', (h.tail hb).getD_one (by rwa [getD_tail])]

/-! ### Stretches of one kind -/

section Stretch

variable {kind : Byte → Bool} (hk : kind newline = false)
include hk

theorem takeWhile_eq (h : Agree u u' t t') : t.takeWhile kind = t'.takeWhile kind := by
  obtain ⟨l, rfl, rfl, hl⟩ := h
  induction l with
  | nil =>
    obtain ⟨rfl, rfl⟩ := hl.resolve_left (by simp)
    rfl
  | cons b l ih =>
    by_cases hb : kind b = true
    · simp only [List.cons_append, List.takeWhile_cons, hb, if_true]
      refine congrArg (b :: ·) (ih (hl.imp_left fun hl => ?_))
      cases l with
      | nil => exact absurd (by simpa using hl) (show b ≠ newline by rintro rfl; simp [hk] at hb)
      | cons c l => simpa using hl
    · simp [hb]

theorem dropWhile (h : Agree u u' t t') : Agree u u' (t.dropWhile kind) (t'.dropWhile kind) := by
  obtain ⟨l, rfl, rfl, hl⟩ := h
  induction l with
  | nil =>
    obtain ⟨rfl, rfl⟩ := hl.resolve_left (by simp)
    exact refl _
  | cons b l ih =>
    by_cases hb : kind b = true
    · simp only [List.cons_append, List.dropWhile_cons, hb, if_true]
      refine ih (hl.imp_left fun hl => ?_)
      cases l with
      | nil => exact absurd (by simpa using hl) (show b ≠ newline by rintro rfl; simp [hk] at hb)
      | cons c l => simpa using hl
    · simp only [List.cons_append, List.dropWhile_cons, hb]
      exact ⟨b :: l, rfl, rfl, hl⟩

end Stretch

/-- The next visible byte of the line is the same. -/
theorem firstVisible_eq (h : Agree u u' t t') :
    Cursor.firstVisible t = Cursor.firstVisible t' := by
  have := (h.dropWhile (show isBlank newline = false by decide)).head?_eq
  unfold Cursor.firstVisible
  revert this
  generalize t.dropWhile isBlank = v
  generalize t'.dropWhile isBlank = v'
  cases v <;> cases v' <;> simp +contextual

end Text.Agree

end Highlight
