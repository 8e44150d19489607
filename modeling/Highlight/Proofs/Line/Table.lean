import Highlight.Line.Table

/-!
Where lines begin. Every line but the first begins just behind a newline, behind as many of them as
its number says (`LineTable.split_of_start?`), and every place behind a newline is the beginning of
that line (`LineTable.start?_of_split`).
-/

namespace Highlight

open Byte

namespace LineTable

variable {text : Text} {n i o : Nat}

/-- The beginnings of the lines of a text but the first, if the text begins at the offset `k`. -/
def behindNewlines (text : Text) (k : Nat) : List Nat :=
  (text.zipIdx k).filterMap fun p => if p.1 = newline then some (p.2 + 1) else none

theorem behindNewlines_cons (b : Byte) (t : Text) (k : Nat) :
    behindNewlines (b :: t) k =
      if b = newline then (k + 1) :: behindNewlines t (k + 1) else behindNewlines t (k + 1) := by
  unfold behindNewlines
  by_cases h : b = newline <;> simp [h]

theorem start?_zero (text : Text) : (ofText text).start? 0 = some 0 := by
  simp [start?, ofText]

theorem start?_succ (text : Text) (n : Nat) :
    (ofText text).start? (n + 1) = (behindNewlines text 0)[n]? := by
  simp [start?, ofText, behindNewlines]

theorem length_behindNewlines (text : Text) (k : Nat) :
    (behindNewlines text k).length = text.count newline := by
  induction text generalizing k with
  | nil => rfl
  | cons b t ih =>
    rw [behindNewlines_cons, List.count_cons]
    by_cases h : b = newline <;> simp [h, ih]

/-- A text has one line more than newlines. -/
theorem count_ofText (text : Text) : (ofText text).count = text.count newline + 1 := by
  have h : (ofText text).starts = (0 :: behindNewlines text 0).toArray := rfl
  rw [count, h, List.size_toArray, List.length_cons, length_behindNewlines]

theorem split_of_getElem? {k : Nat} (h : (behindNewlines text k)[n]? = some o) :
    ∃ a u, text = a ++ u ∧ o = k + a.length ∧ a.getLast? = some newline ∧
      a.count newline = n + 1 := by
  induction text generalizing k n with
  | nil => simp [behindNewlines] at h
  | cons b t ih =>
    rw [behindNewlines_cons] at h
    by_cases hb : b = newline
    · subst hb
      rw [if_pos rfl] at h
      cases n with
      | zero => exact ⟨[newline], t, rfl, by simpa using h.symm, rfl, rfl⟩
      | succ n =>
        obtain ⟨a, u, rfl, rfl, hl, hc⟩ := ih (by simpa using h)
        refine ⟨newline :: a, u, rfl, by simp; omega, by simp [List.getLast?_cons, hl], ?_⟩
        rw [List.count_cons_self, hc]
    · rw [if_neg hb] at h
      obtain ⟨a, u, rfl, rfl, hl, hc⟩ := ih h
      refine ⟨b :: a, u, rfl, by simp; omega, by simp [List.getLast?_cons, hl], ?_⟩
      rw [List.count_cons_of_ne hb, hc]

theorem getElem?_of_split {a u : Text} {k : Nat} (hl : a.getLast? = some newline) :
    (behindNewlines (a ++ u) k)[a.count newline - 1]? = some (k + a.length) := by
  induction a generalizing k with
  | nil => simp at hl
  | cons b a ih =>
    rw [List.cons_append, behindNewlines_cons]
    by_cases ha : a = []
    · subst ha
      have hb : b = newline := by simpa using hl
      simp [hb]
    · have hl' : a.getLast? = some newline := by
        rwa [List.getLast?_cons_of_ne_nil ha] at hl
      have hpos : 0 < a.count newline := List.count_pos_iff.2 (List.mem_of_getLast? hl')
      by_cases hb : b = newline
      · rw [if_pos hb, hb, List.count_cons_self, Nat.add_sub_cancel,
          ← Nat.sub_add_cancel hpos, List.getElem?_cons_succ, ih hl', List.length_cons]
        congr 1
        omega
      · rw [if_neg hb, List.count_cons_of_ne hb, ih hl', List.length_cons]
        congr 1
        omega

/-- A line but the first begins just behind a newline. -/
theorem split_of_start? (h : (ofText text).start? (n + 1) = some o) :
    ∃ a u, text = a ++ u ∧ o = a.length ∧ a.getLast? = some newline ∧ a.count newline = n + 1 := by
  rw [start?_succ] at h
  simpa using split_of_getElem? h

/-- Just behind a newline a line begins. -/
theorem start?_of_split {a u : Text} (hl : a.getLast? = some newline) :
    (ofText (a ++ u)).start? (a.count newline) = some a.length := by
  have hpos : 0 < a.count newline := List.count_pos_iff.2 (List.mem_of_getLast? hl)
  rw [← Nat.sub_add_cancel hpos, start?_succ, getElem?_of_split hl, Nat.zero_add]

theorem isSome_start? (h : n < (ofText text).count) : ∃ o, (ofText text).start? n = some o :=
  ⟨_, Array.getElem?_eq_getElem h⟩

/-- What is behind the beginning of a line ends with a newline, if there is anything. -/
theorem take_start? (h : (ofText text).start? n = some o) :
    (text.take o).count newline = n ∧ o ≤ text.length ∧
      (n = 0 ∧ o = 0 ∨ (text.take o).getLast? = some newline) := by
  cases n with
  | zero =>
    obtain rfl : 0 = o := by simpa [start?_zero] using h
    simp
  | succ n =>
    obtain ⟨a, u, rfl, rfl, hl, hc⟩ := split_of_start? h
    rw [List.take_left' rfl]
    exact ⟨hc, by simp, .inr hl⟩

/-- Lines begin in order. -/
theorem start?_le {o' : Nat} (h : (ofText text).start? i = some o)
    (h' : (ofText text).start? n = some o') (hle : i ≤ n) : o ≤ o' := by
  obtain ⟨hc, ho, hl⟩ := take_start? h
  obtain ⟨hc', ho', -⟩ := take_start? h'
  refine Nat.le_of_not_lt fun hlt => ?_
  have hpre : text.take o' <+: text.take o := List.take_prefix_take_left (by omega)
  obtain ⟨w, hw⟩ := hpre
  have hcount : (text.take o).count newline = n + w.count newline := by
    rw [← hw, List.count_append, hc']
  have hw₀ : w.count newline = 0 := by omega
  rcases hl with ⟨-, rfl⟩ | hl
  · omega
  · have hne : w ≠ [] := by
      rintro rfl
      have := congrArg List.length hw
      simp at this
      omega
    have hmem : newline ∈ w := by
      rw [← hw, List.getLast?_append, List.getLast?_eq_some_getLast hne, Option.some_or] at hl
      exact Option.some.inj hl ▸ List.getLast_mem hne
    exact absurd (List.count_pos_iff.2 hmem) (by omega)

/-- Where a line stops the next one begins, or the text ends. -/
theorem stop?_eq (h : (ofText text).start? n = some o) :
    (ofText text).stop? n = some (((ofText text).start? (n + 1)).getD text.length) := by
  have hn : n < (ofText text).count := (Array.getElem?_eq_some_iff.1 h).1
  rw [stop?, if_pos hn, Array.getD_eq_getD_getElem?]
  rfl

end LineTable

/-- The bytes of a line, with its newline. -/
def Text.line? (text : Text) (n : Nat) : Option Text :=
  match (LineTable.ofText text).start? n, (LineTable.ofText text).stop? n with
  | some start, some stop => some ((text.take stop).drop start)
  | _, _ => none

/-- The text is a single line: it ends with its only newline, or it has none. -/
def Text.IsLine (l : Text) : Prop :=
  l.getLast? = some newline ∧ l.count newline = 1 ∨ l.count newline = 0

/-- A line in its text. If it is not closed by a newline it is the last one. -/
theorem Text.split_of_line? {text l : Text} {n o : Nat}
    (ho : (LineTable.ofText text).start? n = some o) (hl : text.line? n = some l) :
    ∃ u, text = text.take o ++ (l ++ u) ∧ l.IsLine ∧ (l.count newline = 0 → u = []) := by
  obtain ⟨hcount, hle, -⟩ := LineTable.take_start? ho
  rw [line?, ho, LineTable.stop?_eq ho] at hl
  have hsplit : ∀ {stop : Nat}, o ≤ stop →
      text = text.take o ++ ((text.take stop).drop o ++ text.drop stop) := by
    intro stop hstop
    have htake : (text.take stop).take o = text.take o := by
      rw [List.take_take, Nat.min_eq_left hstop]
    rw [← List.append_assoc, ← htake, List.take_append_drop, List.take_append_drop]
  cases hnext : (LineTable.ofText text).start? (n + 1) with
  | some stop =>
    obtain ⟨hcount', hle', hlast⟩ := LineTable.take_start? hnext
    have hstop := LineTable.start?_le ho hnext (Nat.le_succ n)
    obtain rfl : (text.take stop).drop o = l := by simpa [hnext] using hl
    have hone : ((text.take stop).drop o).count newline = 1 := by
      have hall := congrArg (List.count newline) (List.take_append_drop o (text.take stop))
      rw [List.count_append, List.take_take, Nat.min_eq_left hstop, hcount, hcount'] at hall
      omega
    refine ⟨_, hsplit hstop, .inl ⟨?_, hone⟩, by omega⟩
    have hne : (text.take stop).drop o ≠ [] := by
      intro h
      simp [h] at hone
    rw [← hlast.resolve_left (by omega), List.getLast?_drop, if_neg]
    simpa using hne
  | none =>
    have hall := congrArg (List.count newline) (List.take_append_drop o text)
    have hlines : text.count newline ≤ n := by
      have := Array.getElem?_eq_none_iff.1 hnext
      have hc := LineTable.count_ofText text
      unfold LineTable.count at hc
      omega
    obtain rfl : text.drop o = l := by simpa [hnext] using hl
    rw [List.count_append, hcount] at hall
    refine ⟨[], by simp, .inr (by omega), fun _ => rfl⟩

end Highlight
