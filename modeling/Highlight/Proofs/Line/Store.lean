import Highlight.Scan.Outcome

/-!
What is kept of lines. A line state survives its word but for the bits that have no meaning, and
writing down the lines that a scan has ended leaves the states of these lines and of no other.
-/

namespace Highlight

namespace LineFlags

theorem ofByte_toByte (f : LineFlags) : ofByte f.toByte = f := by
  obtain ⟨a, b, c, d, e, h, i, j⟩ := f
  revert a b c d e h i j
  decide

end LineFlags

namespace LineState

theorem toNat_encode (s : LineState) :
    s.encode.toNat = s.flags.toByte.toNat + 256 * s.depth.toNat + 65536 * s.indent.toNat := by
  have h₁ := s.flags.toByte.toNat_lt
  have h₂ := s.depth.toNat_lt
  have h₃ := s.indent.toNat_lt
  rw [encode, UInt32.toNat_ofNat', Nat.mod_eq_of_lt (by omega)]

/-- A state is read back from its word, but for the flag bits that have no meaning. -/
theorem decode_encode (s : LineState) :
    decode s.encode = { s with flags := s.flags.known } := by
  have h₁ := s.flags.toByte.toNat_lt
  have h₂ := s.depth.toNat_lt
  have h₃ := s.indent.toNat_lt
  have hflags : UInt8.ofNat s.encode.toNat = s.flags.toByte := by
    apply UInt8.toNat_inj.1
    rw [toNat_encode, UInt8.toNat_ofNat']
    omega
  have hdepth : UInt8.ofNat (s.encode.toNat / 256) = s.depth := by
    apply UInt8.toNat_inj.1
    rw [toNat_encode, UInt8.toNat_ofNat']
    omega
  have hindent : UInt16.ofNat (s.encode.toNat / 65536) = s.indent := by
    apply UInt16.toNat_inj.1
    rw [toNat_encode, UInt16.toNat_ofNat']
    omega
  rw [decode, hflags, hdepth, hindent, LineFlags.ofByte_toByte]

end LineState

namespace LineStore

/-- A line that was never written has no flags. -/
theorem state_of_size_le {s : LineStore} {i : Nat} (h : s.size ≤ i) : s.state i = {} := by
  have hword : s.word i = 0 := by simp [word, h]
  rw [state, hword]
  decide

theorem word_take {s : LineStore} {n i : Nat} (h : i < n) :
    LineStore.word (s.take n) i = s.word i := by
  simp only [word, Array.getD_eq_getD_getElem?]
  grind

theorem size_take (s : LineStore) (n : Nat) : Array.size (s.take n) = min n s.size := by simp

theorem size_record (s : LineStore) (line : Nat) (w : UInt32) :
    (s.record line w).size = max s.size (line + 1) := by
  unfold record
  split
  · rw [Array.size_setIfInBounds]
    omega
  · rw [Array.size_push, Array.size_append, Array.size_replicate]
    omega

/-! ### The lines of a scan -/

variable {s : LineStore} {ended : List (Nat × LineState)} {i : Nat}

theorem recordAll_cons (s : LineStore) (p : Nat × LineState) (ended : List (Nat × LineState)) :
    s.recordAll (p :: ended) = (s.recordAll ended).record p.1 p.2.encode := rfl

/-- A line that was not ended keeps its word. -/
theorem word_recordAll_of_notMem (h : i ∉ ended.map Prod.fst) :
    (s.recordAll ended).word i = s.word i := by
  induction ended with
  | nil => rfl
  | cons p ended ih =>
    rw [List.map_cons, List.mem_cons, not_or] at h
    rw [recordAll_cons, word_record, if_neg h.1, ih h.2]

/-- A line that was ended once has the word of its state. -/
theorem word_recordAll {st : LineState} (hd : (ended.map Prod.fst).Nodup) (h : (i, st) ∈ ended) :
    (s.recordAll ended).word i = st.encode := by
  induction ended with
  | nil => simp at h
  | cons p ended ih =>
    rw [List.map_cons, List.nodup_cons] at hd
    rw [recordAll_cons, word_record]
    rcases List.mem_cons.1 h with rfl | h
    · rw [if_pos rfl]
    · have hne : i ≠ p.1 := by
        rintro rfl
        exact hd.1 (List.mem_map.2 ⟨_, h, rfl⟩)
      rw [if_neg hne, ih hd.2 h]

/-- What is recorded does not depend on what the store held for these lines. -/
theorem word_recordAll_congr {t : LineStore} (h : i ∈ ended.map Prod.fst) :
    (s.recordAll ended).word i = (t.recordAll ended).word i := by
  induction ended with
  | nil => simp at h
  | cons p ended ih =>
    rw [recordAll_cons, recordAll_cons, word_record, word_record]
    by_cases hi : i = p.1
    · rw [if_pos hi, if_pos hi]
    · rw [if_neg hi, if_neg hi]
      exact ih ((List.mem_cons.1 h).resolve_left hi)

theorem size_le_recordAll (s : LineStore) (ended : List (Nat × LineState)) :
    s.size ≤ (s.recordAll ended).size := by
  induction ended with
  | nil => exact Nat.le_refl _
  | cons p ended ih =>
    rw [recordAll_cons, size_record]
    omega

theorem lt_size_recordAll (h : i ∈ ended.map Prod.fst) : i < (s.recordAll ended).size := by
  induction ended with
  | nil => simp at h
  | cons p ended ih =>
    rw [recordAll_cons, size_record]
    rcases List.mem_cons.1 h with rfl | h
    · omega
    · have := ih h
      omega

theorem size_recordAll_le {m : Nat} (hs : s.size ≤ m) (h : ∀ i ∈ ended.map Prod.fst, i < m) :
    (s.recordAll ended).size ≤ m := by
  induction ended with
  | nil => exact hs
  | cons p ended ih =>
    have hp := h p.1 (by simp)
    have hle := ih fun i hi => h i (List.mem_cons_of_mem _ hi)
    rw [recordAll_cons, size_record]
    omega

end LineStore

end Highlight
