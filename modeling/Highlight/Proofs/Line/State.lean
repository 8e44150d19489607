import Highlight.Proofs.Line.Store
import Mathlib.Tactic.IntervalCases

/-!
The word of a line. Its bits fall into three ranges, and each range holds one field of the line
state (`LineState.PackedIn`). So a field is read back from its own range, whatever the others hold:
two states have the same word only if they are the same, and what is lost on the way through a word
is only what the fields have no room for and the two flag bits that have no meaning
(`LineState.survives_word`).
-/

namespace Highlight

/-- Two numbers of `n` bits are the same if these bits are. -/
theorem eq_of_testBit_lt {a b n : Nat} (ha : a < 2 ^ n) (hb : b < 2 ^ n)
    (h : ∀ i < n, a.testBit i = b.testBit i) : a = b := by
  apply Nat.eq_of_testBit_eq
  intro i
  by_cases hi : i < n
  · exact h i hi
  · have hle : 2 ^ n ≤ 2 ^ i := Nat.pow_le_pow_right (by decide) (Nat.le_of_not_lt hi)
    rw [Nat.testBit_lt_two_pow (Nat.lt_of_lt_of_le ha hle),
      Nat.testBit_lt_two_pow (Nat.lt_of_lt_of_le hb hle)]

/-! ### The byte of the flags -/

namespace LineFlags

/-- The flags in the order of their bits, the lowest first. -/
def bits (f : LineFlags) : List Bool :=
  [f.blank, f.comment, f.string, f.nested, f.closer, f.heading, f.spareLow, f.spareHigh]

/-- Every flag has a bit of its own. -/
theorem testBit_toByte (f : LineFlags) {i : Nat} (hi : i < 8) :
    f.toByte.toNat.testBit i = f.bits.getD i false := by
  obtain ⟨a, b, c, d, e, h, j, k⟩ := f
  revert a b c d e h j k
  interval_cases i <;> decide

/-- Every byte is the byte of the flags that are read from it. -/
theorem toByte_ofByte (b : UInt8) : (ofByte b).toByte = b := by
  apply UInt8.toNat_inj.1
  apply eq_of_testBit_lt (ofByte b).toByte.toNat_lt b.toNat_lt
  intro i hi
  rw [testBit_toByte _ hi]
  interval_cases i <;> rfl

/-- The bits that have no meaning are the two highest ones. -/
theorem toByte_known (f : LineFlags) : f.known.toByte = f.toByte &&& 0x3F := by
  obtain ⟨a, b, c, d, e, h, j, k⟩ := f
  revert a b c d e h j k
  decide

end LineFlags

namespace LineState

/-! ### The ranges of the word -/

/-- The word holds the fields of the state in ranges of its bits: the flags in the lowest eight,
the depth in the next eight, and the indent in the upper sixteen. -/
structure PackedIn (s : LineState) (w : UInt32) : Prop where
  flags : ∀ i < 8, w.toNat.testBit i = s.flags.toByte.toNat.testBit i
  depth : ∀ i < 8, w.toNat.testBit (8 + i) = s.depth.toNat.testBit i
  indent : ∀ i < 16, w.toNat.testBit (16 + i) = s.indent.toNat.testBit i

/-- The ranges are all of the word: a state is held by one word only. -/
theorem PackedIn.word_unique {s : LineState} {v w : UInt32} (hv : s.PackedIn v)
    (hw : s.PackedIn w) : v = w := by
  apply UInt32.toNat_inj.1
  apply eq_of_testBit_lt v.toNat_lt w.toNat_lt
  intro i hi
  rcases Nat.lt_or_ge i 8 with hflags | hi
  · rw [hv.flags i hflags, hw.flags i hflags]
  obtain ⟨j, rfl⟩ := Nat.exists_eq_add_of_le hi
  rcases Nat.lt_or_ge j 8 with hdepth | hj
  · rw [hv.depth j hdepth, hw.depth j hdepth]
  obtain ⟨k, rfl⟩ := Nat.exists_eq_add_of_le hj
  rw [← Nat.add_assoc, hv.indent k (by omega), hw.indent k (by omega)]

/-- The ranges hold all of the state: a word holds one state only. -/
theorem PackedIn.unique {s t : LineState} {w : UInt32} (hs : s.PackedIn w) (ht : t.PackedIn w) :
    s = t := by
  have hflags : s.flags.toByte = t.flags.toByte := by
    apply UInt8.toNat_inj.1
    apply eq_of_testBit_lt s.flags.toByte.toNat_lt t.flags.toByte.toNat_lt
    exact fun i hi => (hs.flags i hi).symm.trans (ht.flags i hi)
  have hdepth : s.depth = t.depth := by
    apply UInt8.toNat_inj.1
    apply eq_of_testBit_lt s.depth.toNat_lt t.depth.toNat_lt
    exact fun i hi => (hs.depth i hi).symm.trans (ht.depth i hi)
  have hindent : s.indent = t.indent := by
    apply UInt16.toNat_inj.1
    apply eq_of_testBit_lt s.indent.toNat_lt t.indent.toNat_lt
    exact fun i hi => (hs.indent i hi).symm.trans (ht.indent i hi)
  have hsame : s.flags = t.flags := by
    rw [← LineFlags.ofByte_toByte s.flags, hflags, LineFlags.ofByte_toByte]
  obtain ⟨f, d, n⟩ := s
  simp only at hsame hdepth hindent
  rw [hsame, hdepth, hindent]

/-! ### There and back -/

theorem packedIn_encode (s : LineState) : s.PackedIn s.encode := by
  have hflags := s.flags.toByte.toNat_lt
  have hdepth := s.depth.toNat_lt
  have hlow : 2 ^ 8 * s.depth.toNat + s.flags.toByte.toNat < 2 ^ 16 := by omega
  have hword : s.encode.toNat =
      2 ^ 16 * s.indent.toNat + (2 ^ 8 * s.depth.toNat + s.flags.toByte.toNat) := by
    rw [toNat_encode]
    omega
  refine ⟨fun i hi => ?_, fun i hi => ?_, fun i hi => ?_⟩ <;>
    rw [hword, Nat.testBit_two_pow_mul_add _ hlow]
  · rw [if_pos (by omega), Nat.testBit_two_pow_mul_add _ hflags, if_pos hi]
  · rw [if_pos (by omega), Nat.testBit_two_pow_mul_add _ hflags, if_neg (by omega),
      Nat.add_sub_cancel_left]
  · rw [if_neg (by omega), Nat.add_sub_cancel_left]

/-- A word is read range by range; only the two flag bits that have no meaning are left out. -/
theorem packedIn_decode (w : UInt32) : (decode w).PackedIn (w &&& ~~~0xC0) := by
  have hmask : ∀ i < 32, (~~~0xC0 : UInt32).toNat.testBit i = (i != 6 && i != 7) := by decide
  refine ⟨fun i hi => ?_, fun i hi => ?_, fun i hi => ?_⟩ <;>
    rw [UInt32.toNat_and, Nat.testBit_and, hmask _ (by omega)]
  · have hbyte : (decode w).flags.toByte = UInt8.ofNat w.toNat &&& 0x3F := by
      rw [decode, LineFlags.toByte_known, LineFlags.toByte_ofByte]
    have hknown : ∀ i < 8, (0x3F : UInt8).toNat.testBit i = (i != 6 && i != 7) := by decide
    rw [hbyte, UInt8.toNat_and, Nat.testBit_and, hknown i hi, UInt8.toNat_ofNat',
      Nat.testBit_mod_two_pow, decide_eq_true hi, Bool.true_and]
  · have hdepth : (decode w).depth.toNat = w.toNat / 2 ^ 8 % 2 ^ 8 := UInt8.toNat_ofNat'
    have hmeant : (8 + i != 6 && 8 + i != 7) = true := by
      simp only [Bool.and_eq_true, bne_iff_ne]
      omega
    rw [hdepth, hmeant, Nat.testBit_mod_two_pow, Nat.testBit_div_two_pow, decide_eq_true hi,
      Bool.true_and, Bool.and_true, Nat.add_comm]
  · have hindent : (decode w).indent.toNat = w.toNat / 2 ^ 16 % 2 ^ 16 := UInt16.toNat_ofNat'
    have hmeant : (16 + i != 6 && 16 + i != 7) = true := by
      simp only [Bool.and_eq_true, bne_iff_ne]
      omega
    rw [hindent, hmeant, Nat.testBit_mod_two_pow, Nat.testBit_div_two_pow, decide_eq_true hi,
      Bool.true_and, Bool.and_true, Nat.add_comm]

/-- A word is written again as it was read. -/
theorem encode_decode (w : UInt32) : (decode w).encode = w &&& ~~~0xC0 :=
  (packedIn_encode _).word_unique (packedIn_decode w)

theorem encode_injective : Function.Injective encode := by
  intro s t h
  have ht := t.packedIn_encode
  rw [← h] at ht
  exact s.packedIn_encode.unique ht

/-- A state holds as much of the depth and of the indent as it can. -/
theorem toNat_of (f : LineFlags) (depth indent : Nat) :
    (of f depth indent).depth.toNat = min depth 255 ∧
      (of f depth indent).indent.toNat = min indent 65535 := by
  constructor
  · rw [of, maxDepth, UInt8.toNat_ofNat']
    omega
  · rw [of, maxIndent, UInt16.toNat_ofNat']
    omega

/-- **A line state survives its word.** Whatever flag byte, depth and indent a state was made of, it
is read back with the flags that have a meaning, and with the depth and the indent cut to what the
word has room for. Each field has a range of bits of its own, so that different states have
different words; and a word that is read and written again loses two flag bits and nothing else. -/
theorem survives_word :
    (∀ (flags : UInt8) (depth indent : Nat),
      let s := of (LineFlags.ofByte flags) depth indent
      s.flags.toByte = flags ∧ (decode s.encode).flags.toByte = flags &&& 0x3F ∧
        (decode s.encode).depth.toNat = min depth 255 ∧
        (decode s.encode).indent.toNat = min indent 65535) ∧
    (∀ s : LineState, s.PackedIn s.encode) ∧
    (∀ s t : LineState, s.encode = t.encode ↔ s = t) ∧
    ∀ w : UInt32, (decode w).encode = w &&& ~~~0xC0 := by
  refine ⟨fun flags depth indent => ?_, packedIn_encode, fun s t => encode_injective.eq_iff,
    encode_decode⟩
  intro s
  have hbyte : s.flags.toByte = flags := LineFlags.toByte_ofByte flags
  obtain ⟨hdepth, hindent⟩ := toNat_of (LineFlags.ofByte flags) depth indent
  rw [decode_encode]
  refine ⟨hbyte, ?_, hdepth, hindent⟩
  rw [LineFlags.toByte_known, hbyte]

end LineState

end Highlight
