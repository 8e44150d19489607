import Highlight.Byte
import Mathlib.Data.List.Chain
import Mathlib.Tactic.SplitIfs

/-!
Characters in the bytes of a string. A byte of ASCII is a character by itself. Any other character
has a first byte, which can be told from those that continue it, so that the bytes themselves say
where a string may be cut (`Text.isValid_iff`). Behind a first byte it may be cut just if that byte
is one of ASCII (`Text.between_succ_iff`).
-/

namespace Highlight

open Byte

namespace Byte

theorem first_of_ascii {b : Byte} (h : b < 0x80) : b.IsUTF8FirstByte := by
  have key : ∀ n < 128, UInt8.ofNat n &&& 0x80 = 0 := by decide
  have hb := key b.toNat h
  rw [UInt8.ofNat_toNat] at hb
  exact .inl hb

/-- A name begins at every byte outside ASCII. -/
theorem ascii_of_not_isNameStart {b : Byte} (h : isNameStart b ≠ true) : b < 0x80 := by
  refine UInt8.not_le.1 fun hb => h ?_
  rw [isNameStart, decide_eq_true hb, Bool.or_true]

theorem ascii_of_not_isNameByte {b : Byte} (h : isNameByte b ≠ true) : b < 0x80 := by
  refine ascii_of_not_isNameStart fun hb => h ?_
  rw [isNameByte, hb, Bool.true_or]

/-- A number goes on over every byte outside ASCII. -/
theorem ascii_of_not_continuesNumber {a b next : Byte} (h : continuesNumber a b next ≠ true) :
    b < 0x80 := by
  refine ascii_of_not_isNameByte fun hb => h ?_
  rw [continuesNumber, hb, Bool.true_or, Bool.true_or]

theorem ascii_of_isSpace {b : Byte} (h : isSpace b = true) : b < 0x80 := by
  simp only [isSpace, isBlank, isLineEnd, Bool.or_eq_true, beq_iff_eq] at h
  grind

theorem ascii_of_isAlpha {b : Byte} (h : isAlpha b = true) : b < 0x80 := by
  simp only [isAlpha, isLower, isUpper, Bool.or_eq_true, Bool.and_eq_true, decide_eq_true_eq] at h
  grind

theorem ascii_of_isHexDigit {b : Byte} (h : isHexDigit b = true) : b < 0x80 := by
  simp only [isHexDigit, isDigit, Bool.or_eq_true, Bool.and_eq_true, decide_eq_true_eq] at h
  grind

end Byte

theorem ByteClass.ascii_of_ne_nameStart {b : Byte} (h : of b ≠ .nameStart) : b < 0x80 := by
  unfold of at h
  split_ifs at h with hend hspace hdigit hname hgraphic
  · exact ascii_of_isSpace (by rw [isSpace, hend, Bool.or_true, Bool.true_or, Bool.true_or])
  · exact ascii_of_isSpace hspace
  · exact ascii_of_isHexDigit (by rw [isHexDigit, hdigit, Bool.true_or, Bool.true_or])
  · exact absurd rfl h
  · exact ascii_of_not_isNameStart hname
  · exact ascii_of_not_isNameStart hname

namespace Text

/-- The offset lies between two characters of the text, or at one of its ends. -/
def Between (t : Text) (i : Nat) : Prop := ∀ b, t[i]? = some b → b.IsUTF8FirstByte

theorem between_of_length_le {t : Text} {i : Nat} (h : t.length ≤ i) : t.Between i := by
  intro b hb
  rw [List.getElem?_eq_none h] at hb
  cases hb

/-! ### The bytes of a string -/

theorem toList_eq (bs : ByteArray) : bs.toList = bs.data.toList := by
  have key : ∀ i r, ByteArray.toList.loop bs i r = r.reverse ++ bs.data.toList.drop i := by
    intro i r
    fun_induction ByteArray.toList.loop bs i r with
    | case1 i r hlt ih =>
      have hlen : i < bs.data.toList.length := by simpa using hlt
      have hget : bs.get! i = bs.data[i]! := by cases bs; rfl
      rw [ih, List.drop_eq_getElem_cons (i := i) hlen, hget, getElem!_pos bs.data i hlt]
      simp
    | case2 i r hle =>
      rw [List.drop_eq_nil_of_le (by simpa using Nat.le_of_not_lt hle)]
      simp
  rw [ByteArray.toList, key]
  simp

/-- The bytes of a string are those of its characters. -/
theorem ofString_eq (s : String) : ofString s = s.toList.flatMap String.utf8EncodeChar := by
  conv => lhs; rw [← String.ofList_toList (s := s)]
  rw [ofString, String.toUTF8, String.toByteArray_ofList, List.utf8Encode, toList_eq,
    List.toList_data_toByteArray]

/-- **Where a string may be cut.** -/
theorem isValid_iff (s : String) (i : Nat) : String.Pos.Raw.IsValid s ⟨i⟩ ↔
    i ≤ (ofString s).length ∧ (ofString s).Between i := by
  have hlength : (ofString s).length = s.rawEndPos.byteIdx := by
    rw [ofString, toList_eq]
    rfl
  have hget : ∀ h : (⟨i⟩ : String.Pos.Raw) < s.rawEndPos,
      (ofString s)[i]? = some (s.getUTF8Byte ⟨i⟩ h) := by
    intro h
    rw [ofString, toList_eq]
    exact List.getElem?_eq_getElem _
  rw [String.Pos.Raw.isValid_iff_isUTF8FirstByte, hlength]
  constructor
  · rintro (h | ⟨h, hfirst⟩)
    · have hi : i = s.rawEndPos.byteIdx := congrArg String.Pos.Raw.byteIdx h
      exact ⟨Nat.le_of_eq hi, between_of_length_le (by rw [hlength, hi])⟩
    · refine ⟨Nat.le_of_lt h, fun b hb => ?_⟩
      rw [hget h] at hb
      exact Option.some.inj hb ▸ hfirst
  · rintro ⟨hle, hbetween⟩
    by_cases hi : i = s.rawEndPos.byteIdx
    · left
      rw [hi]
    · have h : (⟨i⟩ : String.Pos.Raw) < s.rawEndPos := Nat.lt_of_le_of_ne hle hi
      exact .inr ⟨h, hbetween _ (hget h)⟩

/-! ### One character after another -/

/-- A character is its first byte and bytes that continue it, none if the first byte is one of
ASCII. -/
theorem utf8EncodeChar_eq (c : Char) : ∃ b t, String.utf8EncodeChar c = b :: t ∧
    b.IsUTF8FirstByte ∧ (∀ b' ∈ t, ¬b'.IsUTF8FirstByte) ∧ (b < 0x80 ↔ t = []) := by
  have hfirst : ∀ {i : Nat} (h : i < (String.utf8EncodeChar c).length),
      (String.utf8EncodeChar c)[i].IsUTF8FirstByte ↔ i = 0 :=
    fun _ => UInt8.isUTF8FirstByte_getElem_utf8EncodeChar
  -- the first byte of a longer character has its upper bits set
  have hlong : ∀ m n : Byte, 0x80 ≤ n → ¬(m ||| n) < 0x80 := by
    intro m n h hlt
    have hle : n.toNat ≤ (m ||| n).toNat := by
      rw [UInt8.toNat_or]
      exact Nat.right_le_or
    exact absurd (UInt8.lt_of_le_of_lt h (UInt8.lt_of_le_of_lt hle hlt)) (UInt8.lt_irrefl _)
  have hascii : ∀ b t, String.utf8EncodeChar c = b :: t → (b < 0x80 ↔ t = []) := by
    intro b t h
    rcases Char.utf8Size_eq c with hsize | hsize | hsize | hsize
    · rw [String.utf8EncodeChar_eq_singleton hsize] at h
      obtain ⟨rfl, rfl⟩ := List.cons.inj h
      have hle : c.val.toNat ≤ 127 := Char.utf8Size_eq_one_iff.1 hsize
      refine iff_of_true ?_ rfl
      rw [UInt8.lt_iff_toNat_lt, UInt32.toNat_toUInt8]
      exact Nat.lt_of_le_of_lt (Nat.mod_le _ _) (Nat.lt_succ_of_le hle)
    · rw [String.utf8EncodeChar_eq_cons_cons hsize] at h
      obtain ⟨rfl, rfl⟩ := List.cons.inj h
      exact iff_of_false (hlong _ _ (by decide)) (List.cons_ne_nil _ _)
    · rw [String.utf8EncodeChar_eq_cons_cons_cons hsize] at h
      obtain ⟨rfl, rfl⟩ := List.cons.inj h
      exact iff_of_false (hlong _ _ (by decide)) (List.cons_ne_nil _ _)
    · rw [String.utf8EncodeChar_eq_cons_cons_cons_cons hsize] at h
      obtain ⟨rfl, rfl⟩ := List.cons.inj h
      exact iff_of_false (hlong _ _ (by decide)) (List.cons_ne_nil _ _)
  cases h : String.utf8EncodeChar c with
  | nil =>
    have hlength := String.length_utf8EncodeChar c
    rw [h] at hlength
    exact absurd hlength.symm (Nat.ne_of_gt (Char.utf8Size_pos c))
  | cons b t =>
    simp only [h] at hfirst
    refine ⟨b, t, rfl, (hfirst (i := 0) (Nat.succ_pos _)).2 rfl, ?_, hascii b t h⟩
    intro b' hb' hb
    obtain ⟨i, hi, rfl⟩ := List.getElem_of_mem hb'
    exact Nat.succ_ne_zero i ((hfirst (i := i + 1) (Nat.succ_lt_succ hi)).1 hb)

theorem between_zero_flatMap (cs : List Char) :
    Between (cs.flatMap String.utf8EncodeChar) 0 := by
  cases cs with
  | nil => exact between_of_length_le (Nat.le_refl 0)
  | cons c cs =>
    obtain ⟨b, t, hc, hfirst, -⟩ := utf8EncodeChar_eq c
    intro b' hb'
    rw [List.flatMap_cons, hc] at hb'
    exact Option.some.inj hb' ▸ hfirst

theorem between_succ_flatMap (cs : List Char) {i : Nat} {b : Byte}
    (hb : (cs.flatMap String.utf8EncodeChar)[i]? = some b) (hfirst : b.IsUTF8FirstByte) :
    Between (cs.flatMap String.utf8EncodeChar) (i + 1) ↔ b < 0x80 := by
  induction cs generalizing i with
  | nil => cases hb
  | cons c cs ih =>
    obtain ⟨a, t, hc, -, hrest, hascii⟩ := utf8EncodeChar_eq c
    rw [List.flatMap_cons, hc, List.cons_append] at hb ⊢
    simp only [Between, List.getElem?_cons_succ]
    cases i with
    | zero =>
      obtain rfl := Option.some.inj hb
      rw [hascii]
      cases t with
      | nil => exact iff_of_true (between_zero_flatMap cs) rfl
      | cons b' t =>
        refine iff_of_false (fun h => ?_) (List.cons_ne_nil _ _)
        exact hrest b' List.mem_cons_self (h b' rfl)
    | succ i =>
      rw [List.getElem?_cons_succ] at hb
      by_cases hi : i < t.length
      · -- no first byte stands within a character
        rw [List.getElem?_append_left hi] at hb
        exact absurd hfirst (hrest b (List.mem_of_getElem? hb))
      · obtain ⟨k, rfl⟩ := Nat.exists_eq_add_of_le (Nat.le_of_not_lt hi)
        rw [List.getElem?_append_right (Nat.le_add_right _ _), Nat.add_sub_cancel_left] at hb
        rw [Nat.add_assoc, List.getElem?_append_right (Nat.le_add_right _ _),
          Nat.add_sub_cancel_left]
        exact ih hb

theorem between_zero (s : String) : (ofString s).Between 0 := by
  rw [ofString_eq]
  exact between_zero_flatMap _

/-- **Behind a first byte** a string may be cut just if that byte is one of ASCII. -/
theorem between_succ_iff (s : String) {i : Nat} {b : Byte} (hb : (ofString s)[i]? = some b)
    (hfirst : b.IsUTF8FirstByte) : (ofString s).Between (i + 1) ↔ b < 0x80 := by
  rw [ofString_eq] at hb ⊢
  exact between_succ_flatMap _ hb hfirst

end Text

end Highlight
