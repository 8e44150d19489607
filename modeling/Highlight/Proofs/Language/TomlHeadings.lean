import Highlight.Proofs.Language.TomlHeads

/-!
The headings of TOML. What will be the level of a line is known where the line begins: from its
bytes, if it begins outside of strings and of open brackets, and else it has none. All through the
line the level that is foreseen stays the same, whether the rules are asked (`Awaits`) or let go of
the byte at hand (`LetsGoOf`), and it is kept at the end (`heading_fresh`).
-/

namespace Highlight.Toml

open Byte Pass

variable {words : WordSets} {c d : Place} {m y : Memory} {text : Text} {n : Option Nat}

/-! ### All through a line -/

/-- Nothing visible is passed on the line, which will have the level `n`. -/
structure Unopened (n : Option Nat) (c : Place) (m : Memory) : Prop where
  heading : m.flags.heading = false
  string : m.flags.string = c.state.isTriple
  level : opening m c.restOfLine = n

/-- What holds on a line of the level `n` where the rules are asked. Before the first visible byte
the run in progress is plain or a string in triple quotes, or it ends right at the beginning. -/
structure Awaits (n : Option Nat) (c : Place) (m : Memory) : Prop where
  returns : m.Returns
  unopened : c.visible = 0 → c.ahead ≠ [] → Unopened n c m ∧
    (c.state = .plain ∨ c.state.isTriple = true ∨
      c.atLineStart = true ∧ regime.ending c.state = true)
  opened : ¬(c.visible = 0 ∧ c.ahead ≠ []) → foreseen c.state m c.restOfLine = n

/-- What holds where a rule has decided that no run ends, so that one may begin. -/
structure Goes (n : Option Nat) (d : Place) (y : Memory) : Prop where
  returns : y.Returns
  unopened : d.visible = 0 → d.ahead ≠ [] → Unopened n d y ∧
    (d.state = .plain ∨ d.state.isTriple = true)
  opened : ¬(d.visible = 0 ∧ d.ahead ≠ []) → foreseen d.state y d.restOfLine.tail = n

/-- What holds where the rules let go of the byte at hand. -/
structure LetsGoOf (n : Option Nat) (d : Place) (y : Memory) : Prop where
  returns : y.Returns
  unopened : d.visible = 0 → isSpace d.byte = true → Unopened n d y ∧
    (d.state = .plain ∨ d.state.isTriple = true)
  opened : ¬(d.visible = 0 ∧ isSpace d.byte = true) → foreseen d.state y d.restOfLine.tail = n

/-- In a string that goes over lines no line is a heading. -/
theorem Unopened.level_of_triple (h : Unopened n c m) (ht : c.state.isTriple = true) :
    n = none := by
  rw [← h.level, opening, if_neg]
  rintro ⟨-, hstring⟩
  rw [h.string, ht] at hstring
  cases hstring

/-- Behind a byte that was let go of, the rules are asked. -/
theorem LetsGoOf.forward (h : LetsGoOf n d y) (hb : d.byte ≠ newline) : Awaits n d.forward y := by
  by_cases hspace : d.visible = 0 ∧ isSpace d.byte = true
  · obtain ⟨hunopened, hstate⟩ := h.unopened hspace.1 hspace.2
    have hne := Cursor.ahead_ne_nil_of_space hspace.2
    have hvisible : d.forward.visible = 0 := by
      rw [Cursor.visible_forward hne, if_pos hspace.2, hspace.1]
    have hlevel : opening y d.forward.restOfLine = n := by
      rw [← hunopened.level, Cursor.restOfLine_cons hne hb, opening_space hspace.2]
    refine ⟨h.returns, fun _ _ => ⟨⟨hunopened.heading, ?_, hlevel⟩, ?_⟩, fun hopened => ?_⟩
    · rw [Cursor.state_forward]
      exact hunopened.string
    · rw [Cursor.state_forward]
      exact hstate.imp_right .inl
    · have hnil : d.forward.ahead = [] := not_not.1 fun hne => hopened ⟨hvisible, hne⟩
      rw [foreseen_none hunopened.heading, ← hlevel, Cursor.restOfLine_nil (.inl hnil), opening_nil]
  · refine ⟨h.returns, fun hvisible hne => ?_, fun _ => ?_⟩
    · -- a visible byte was passed, or the text ends
      have hahead : d.ahead ≠ [] := by
        intro hnil
        rw [Cursor.forward_nil hnil] at hne
        exact hne hnil
      rw [Cursor.visible_forward hahead] at hvisible
      split at hvisible
      case isTrue hb => exact absurd ⟨hvisible, hb⟩ hspace
      case isFalse => cases hvisible
    · rw [Cursor.state_forward, Cursor.restOfLine_forward hb]
      exact h.opened hspace

/-! ### The rules -/

/-- What begins a run lets go of its first byte. -/
theorem Goes.enters (h : Goes n d y) (hplain : d.state = .plain) :
    ∃ e z, enter d y = .pass e z ∧ LetsGoOf n e z := by
  by_cases hspace : d.visible = 0 ∧ isSpace d.byte = true
  · obtain ⟨hunopened, -⟩ := h.unopened hspace.1 (Cursor.ahead_ne_nil_of_space hspace.2)
    exact ⟨d, y, enter_space hspace.2 y, h.returns, fun _ _ => ⟨hunopened, .inl hplain⟩,
      fun hopen => absurd hspace hopen⟩
  obtain ⟨e, z, hrule, he⟩ := exists_enters (m := y) hplain
  have hwithin : d.Within e := by
    have := (staysInLine {}).enter d y
    rwa [show (grammar {}).enter d y = .pass e z from hrule] at this
  refine ⟨e, z, hrule, ?_, fun hzero hb => absurd ⟨hzero, hb⟩ (hwithin.not_blank hspace),
    fun _ => ?_⟩
  · rw [Memory.Returns, he.escape]
    exact h.returns
  by_cases hhead : d.visible = 0 ∧ y.brackets = 0 ∧ d.byte = lbracket
  · obtain ⟨hzero, hbrackets, hb⟩ := hhead
    obtain ⟨hunopened, -⟩ := h.unopened hzero (Cursor.ahead_ne_nil_of_byte hb (by decide))
    have hstring : y.flags.string = false := by rw [hunopened.string, hplain]; rfl
    obtain ⟨e', z', hrule', hlevel⟩ := enter_lbracket hb hzero hbrackets
    obtain ⟨rfl, rfl⟩ := Flow.pass.inj (hrule.symm.trans hrule')
    rw [hlevel, ← hunopened.level, opening, if_pos ⟨hbrackets, hstring⟩]
  · obtain ⟨htable, hheading, hlevel⟩ := he.head hhead
    by_cases hopen : d.visible = 0 ∧ d.ahead ≠ []
    · obtain ⟨hunopened, -⟩ := h.unopened hopen.1 hopen.2
      rw [foreseen_none (hheading.trans hunopened.heading), ← hunopened.level]
      exact (opening_of_not_head hopen.2 (by simpa [hopen.1] using hspace)
        fun hnot => hhead ⟨hopen.1, hnot⟩).symm
    · rw [← h.opened hopen, hplain]
      exact foreseen_of_ne htable (by decide) hheading hlevel _ _

/-- What goes on lets go of the byte at hand. -/
theorem Goes.lets (h : Goes n d y) (hd : d.state ≠ .plain ∨ d.ahead = []) : LetsGoOf n d y := by
  refine ⟨h.returns, fun hzero hb => ?_, fun hopen => ?_⟩
  · exact h.unopened hzero (Cursor.ahead_ne_nil_of_space hb)
  by_cases hunpassed : d.visible = 0 ∧ d.ahead ≠ []
  · obtain ⟨hunopened, hstate⟩ := h.unopened hunpassed.1 hunpassed.2
    have htriple := hstate.resolve_left (hd.resolve_right hunpassed.2)
    rw [foreseen_none hunopened.heading, hunopened.level_of_triple htriple]
  · exact h.opened hunpassed

/-- The byte before the offset is in a string in triple quotes. -/
def behindTriple (styles : Styles Category) : Nat → Bool
  | 0 => false
  | o + 1 => (styles.categoryAt o).isTriple

/-- At the end of the line what was foreseen is counted. -/
theorem LetsGoOf.ended (h : LetsGoOf n d y) (hend : d.ahead = [] ∨ d.atLineEnd = true) :
    n = if y.flags.heading then some y.level else none := by
  by_cases hspace : d.visible = 0 ∧ isSpace d.byte = true
  · obtain ⟨hunopened, -⟩ := h.unopened hspace.1 hspace.2
    rw [hunopened.heading, ← hunopened.level, Cursor.restOfLine_nil hend, opening_nil]
    rfl
  · rw [← h.opened hspace, Cursor.restOfLine_nil hend]
    simp [foreseen, points_nil]

theorem depth_endLine (c : Place) (m : Memory) :
    (endLine c m).1.depth.toNat =
      min (if m.flags.heading then m.level else 0) LineState.maxDepth := by
  change (UInt8.ofNat _).toNat = _
  rw [UInt8.toNat_ofNat', Nat.mod_eq_of_lt]
  exact Nat.lt_of_le_of_lt (Nat.min_le_right _ _) (by decide)

end Highlight.Toml
