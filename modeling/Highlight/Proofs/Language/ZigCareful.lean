import Highlight.Language.Zig
import Highlight.Proofs.Language.Placeholder
import Highlight.Proofs.Scan.Careful

/-!
The rules of Zig are careful with characters. They break one only behind a backslash: an escape
takes the one byte after it, and if this begins a longer character, the rest of that is left to the
literal.
-/

namespace Highlight.Zig

open Byte

/-- What stands behind a sign is plain text, where a name begins at any byte outside ASCII. -/
def care : Care Category Memory where
  roomy
    | .plain | .operator | .escape => false
    | _ => true
  escape s := s = .escape
  outer m := m.escape.outer

variable {config : Config} {c : Place} {m : Memory}

/-! ### Literals -/

/-- The parts of a placeholder begin with bytes of ASCII, and the last one ends with such a byte. -/
theorem readPlaceholder_careful (hc : c.Spelled) (hs : care.roomy c.state = true)
    (hb : c.byte = lbrace) : (readPlaceholder c m).CarefulHere care c := by
  unfold readPlaceholder
  simp only
  cases hp : Placeholder.read (if c.state = .string then some quote else none) c.ahead with
  | none => exact .stay hs
  | some p =>
    obtain ⟨hle, hlt, hclose, hspec⟩ := Placeholder.read_parts _ hp
    -- whatever was passed up to the end of the specifier, the closing brace is passed last
    have hlast : ∀ d : Place, c.Careful care.escape d →
        d.peek (p.length - 1 - p.specStop) = rbrace →
        Flow.CarefulHere care c
          (.again ((d.forwardN (p.length - p.specStop)).switch c.state) m) := by
      intro d hd hbrace
      have hn : p.length - p.specStop = p.length - 1 - p.specStop + 1 := by omega
      refine Flow.Careful.back (hd.forwardN _) ?_ _
      rw [hn]
      exact (hd.spelled hc).atCharacter_forwardN (hbrace ▸ by decide)
    have hopen : c.Careful care.escape ((c.switch .placeholder).forwardN p.specStart) :=
      (Cursor.Careful.refl.switch_of_atCharacter
        (Cursor.atCharacter_of_eq hb (by decide)) _).forwardN _
    have hpeek : ∀ n, ((c.switch .placeholder).forwardN p.specStart).peek n =
        c.ahead.getD (p.specStart + n) 0 := Cursor.peek_forwardN _
    simp only
    split
    case isTrue heq =>
      refine hlast _ hopen ?_
      rw [hpeek, heq, Nat.add_sub_cancel' (by omega), hclose]
    case isFalse hne =>
      obtain ⟨hbegin, hend⟩ := hspec (by omega)
      generalize (c.switch .placeholder).forwardN p.specStart = d at hopen hpeek
      have hpeek' : ∀ n, ((d.switch .specifier).forwardN (p.specStop - p.specStart)).peek n =
          c.ahead.getD (p.specStop + n) 0 := by
        intro n
        rw [Cursor.peek_forwardN]
        change d.peek _ = _
        rw [hpeek, ← Nat.add_assoc, Nat.add_sub_cancel' hle]
      have hat : d.AtCharacter := Cursor.atCharacter_of_eq (hpeek 0) hbegin
      have hat' : ((d.switch .specifier).forwardN (p.specStop - p.specStart)).AtCharacter :=
        Cursor.atCharacter_of_eq (hpeek' 0) hend
      have hlength : p.specStop + (p.length - 1 - p.specStop) = p.length - 1 := by omega
      refine hlast _ (((hopen.switch_of_atCharacter hat _).forwardN _).switch_of_atCharacter hat' _)
        ?_
      exact (hpeek' _).trans (by rw [hlength, hclose])

theorem leaveLiteral_careful (hc : c.Spelled) (hs : care.roomy c.state = true) :
    (leaveLiteral config c m).CarefulHere care c := by
  unfold leaveLiteral
  split_ifs with hstart hback hchar hstring hbrace
  · exact .leave .refl (hc.atCharacter_of_atLineStart hstart)
  · exact Escape.enter_careful _ hc hback.1 hs rfl fun _ => rfl
  · exact Flow.Careful.past .refl hc (hchar.1 ▸ by decide) _
  · exact Flow.Careful.past .refl hc (hstring.1 ▸ by decide) _
  · have hascii : c.byte < 0x80 := by
      rcases hbrace.1 with hb | hb <;> rw [hb] <;> decide
    unfold leaveBrace
    split_ifs with htwo hopen
    · refine Flow.Careful.here (.pair hc hascii (htwo ▸ hascii) _) ?_
      rw [Flow.cursor, Cursor.state_forward]
      exact (by decide : Category.escape ≠ .plain)
    · exact readPlaceholder_careful hc hs hopen
    · exact .stay hs
  · exact .stay hs

/-! ### The rules together -/

theorem leave_careful (hc : c.Spelled) (hm : c.MayStand care m) :
    (leave config c m).CarefulHere care c := by
  unfold leave
  cases hs : c.state
  case operator =>
    exact .leave .refl (hm.atCharacter_of (by rw [hs]; rfl) (by rw [hs]; nofun) not_false)
  case number =>
    dsimp only
    split
    case isTrue => exact .stay (by rw [hs]; rfl)
    case isFalse hnumber =>
      exact .leave .refl (Cursor.atCharacter_of_ascii (ascii_of_not_continuesNumber hnumber))
  case identifier =>
    dsimp only
    split
    case isTrue => exact .stay (by rw [hs]; rfl)
    case isFalse hname =>
      have hat : c.AtCharacter := Cursor.atCharacter_of_ascii (ascii_of_not_isNameByte hname)
      exact .leave ((Cursor.Careful.refl.recolor _).remember _) hat
  case builtin =>
    dsimp only
    split
    case isTrue => exact .stay (by rw [hs]; rfl)
    case isFalse hname =>
      exact .leave .refl (Cursor.atCharacter_of_ascii (ascii_of_not_isNameByte hname))
  case lineComment | docComment | topComment => exact .lineLong hc (by rw [hs]; rfl)
  case character | string | multilineString => exact leaveLiteral_careful hc (by rw [hs]; rfl)
  case escape => exact Escape.leave_careful _ hc hs (hm.of_escape (by rw [hs]; rfl) not_false)
  case plain => exact ⟨.refl, fun _ => hm, fun h => absurd hs h⟩
  case keyword | typeName | functionDefinition | function | placeholder | specifier =>
    exact .stay (by rw [hs]; rfl)

theorem enterComment_careful (hat : c.AtCharacter) : (enterComment c m).Careful care c := by
  have hgo : c.Careful care.escape ((c.switch .lineComment).forwardN 2) :=
    (Cursor.Careful.refl.switch_of_atCharacter hat _).forwardN 2
  have hstate : ((c.switch .lineComment).forwardN 2).state = .lineComment :=
    Cursor.state_forwardN 2
  unfold enterComment
  generalize (c.switch .lineComment).forwardN 2 = d at hgo hstate
  simp only
  refine .goesOn ?_ ?_
  · split_ifs
    · exact hgo.recolor _
    · exact hgo.recolor _
    · exact hgo
  · split_ifs
    · rfl
    · rfl
    · rw [hstate]
      rfl

theorem enterPunctuation_careful (hc : c.Spelled) (hascii : c.byte < 0x80) :
    (enterPunctuation c m).Careful care c := by
  have hat : c.AtCharacter := Cursor.atCharacter_of_ascii hascii
  unfold enterPunctuation
  split_ifs
  · exact enterComment_careful hat
  · exact .begins hat rfl
  · exact .begins hat rfl
  · exact .begins hat rfl
  · exact .begins hat rfl
  · exact .begins hat rfl
  · exact .sign hc hascii _

theorem enter_careful (hc : c.Spelled) (hs : c.state = .plain) (hm : c.MayStand care m) :
    (enter c m).Careful care c := by
  have hat : c.AtCharacter := hm.atCharacter_of (by rw [hs]; rfl) (by rw [hs]; nofun) not_false
  unfold enter
  cases hclass : ByteClass.of c.byte
  case digit | nameStart => exact .begins hat rfl
  case punctuation =>
    exact enterPunctuation_careful hc (ByteClass.ascii_of_ne_nameStart (by rw [hclass]; nofun))
  case space | lineEnd | control =>
    exact .skip hc (ByteClass.ascii_of_ne_nameStart (by rw [hclass]; nofun))

theorem careful (config : Config) : (grammar config).Careful care where
  begin _ _ _ hat := ⟨.refl, .atCharacter hat⟩
  leave _ _ := leave_careful
  enter _ _ := enter_careful

end Highlight.Zig
