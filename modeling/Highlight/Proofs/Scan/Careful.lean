import Highlight.Proofs.Characters
import Highlight.Proofs.Scan.Progress
import Highlight.Scan.Escape

/-!
Careful rules. Rules look at bytes, but in a text that spells characters they can be careful with
these: a run ends only where a character does, or within an escape whose one byte behind the
backslash begins a longer character (`Cursor.Careful`). To be so, the rules must not stand within a
character where they would make something of its bytes; where they may stand is assumed at every
place and shown of every answer (`Grammar.Careful`).
-/

namespace Highlight

open Byte

variable {σ ζ : Type}

/-! ### Places -/

namespace Cursor

/-- A character begins at the place, or nothing is left. -/
def AtCharacter (c : Cursor σ) : Prop := c.byte.IsUTF8FirstByte

/-- From the place on, a character begins behind every byte of ASCII. -/
def Spelled (c : Cursor σ) : Prop :=
  (c.behind :: c.ahead).IsChain fun a b => a < 0x80 → b.IsUTF8FirstByte

/-- The run in progress ends with a backslash and the first byte of a longer character. -/
def Breaks (c : Cursor σ) : Prop := ∃ b w, c.word = b :: backslash :: w ∧ ¬b < 0x80

/-- The run in progress may end at the place. -/
def MayEnd (escape : σ → Prop) (c : Cursor σ) : Prop :=
  c.AtCharacter ∨ escape c.state ∧ c.Breaks

variable {escape : σ → Prop} {c d e : Cursor σ}

theorem atCharacter_of_ascii (h : c.byte < 0x80) : c.AtCharacter := first_of_ascii h

/-- A byte that is known to be one of ASCII is a character. -/
theorem atCharacter_of_eq {b : Byte} (h : c.byte = b) (hb : b < 0x80) : c.AtCharacter :=
  atCharacter_of_ascii (h ▸ hb)

theorem Spelled.atCharacter (h : c.Spelled) (hb : c.behind < 0x80) : c.AtCharacter := by
  unfold AtCharacter byte peek
  cases ha : c.ahead with
  | nil => exact first_of_ascii (by decide)
  | cons b t =>
    rw [Spelled, ha] at h
    exact (List.isChain_cons_cons.1 h).1 hb

/-- At the beginning of a line a character begins. -/
theorem Spelled.atCharacter_of_atLineStart (h : c.Spelled) (hs : c.atLineStart = true) :
    c.AtCharacter := by
  refine h.atCharacter ?_
  unfold behind
  unfold atLineStart at hs
  cases hp : c.prev with
  | none => decide
  | some b =>
    obtain rfl : b = newline := by simpa [hp] using hs
    decide

variable [Palette σ]

theorem Spelled.forward (h : c.Spelled) : c.forward.Spelled := by
  cases ha : c.ahead with
  | nil => rwa [forward_nil ha]
  | cons b t =>
    rw [Spelled, ha] at h
    rw [forward_cons ha]
    exact (List.isChain_cons_cons.1 h).2

/-- Behind a byte of ASCII a character begins. -/
theorem Spelled.atCharacter_forward (h : c.Spelled) (hb : c.byte < 0x80) :
    c.forward.AtCharacter := by
  cases ha : c.ahead with
  | nil =>
    rw [forward_nil ha]
    exact atCharacter_of_ascii hb
  | cons b t =>
    refine h.forward.atCharacter ?_
    have hbyte : c.byte = b := by simp [byte, peek, ha]
    rw [forward_cons ha]
    exact hbyte ▸ hb

theorem word_forward (h : c.byte ≠ 0) : c.forward.word = c.byte :: c.word := by
  cases ha : c.ahead with
  | nil => simp [byte, peek, ha] at h
  | cons b t => simp [forward_cons ha, byte, peek, ha]

/-- Behind bytes the last of which is one of ASCII a character begins. -/
theorem Spelled.atCharacter_forwardN (h : c.Spelled) {n : Nat} (hb : c.peek n < 0x80) :
    (c.forwardN (n + 1)).AtCharacter := by
  induction n generalizing c with
  | zero =>
    unfold Cursor.forwardN
    split
    · exact h.atCharacter_forward hb
    · exact atCharacter_of_ascii hb
  | succ n ih =>
    unfold Cursor.forwardN
    split
    case isTrue => exact ih h.forward (by rwa [peek_forward])
    case isFalse hmore =>
      have hnil : c.ahead = [] := by simpa [more] using hmore
      refine atCharacter_of_ascii ?_
      rw [byte, peek, hnil]
      decide

/-! ### Careful moves -/

/-- The cursor `d` came from `c` by moves that end a run only where it may end. -/
inductive Careful (escape : σ → Prop) (c : Cursor σ) : Cursor σ → Prop where
  | refl : Careful escape c c
  | forward {d : Cursor σ} (h : Careful escape c d) : Careful escape c d.forward
  | switch {d : Cursor σ} (h : Careful escape c d) (s : σ) (hend : d.MayEnd escape) :
      Careful escape c (d.switch s)
  | recolor {d : Cursor σ} (h : Careful escape c d) (s : σ) : Careful escape c (d.recolor s)
  | remember {d : Cursor σ} (h : Careful escape c d) (s : σ) : Careful escape c (d.remember s)

namespace Careful

theorem trans (h : Careful escape c d) (h' : Careful escape d e) : Careful escape c e := by
  induction h' with
  | refl => exact h
  | forward _ ih => exact ih.forward
  | switch _ s hend ih => exact ih.switch s hend
  | recolor _ s ih => exact ih.recolor s
  | remember _ s ih => exact ih.remember s

theorem forwardN (h : Careful escape c d) (n : Nat) : Careful escape c (d.forwardN n) := by
  induction n generalizing d with
  | zero => exact h
  | succ n ih =>
    unfold Cursor.forwardN
    split
    · exact ih h.forward
    · exact h

theorem spelled (h : Careful escape c d) (hc : c.Spelled) : d.Spelled := by
  induction h with
  | refl => exact hc
  | forward _ ih => exact ih.forward
  | switch _ _ _ ih | recolor _ _ ih | remember _ _ ih => exact ih

/-- Where a character begins, a run may end. -/
theorem switch_of_atCharacter (h : Careful escape c d) (hd : d.AtCharacter) (s : σ) :
    Careful escape c (d.switch s) := h.switch s (.inl hd)

end Careful

end Cursor

/-! ### Careful rules -/

variable [Palette σ]

/-- Which runs of a language need no care, and which may break a character. -/
structure Care (σ ζ : Type) where
  /-- A run of the category goes on over all bytes outside ASCII. -/
  roomy : σ → Bool
  /-- A run of the category is of an escape. -/
  escape : σ → Prop := fun _ => False
  /-- What the last escape stands in. -/
  outer : ζ → σ
  /-- At the place nothing is made of bytes outside ASCII. -/
  loose : Cursor σ → ζ → Prop := fun _ _ => False

/-- The rules may be asked at the place. -/
inductive Cursor.MayStand (k : Care σ ζ) (c : Cursor σ) (z : ζ) : Prop where
  | atCharacter (h : c.AtCharacter)
  | roomy (h : k.roomy c.state = true)
  /-- An escape has taken the first byte of a character, and what it stands in goes on over the
  rest. -/
  | broken (hs : k.escape c.state) (hb : c.Breaks) (h : k.roomy (k.outer z) = true)
  | loose (h : k.loose c z)

/-- What is answered at `c` leads on by careful moves, to a place where the rules may be asked. -/
def Flow.Careful (k : Care σ ζ) (c : Cursor σ) : Flow σ ζ → Prop
  | pass d z => c.Careful k.escape d ∧ d.forward.MayStand k z
  | again d z => c.Careful k.escape d ∧ d.MayStand k z

/-- The same of an answer behind which, in the plain category, the next rule is asked. -/
def Flow.CarefulHere (k : Care σ ζ) (c : Cursor σ) : Flow σ ζ → Prop
  | pass d z => c.Careful k.escape d ∧ (d.state = Palette.plain → d.MayStand k z) ∧
      (d.state ≠ Palette.plain → d.forward.MayStand k z)
  | again d z => c.Careful k.escape d ∧ d.MayStand k z

/-- The rules of the grammar are careful in texts that spell characters. -/
structure Grammar.Careful (g : Grammar σ ζ) (k : Care σ ζ) : Prop where
  begin : ∀ (c : Cursor σ) b, c.Spelled → c.AtCharacter →
    c.Careful k.escape (g.begin c b).1 ∧ (g.begin c b).1.MayStand k (g.begin c b).2
  leave : ∀ (c : Cursor σ) z, c.Spelled → c.MayStand k z → (g.leave c z).CarefulHere k c
  enter : ∀ (c : Cursor σ) z, c.Spelled → c.state = Palette.plain → c.MayStand k z →
    (g.enter c z).Careful k c

variable {g : Grammar σ ζ} {k : Care σ ζ} {c d : Cursor σ} {z : ζ}

omit [Palette σ] in
theorem Cursor.MayStand.atCharacter_of (h : c.MayStand k z) (hroomy : k.roomy c.state = false)
    (hescape : ¬k.escape c.state) (hloose : ¬k.loose c z) : c.AtCharacter := by
  cases h with
  | atCharacter h => exact h
  | roomy h => exact absurd (hroomy.symm.trans h) Bool.false_ne_true
  | broken hs _ _ => exact absurd hs hescape
  | loose h => exact absurd h hloose

omit [Palette σ] in
theorem Cursor.MayStand.of_escape (h : c.MayStand k z) (hroomy : k.roomy c.state = false)
    (hloose : ¬k.loose c z) : c.AtCharacter ∨ c.Breaks ∧ k.roomy (k.outer z) = true := by
  cases h with
  | atCharacter h => exact .inl h
  | roomy h => exact absurd (hroomy.symm.trans h) Bool.false_ne_true
  | broken _ hb h => exact .inr ⟨hb, h⟩
  | loose h => exact absurd h hloose

namespace Flow

theorem Careful.trans {f : Flow σ ζ} (hc : c.Careful k.escape d) (hf : f.Careful k d) :
    f.Careful k c := by
  cases f with
  | pass e z => exact ⟨hc.trans hf.1, hf.2⟩
  | again e z => exact ⟨hc.trans hf.1, hf.2⟩

theorem CarefulHere.trans {f : Flow σ ζ} (hc : c.Careful k.escape d) (hf : f.CarefulHere k d) :
    f.CarefulHere k c := by
  cases f with
  | pass e z => exact ⟨hc.trans hf.1, hf.2⟩
  | again e z => exact ⟨hc.trans hf.1, hf.2⟩

/-- What asks for no other rule at the place may be answered by any. -/
theorem Careful.here {f : Flow σ ζ} (hf : f.Careful k c) (hs : f.cursor.state ≠ Palette.plain) :
    f.CarefulHere k c := by
  cases f with
  | pass d z => exact ⟨hf.1, fun h => absurd h hs, fun _ => hf.2⟩
  | again d z => exact hf

/-! #### Runs go on -/

/-- A run that needs no care goes on. -/
theorem Careful.goesOn (hd : c.Careful k.escape d) (hs : k.roomy d.state = true) :
    (pass d z).Careful k c := by
  refine ⟨hd, .roomy ?_⟩
  rwa [Cursor.state_forward]

theorem CarefulHere.goesOn (hd : c.Careful k.escape d) (hs : k.roomy d.state = true) :
    (pass d z).CarefulHere k c :=
  ⟨hd, fun _ => .roomy hs, fun _ => (Careful.goesOn (z := z) hd hs).2⟩

theorem CarefulHere.stay (hs : k.roomy c.state = true) : (pass c z).CarefulHere k c :=
  goesOn .refl hs

/-- A byte of ASCII is passed, and nothing begins. -/
theorem Careful.skip (hc : c.Spelled) (hb : c.byte < 0x80) : (pass c z).Careful k c :=
  ⟨.refl, .atCharacter (hc.atCharacter_forward hb)⟩

/-! #### Runs begin -/

/-- A run that needs no care begins where a character does. -/
theorem Careful.begins (hat : c.AtCharacter) {s : σ} (hs : k.roomy s = true) :
    (pass (c.switch s) z).Careful k c :=
  goesOn (Cursor.Careful.refl.switch_of_atCharacter hat s) hs

/-- A run that needs no care begins, and its first bytes are passed at once. -/
theorem Careful.beginsWith (hat : c.AtCharacter) {s : σ} (hs : k.roomy s = true) (n : Nat) :
    (pass ((c.switch s).forwardN n) z).Careful k c := by
  refine goesOn ((Cursor.Careful.refl.switch_of_atCharacter hat s).forwardN n) ?_
  rw [Cursor.state_forwardN]
  exact hs

/-- A run begins with a byte of ASCII, in whatever category. -/
theorem Careful.sign (hc : c.Spelled) (hb : c.byte < 0x80) (s : σ) :
    (pass (c.switch s) z).Careful k c := by
  have hswitch : (c.switch s).Spelled := hc
  exact ⟨Cursor.Careful.refl.switch_of_atCharacter (Cursor.atCharacter_of_ascii hb) s,
    .atCharacter (hswitch.atCharacter_forward hb)⟩

/-- A run begins with two bytes of ASCII, the first of which is passed at once. -/
theorem Careful.pair (hc : c.Spelled) (hb : c.byte < 0x80) (hb' : c.next < 0x80) (s : σ) :
    (pass (c.switch s).forward z).Careful k c := by
  have hat : c.AtCharacter := Cursor.atCharacter_of_ascii hb
  have hswitch : (c.switch s).Spelled := hc
  have hsecond : (c.switch s).forward.byte < 0x80 := by
    rw [Cursor.byte_forward]
    exact hb'
  exact ⟨(Cursor.Careful.refl.switch_of_atCharacter hat s).forward,
    .atCharacter (hswitch.forward.atCharacter_forward hsecond)⟩

/-! #### Runs end -/

/-- The run in progress ends, and the next rule is asked. -/
theorem CarefulHere.leave (hd : c.Careful k.escape d) (hat : d.AtCharacter) :
    (pass (d.switch Palette.plain) z).CarefulHere k c :=
  ⟨hd.switch_of_atCharacter hat _, fun _ => .atCharacter hat, fun h => absurd rfl h⟩

/-- The run in progress ends with its line. -/
theorem CarefulHere.lineLong (hc : c.Spelled) (hs : k.roomy c.state = true) :
    Flow.CarefulHere k c
      (if c.atLineStart = true then pass (c.switch Palette.plain) z else pass c z) := by
  split
  case isTrue hstart => exact leave .refl (hc.atCharacter_of_atLineStart hstart)
  case isFalse => exact stay hs

/-- The run in progress ends, and the byte is looked at again. -/
theorem Careful.back (hd : c.Careful k.escape d) (hat : d.AtCharacter) (s : σ) :
    (again (d.switch s) z).Careful k c :=
  ⟨hd.switch_of_atCharacter hat s, .atCharacter hat⟩

/-- The run in progress ends behind a byte of ASCII. -/
theorem Careful.past (hd : c.Careful k.escape d) (hc : d.Spelled) (hb : d.byte < 0x80) (s : σ) :
    (again (d.forwardSwitch s) z).Careful k c :=
  back hd.forward (hc.atCharacter_forward hb) s

end Flow

/-- At one place, both rules together are careful. -/
theorem Grammar.Careful.dispatch [DecidableEq σ] (hg : g.Careful k) (hc : c.Spelled)
    (hz : c.MayStand k z) : (g.dispatch c z).Careful k c := by
  have hleave := hg.leave c z hc hz
  unfold Grammar.dispatch
  cases hrule : g.leave c z with
  | again d y =>
    rw [hrule] at hleave
    exact hleave
  | pass d y =>
    rw [hrule] at hleave
    obtain ⟨hd, hplain, hother⟩ := hleave
    simp only
    split
    case isTrue h => exact .trans hd (hg.enter d y (hd.spelled hc) h (hplain h))
    case isFalse h => exact ⟨hd, hother h⟩

/-! ### Escapes -/

namespace Escape

variable {keep : Escape σ → ζ}

/-- Behind the byte that a backslash hides the rules may be asked even if that byte only begins a
character. -/
theorem enter_careful (e : EscapeSyntax) {s : σ} (hc : c.Spelled) (hb : c.byte = backslash)
    (hroomy : k.roomy c.state = true) (hs : k.escape s) (hkeep : ∀ e, k.outer (keep e) = e.outer) :
    (enter e s c z keep).CarefulHere k c := by
  have hback : (c.switch s).byte = backslash := hb
  have hescape : c.Careful k.escape (c.switch s).forward :=
    (Cursor.Careful.refl.switch_of_atCharacter
      (Cursor.atCharacter_of_eq hb (by decide)) s).forward
  have hspelled : (c.switch s).forward.Spelled := hescape.spelled hc
  have hat : (c.switch s).forward.AtCharacter := by
    have hswitch : (c.switch s).Spelled := hc
    exact hswitch.atCharacter_forward (hback ▸ by decide)
  unfold enter
  split
  case isTrue => exact .stay hroomy
  case isFalse =>
    simp only
    split
    case isTrue hbrace =>
      obtain ⟨hu, hlbrace⟩ := Cursor.reads_iff.1 hbrace.2
      have hat' : (c.switch s).forward.forward.AtCharacter :=
        hspelled.atCharacter_forward (hu ▸ by decide)
      have hbyte : (c.switch s).forward.forward.byte < 0x80 := by
        rw [Cursor.byte_forward, hlbrace]
        decide
      exact ⟨hescape.forward, fun _ => .atCharacter hat',
        fun _ => .atCharacter (hspelled.forward.atCharacter_forward hbyte)⟩
    case isFalse =>
      refine ⟨hescape, fun _ => .atCharacter hat, fun _ => ?_⟩
      by_cases hascii : (c.switch s).forward.byte < 0x80
      · exact .atCharacter (hspelled.atCharacter_forward hascii)
      · have hne : (c.switch s).forward.byte ≠ 0 := fun h => hascii (h ▸ by decide)
        refine .broken ?_ ⟨_, [], ?_, hascii⟩ ?_
        · rwa [Cursor.state_forward, Cursor.state_forward]
        · rw [Cursor.word_forward hne, Cursor.word_forward (hback ▸ by decide), hback]
          rfl
        · rw [hkeep]
          exact hroomy

/-- An escape that is left within a character has broken it. -/
theorem leave_careful (e : Escape σ) (hc : c.Spelled) (hs : k.escape c.state)
    (hstand : c.AtCharacter ∨ c.Breaks ∧ k.roomy e.outer = true) :
    (leave e c keep).CarefulHere k c := by
  unfold leave
  simp only
  split
  case isTrue hended =>
    split
    case isTrue hbrace => exact Flow.Careful.past .refl hc (hbrace.2 ▸ by decide) _
    case isFalse =>
      refine ⟨Cursor.Careful.refl.switch _ (hstand.imp_right fun h => ⟨hs, h.1⟩), ?_⟩
      rcases hstand with hat | ⟨-, hroomy⟩
      · exact .atCharacter hat
      · exact .roomy hroomy
  case isFalse hended =>
    have hascii : c.byte < 0x80 := by
      simp only [ended, Bool.or_eq_true, Bool.not_eq_true', not_or, Bool.not_eq_false] at hended
      exact ascii_of_isHexDigit hended.2
    exact ⟨.refl, fun _ => .atCharacter (Cursor.atCharacter_of_ascii hascii),
      fun _ => .atCharacter (hc.atCharacter_forward hascii)⟩

end Escape

end Highlight
