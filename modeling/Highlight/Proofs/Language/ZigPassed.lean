import Highlight.Proofs.Language.PlaceholderTame
import Highlight.Proofs.Language.ZigLevel

/-!
Strings of Zig without marks. In a string that is not closed by any of them, the scan passes bytes
one by one, and an escape of two bytes takes it back into the string (`over_tame`). So it comes
through all that can be marked, and stands behind it in the string in which it was before
(`over_placeholder`).
-/

namespace Highlight

open Byte

namespace Zig

open Pass
open Placeholder (stops Tame Passable)

variable {words : WordSets} {c d : Place} {m : Memory} {p q r : Pass Category Memory}
  {s : Category} {b : Byte} {t w : Text}

/-! ### The unmarked scan within a string -/

/-- The byte that closes a string, if it is not closed by the end of its line. -/
def closer (s : Category) : Option Byte := if s = .string then some quote else none

/-- The scan stands in a string in which placeholders may be marked, and not where a line begins. -/
structure InString (s : Category) (c : Place) : Prop where
  state : c.state = s
  braced : s = .string ∨ s = .multilineString
  inside : c.atLineStart = false

/-- The unmarked scan comes from `p` to `q`, over `k` bytes, and stands in the same string. -/
structure Over (words : WordSets) (s : Category) (p : Pass Category Memory) (k : Nat)
    (q : Pass Category Memory) : Prop where
  reached : ∃ n, p.run (grammar (unmarked words)) n = q
  inString : InString s q.cursor
  along : q.cursor.Along Category.lump (p.cursor.forwardN k)
  even : Even p.data q.data
  ended : q.ended = p.ended

theorem InString.isLiteral (h : InString s c) : s.isLiteral = true ∧ s ≠ .character := by
  rcases h.braced with rfl | rfl
  · exact ⟨rfl, nofun⟩
  · exact ⟨rfl, nofun⟩

theorem InString.looksBack (h : InString s c) : s.looksBack = false :=
  Category.looksBack_of_isLiteral h.isLiteral.1

theorem InString.ne_plain (h : InString s c) : s ≠ .plain := by
  rcases h.braced with rfl | rfl <;> nofun

theorem InString.not_atLineStart (h : InString s c) : ¬c.atLineStart = true := by
  rw [h.inside]
  nofun

theorem InString.lump (h : InString s c) : s.lump = .string := by
  rcases h.braced with rfl | rfl <;> rfl

theorem Over.ahead {k : Nat} (h : Over words s p k q) :
    q.cursor.ahead = p.cursor.ahead.drop k := by
  rw [h.along.ahead, Cursor.ahead_forwardN]

theorem Over.refl (h : InString s p.cursor) : Over words s p 0 p :=
  ⟨⟨0, rfl⟩, h, .refl _, ⟨rfl, rfl⟩, rfl⟩

theorem Over.trans {k l : Nat} (hp : InString s p.cursor) (h : Over words s p k q)
    (h' : Over words s q l r) : Over words s p (k + l) r := by
  obtain ⟨i, rfl⟩ := h.reached
  obtain ⟨j, rfl⟩ := h'.reached
  refine ⟨⟨i + j, run_add _ _ _ _⟩, h'.inString, ?_,
    ⟨h.even.1.trans h'.even.1, h.even.2.trans h'.even.2⟩, h'.ended.trans h.ended⟩
  rw [Cursor.forwardN_add]
  refine h'.along.trans (h.along.forwardN Category.renames_lump ?_ l)
  rw [h.inString.state, Cursor.state_forwardN, hp.state]

theorem InString.forward (h : InString s c) (ha : c.ahead = b :: t) (hb : b ≠ newline) :
    InString s c.forward := by
  exact ⟨by rw [Cursor.state_forward, h.state], h.braced, Cursor.atLineStart_forward_cons ha hb⟩

theorem leave_inString (config : Config) (m : Memory) (h : InString s c) :
    leave config c m = leaveLiteral config c m := by
  rw [leave, h.state]
  rcases h.braced with rfl | rfl <;> rfl

/-- Within a string the rules answer what the literal does. -/
theorem dispatch_inString {config : Config} (h : InString s c) {a : Rule}
    (hrule : leaveLiteral config c m = a) (ha : a.cursor.state ≠ .plain) :
    (grammar config).dispatch c m = a := by
  have hleave : (grammar config).leave c m = a := (leave_inString config m h).trans hrule
  rw [Grammar.dispatch, hleave]
  cases a with
  | pass d n => exact if_neg ha
  | again d n => rfl

/-- A byte that neither closes the string nor begins an escape is passed. -/
theorem leaveLiteral_passes (words : WordSets) (m : Memory) (h : InString s c) (hb : c.byte = b)
    (hclose : stops (closer s) b = false) (hback : b ≠ backslash ∨ s = .multilineString) :
    leaveLiteral (unmarked words) c m = .pass c m := by
  have hquote : ¬(b = quote ∧ s = .string) := by
    rintro ⟨rfl, rfl⟩
    cases hclose
  unfold leaveLiteral
  rw [hb, h.state, if_neg h.not_atLineStart, if_neg, if_neg, if_neg hquote, if_neg]
  · rintro ⟨-, -, hmarked⟩
    cases hmarked
  · exact fun hchar => h.isLiteral.2 hchar.2
  · rintro ⟨hb, hs⟩
    exact hback.elim (fun h => h hb) hs

theorem ne_newline_of_stops {e : Option Byte} (h : stops e b = false) : b ≠ newline := by
  rintro rfl
  cases h

theorem over_byte (words : WordSets) (h : InString s p.cursor) (ha : p.cursor.ahead = b :: t)
    (hclose : stops (closer s) b = false) (hback : b ≠ backslash ∨ s = .multilineString) :
    ∃ q, Over words s p 1 q := by
  have hnl := ne_newline_of_stops hclose
  have hmore : p.cursor.more = true := by simp [Cursor.more, ha]
  have hplain : p.cursor.state ≠ .plain := h.state ▸ h.ne_plain
  have hrule := dispatch_inString h
    (leaveLiteral_passes words p.data h (Cursor.byte_cons ha) hclose hback) hplain
  have hstep : p.run (grammar (unmarked words)) 1 =
      { p with cursor := p.cursor.forward, rescans := 0 } := by
    rw [run_succ _ 0 p hmore, step_of_pass hrule, Pass.run]
    exact advance_of_ne _ ha hnl
  refine ⟨_, ⟨1, hstep⟩, h.forward ha hnl, ?_, ⟨rfl, rfl⟩, rfl⟩
  rw [Cursor.forwardN_succ]
  exact .refl _

/-- Behind two bytes of an escape, a scan stands where one does that has passed them one by one. -/
theorem after_pair {a : Byte} (h : InString s c) (ha : c.ahead = a :: b :: t) (hb : b ≠ newline) :
    let e := (c.switch .escape).forward.forward
    e.state = .escape ∧ e.ahead = t ∧ e.atLineStart = false ∧
      e.Along Category.lump (c.forwardN 2) := by
  intro e
  have hahead := Cursor.ahead_forward_cons (c := c.switch .escape) ha
  have hlump : Category.lump .escape = c.state.lump := by
    rw [h.state, h.lump]
    rfl
  refine ⟨?_, ?_, ?_, ?_⟩
  · change (c.switch .escape).forward.forward.state = _
    rw [Cursor.state_forward, Cursor.state_forward]
    rfl
  · exact Cursor.ahead_forward_cons hahead
  · exact Cursor.atLineStart_forward_cons hahead hb
  · have hswitch : (c.switch .escape).Along Category.lump c := (Cursor.Along.refl _).switch_left _
    have hforward := hswitch.forwardN Category.renames_lump hlump 2
    rwa [Cursor.forwardN_succ (c.switch .escape), Cursor.forwardN_succ] at hforward

/-- Two bytes that the rules take for an escape are passed at once. -/
theorem step_pair {config : Config} {a : Byte} (h : InString s p.cursor)
    (ha : p.cursor.ahead = a :: b :: t) (hb : b ≠ newline)
    (hrule : leaveLiteral config p.cursor p.data =
      .pass (p.cursor.switch .escape).forward { p.data with escape := .single s }) :
    p.step (grammar config) =
      { p with
        cursor := (p.cursor.switch .escape).forward.forward
        data := { p.data with escape := .single s }
        rescans := 0 } := by
  have hstate : ((p.cursor.switch .escape).forward).state ≠ .plain := by
    rw [Cursor.state_forward]
    nofun
  have hahead := Cursor.ahead_forward_cons (c := p.cursor.switch .escape) ha
  rw [step_of_pass (dispatch_inString h hrule hstate)]
  exact advance_of_ne (p := { p with cursor := _, data := _ }) _ hahead hb

theorem leave_single {config : Config} (hstate : c.state = .escape)
    (hescape : m.escape = .single s) : (grammar config).leave c m =
      .again (c.switch s) { m with escape := (Escape.single s).count } := by
  change leave config c m = _
  rw [leave, hstate]
  change m.escape.leave c _ = _
  rw [hescape]
  rfl

/-- Behind an escape of two bytes the scan is in the string again. -/
theorem step_single {config : Config} (hstate : p.cursor.state = .escape)
    (hescape : p.data.escape = .single s) (hfew : p.rescans + 1 ≤ maxRescans) :
    p.step (grammar config) =
      { p with
        cursor := p.cursor.switch s
        data := { p.data with escape := (Escape.single s).count }
        rescans := p.rescans + 1 } := by
  have hrule : (grammar config).dispatch p.cursor p.data =
      .again (p.cursor.switch s) { p.data with escape := (Escape.single s).count } := by
    rw [Grammar.dispatch, leave_single hstate hescape]
  have hsame : (if (p.cursor.switch s).pos = p.cursor.pos then p.rescans + 1 else 1) =
      p.rescans + 1 := if_pos rfl
  rw [step_of_again hrule (Nat.le_trans (Nat.le_of_eq hsame) hfew), hsame]

/-- A backslash before a mark of alignment begins an escape that ends behind the mark. -/
theorem leaveLiteral_escapes (words : WordSets) (m : Memory) {mark : Byte} (h : InString .string c)
    (ha : c.ahead = backslash :: mark :: t) (hmark : Placeholder.isAlignment mark = true) :
    leaveLiteral (unmarked words) c m =
      .pass (c.switch .escape).forward { m with escape := .single .string } := by
  have hnext : c.next = mark := by
    rw [Cursor.next, Cursor.peek, ha]
    rfl
  have hfacts : ¬(isLineEnd mark = true ∨ mark = 0) ∧ mark ≠ lowerU ∧
      escapes.lengthFor mark = 1 := by
    rcases Placeholder.eq_of_isAlignment hmark with rfl | rfl | rfl <;> decide
  obtain ⟨hgoes, hbraced, hlength⟩ := hfacts
  have hreads : (c.switch .escape).forward.reads lowerU lbrace ≠ true := by
    rw [Ne, Cursor.reads_iff, Cursor.byte_forward]
    exact fun hr => hbraced (hnext.symm.trans hr.1)
  have hback : c.byte = backslash ∧ c.state ≠ .multilineString :=
    ⟨Cursor.byte_cons ha, by rw [h.state]; decide⟩
  unfold leaveLiteral Escape.enter
  rw [if_neg h.not_atLineStart, if_pos hback, hnext, if_neg hgoes, if_neg fun hr => hreads hr.2,
    Escape.start, hlength, h.state]
  rfl

theorem over_filled (words : WordSets) {mark : Byte} (h : InString .string p.cursor)
    (ha : p.cursor.ahead = backslash :: mark :: t) (hmark : Placeholder.isAlignment mark = true)
    (hclose : stops (closer .string) mark = false) (ht : t ≠ []) :
    ∃ q, Over words .string p 2 q := by
  have hnl := ne_newline_of_stops hclose
  have hmore : p.cursor.more = true := by simp [Cursor.more, ha]
  obtain ⟨hstate, hahead, hinside, halong⟩ := after_pair h ha hnl
  have hfirst := step_pair h ha hnl (leaveLiteral_escapes words p.data h ha hmark)
  generalize hq : p.step (grammar (unmarked words)) = q at hfirst
  have hcursor : q.cursor = (p.cursor.switch .escape).forward.forward := by rw [hfirst]
  have hmore' : q.cursor.more = true := by simp [Cursor.more, hcursor, hahead, ht]
  have hfew : q.rescans + 1 ≤ maxRescans := by
    rw [hfirst]
    change 0 + 1 ≤ maxRescans
    decide
  have hescape : q.data.escape = .single .string := by rw [hfirst]
  have hrun : p.run (grammar (unmarked words)) 2 = q.step (grammar (unmarked words)) := by
    rw [run_succ _ 1 p hmore, hq, run_succ _ 0 q hmore', Pass.run]
  refine ⟨_, ⟨2, hrun.trans (step_single (hcursor ▸ hstate) hescape hfew)⟩,
    ⟨rfl, h.braced, hcursor ▸ hinside⟩, (hcursor ▸ halong).switch_left _, ?_, ?_⟩
  · rw [hfirst]
    exact ⟨rfl, rfl⟩
  · rw [hfirst]

/-- **The unmarked scan passes what can stand in a placeholder.** -/
theorem over_tame (words : WordSets) (hw : Tame w) (hpass : Passable (closer s) w)
    (h : InString s p.cursor) (ha : p.cursor.ahead = w ++ t) (ht : t ≠ []) :
    ∃ q, Over words s p w.length q := by
  induction hw generalizing p with
  | nil => exact ⟨p, .refl h⟩
  | @byte b w hb hw ih =>
    obtain ⟨q, hq⟩ := over_byte words h ha hpass.head (.inl hb)
    have hahead : q.cursor.ahead = w ++ t := by
      rw [hq.ahead, ha]
      rfl
    obtain ⟨r, hr⟩ := ih hpass.tail hq.inString hahead
    exact ⟨r, by rw [List.length_cons, Nat.add_comm]; exact hq.trans h hr⟩
  | @filled mark w hmark hw ih =>
    have hne : w ++ t ≠ [] := by simp [ht]
    obtain ⟨q, hq⟩ : ∃ q, Over words s p 2 q := by
      rcases h.braced with rfl | rfl
      · exact over_filled words h ha hmark hpass.tail.head hne
      · obtain ⟨q, hq⟩ := over_byte words h ha hpass.head (.inr rfl)
        have hahead : q.cursor.ahead = mark :: (w ++ t) := by
          rw [hq.ahead, ha]
          rfl
        obtain ⟨r, hr⟩ := over_byte words hq.inString hahead hpass.tail.head (.inr rfl)
        exact ⟨r, hq.trans h hr⟩
    have hahead : q.cursor.ahead = w ++ t := by
      rw [hq.ahead, ha]
      rfl
    obtain ⟨r, hr⟩ := ih hpass.tail.tail hq.inString hahead
    have hlength : (backslash :: mark :: w).length = 2 + w.length := Nat.add_comm w.length 2
    exact ⟨r, hlength ▸ hq.trans h hr⟩

/-- **The unmarked scan comes through every placeholder,** and stands behind it in the string. -/
theorem over_placeholder (words : WordSets) {P : Placeholder} (h : InString s p.cursor)
    (hP : Placeholder.read (closer s) p.cursor.ahead = some P) :
    ∃ q, Over words s p P.length q := by
  obtain ⟨d, ⟨⟨u, hu⟩, hpass⟩, rfl⟩ := Placeholder.exists_of_read hP
  have hopen : stops (closer s) lbrace = false := by
    rcases h.braced with rfl | rfl <;> rfl
  have hinner : Passable (closer s) (d.inner ++ [rbrace]) := hpass
  have hbody : Passable (closer s) (lbrace :: d.inner) :=
    List.forall_mem_cons.2 ⟨hopen, hinner.left⟩
  have hahead : p.cursor.ahead = (lbrace :: d.inner) ++ rbrace :: u := by
    rw [← hu]
    simp [Placeholder.Derivation.text]
  obtain ⟨q, hq⟩ := over_tame words d.tame hbody h hahead (List.cons_ne_nil _ _)
  have hclose : q.cursor.ahead = rbrace :: u := by
    rw [hq.ahead, hahead, List.drop_left]
  obtain ⟨r, hr⟩ := over_byte words hq.inString hclose hinner.right.head (.inl (by decide))
  have hlength : d.placeholder.length = (lbrace :: d.inner).length + 1 := by
    simp [Placeholder.Derivation.placeholder, Placeholder.Derivation.text]
  exact ⟨r, hlength ▸ hq.trans h hr⟩

end Zig

end Highlight
