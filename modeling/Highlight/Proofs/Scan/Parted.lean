import Highlight.Proofs.Characters
import Highlight.Proofs.Scan.Careful
import Highlight.Proofs.Scan.Fresh
import Highlight.Proofs.Scan.Orderly
import Highlight.Proofs.Scan.Runs
import Highlight.Proofs.Scan.Settling

/-!
Runs that end well. A careful scan of a text that spells characters ends its runs where characters
end, but for escapes that break one: so do the runs that are closed wherever it comes
(`Pass.Parted.run`), and all of them at the end (`Pass.endsWell_fresh`).
-/

namespace Highlight

open Byte

variable {σ ζ : Type}

/-! ### Runs that end within a character -/

/-- The run is of an escape, and ends with a backslash and the first byte of a character outside
ASCII. -/
structure Run.Breaks (escape : σ → Prop) (text : Text) (r : Run σ) : Prop where
  escape : escape r.category
  len : 2 ≤ r.len
  backslash : text[r.stop - 2]? = some backslash
  first : ∃ b, text[r.stop - 1]? = some b ∧ ¬b < 0x80

/-- The run ends where a character does, or breaks one. -/
def Run.EndsWell (escape : σ → Prop) (text : Text) (r : Run σ) : Prop :=
  text.Between r.stop ∨ r.Breaks escape text

variable {escape : σ → Prop} {c d : Cursor σ} {g : Grammar σ ζ} {k : Care σ ζ} [Palette σ]

/-! ### Closed runs -/

/-- The cursor knows where it stands in the text, the characters from there on, and the bytes of the
run in progress; and every run that is closed ends well. -/
structure Cursor.Parted [DecidableEq σ] (escape : σ → Prop) (text : Text) (c : Cursor σ) :
    Prop where
  stands : c.Stands text text.length
  spelled : c.Spelled
  word : c.word.reverse <:+ text.take c.pos
  closed : ∀ r ∈ c.closedRuns, r.EndsWell escape text

namespace Cursor.Parted

variable [DecidableEq σ] {text : Text}

omit [Palette σ] in
theorem between (h : c.Parted escape text) (hc : c.AtCharacter) : text.Between c.pos := by
  intro b hb
  have hlt := (List.getElem?_eq_some_iff.1 hb).1
  have hbyte := h.stands.peek 0
  rw [if_pos (by exact hlt), Nat.add_zero, List.getD_eq_getElem?_getD, hb] at hbyte
  exact (show c.byte = b from hbyte) ▸ hc

omit [Palette σ] in
/-- The bytes of the run in progress, the last one first, are those before the place. -/
theorem getElem?_word (h : c.Parted escape text) {k : Nat} {b : Byte} (hb : c.word[k]? = some b) :
    text[c.pos - 1 - k]? = some b := by
  obtain ⟨t, ht⟩ := h.word
  have hk : k < c.word.length := (List.getElem?_eq_some_iff.1 hb).1
  have hpos : c.pos = t.length + c.word.length := by
    have hlen := congrArg List.length ht
    rw [List.length_append, List.length_reverse, List.length_take,
      Nat.min_eq_left h.stands.le] at hlen
    exact hlen.symm
  have hlast : c.word.length - 1 - (c.pos - 1 - k - t.length) = k := by omega
  calc text[c.pos - 1 - k]?
      = (t ++ c.word.reverse)[c.pos - 1 - k]? := by
        rw [ht, List.getElem?_take_of_lt (by omega)]
    _ = c.word.reverse[c.pos - 1 - k - t.length]? := List.getElem?_append_right (by omega)
    _ = c.word[k]? := by rw [List.getElem?_reverse (by omega), hlast]
    _ = some b := hb

omit [Palette σ] in
/-- A run in progress that ends like a broken escape breaks one. -/
theorem breaks (h : c.Parted escape text) (hs : escape c.state) (hb : c.Breaks) {r : Run σ}
    (hstop : r.stop = c.openRun.stop) (hcat : r.category = c.state)
    (hlen : c.word.length ≤ r.len) : r.Breaks escape text := by
  obtain ⟨b, w, hw, hascii⟩ := hb
  rw [stop_openRun h.stands.pos] at hstop
  rw [hw, List.length_cons, List.length_cons] at hlen
  constructor
  case escape => exact hcat ▸ hs
  case len => omega
  case backslash =>
    rw [hstop]
    exact h.getElem?_word (k := 1) (by rw [hw]; rfl)
  case first =>
    refine ⟨b, ?_, hascii⟩
    rw [hstop]
    exact h.getElem?_word (k := 0) (by rw [hw]; rfl)

omit [Palette σ] in
/-- Where the run in progress may end, all runs end well. -/
theorem endsWell_runs (h : c.Parted escape text) (hend : c.MayEnd escape) :
    ∀ r ∈ c.runs, r.EndsWell escape text := by
  intro r hr
  rw [runs_eq_lay h.stands.pos] at hr
  rcases (tiles_closedRuns h.stands.pos).mem_lay hr with hr | ⟨hstop, hcat, hlen⟩
  · exact h.closed r hr
  · rcases hend with hc | ⟨hs, hb⟩
    · left
      rw [hstop, stop_openRun h.stands.pos]
      exact h.between hc
    · exact .inr (h.breaks hs hb hstop hcat hlen)

omit [Palette σ] in
/-- At the end of the text a run may end. -/
theorem endsWell_of_end (h : c.Parted escape text) (ha : c.ahead = []) :
    ∀ r ∈ c.runs, r.EndsWell escape text := by
  refine h.endsWell_runs (.inl (atCharacter_of_ascii ?_))
  rw [byte, peek, ha]
  decide

theorem outset (htext : (outset text : Cursor σ).Spelled) :
    (Cursor.outset text : Cursor σ).Parted escape text := by
  constructor
  case stands => exact ⟨rfl, Nat.zero_le _, by simp [Cursor.outset], rfl, rfl⟩
  case spelled => exact htext
  case word => exact List.nil_suffix
  case closed =>
    intro r hr
    exact absurd hr List.not_mem_nil

omit [Palette σ] in
theorem switch (h : c.Parted escape text) (hend : c.MayEnd escape) (s : σ) :
    (c.switch s).Parted escape text := by
  refine ⟨h.stands.switch s, h.spelled, List.nil_suffix, ?_⟩
  rw [closedRuns_switch]
  exact h.endsWell_runs hend

theorem forward (h : c.Parted escape text) : c.forward.Parted escape text := by
  refine ⟨h.stands.forward, h.spelled.forward, ?_, ?_⟩
  · cases ha : c.ahead with
    | nil =>
      rw [forward_nil ha]
      exact h.word
    | cons b t =>
      rw [forward_cons ha]
      obtain ⟨-, -, htake, -⟩ := h.stands.ahead_cons ha
      obtain ⟨u, hu⟩ := h.word
      refine ⟨u, ?_⟩
      change u ++ (b :: c.word).reverse = text.take (c.pos + 1)
      rw [htake, ← hu, List.reverse_cons, List.append_assoc]
  · rw [closedRuns_forward]
    exact h.closed

omit [Palette σ] in
/-- What is remembered has no part in it. -/
theorem look (h : c.Parted escape text) (t : Trail σ) :
    { c with trail := t }.Parted escape text :=
  ⟨h.stands.look t, h.spelled, h.word, h.closed⟩

/-- Careful moves keep the runs well ended. -/
theorem careful (h : c.Parted escape text) (hm : c.Careful escape d) : d.Parted escape text := by
  induction hm with
  | refl => exact h
  | forward _ ih => exact ih.forward
  | switch _ s hend ih => exact ih.switch hend s
  | recolor _ s ih => exact ⟨ih.stands.recolor s, ih.spelled, ih.word, ih.closed⟩
  | remember _ s ih => exact ih.look _

end Cursor.Parted

/-! ### Whole passes -/

namespace Pass

variable [DecidableEq σ] {text : Text} {p : Pass σ ζ}

/-- All runs closed so far end well, and the rules may be asked at the place of the pass. -/
structure Parted (k : Care σ ζ) (text : Text) (p : Pass σ ζ) : Prop where
  cursor : p.cursor.Parted k.escape text
  stand : p.cursor.MayStand k p.data

/-- Behind the end of a line a character begins, whatever the data have become. -/
theorem parted_advance (h : p.cursor.Parted k.escape text)
    (hstand : p.cursor.forward.MayStand k p.data) :
    (p.advance g).Parted k text := by
  by_cases hend : p.cursor.atLineEnd = true
  · have hnewLine : p.cursor.newLine.Parted k.escape text := h.look _
    obtain ⟨t, -, hb⟩ := Cursor.ahead_of_atLineEnd hend
    have hascii : p.cursor.newLine.byte < 0x80 := by
      change p.cursor.byte < 0x80
      rw [hb]
      decide
    obtain ⟨hcursor, -⟩ := advance_over g hend
    refine ⟨hcursor ▸ hnewLine.forward, .atCharacter ?_⟩
    rw [hcursor]
    exact hnewLine.spelled.atCharacter_forward hascii
  · have hadvance : p.advance g = { p with cursor := p.cursor.forward, rescans := 0 } := by
      simp [Pass.advance, hend]
    rw [hadvance]
    exact ⟨h.forward, hstand⟩

/-- **One step** that is not forced on leaves all runs well ended. -/
theorem Parted.step (hg : g.Careful k) (h : p.Parted k text)
    (hfew : ∀ d y, g.dispatch p.cursor p.data = .again d y →
      (if d.pos = p.cursor.pos then p.rescans + 1 else 1) ≤ maxRescans) :
    (p.step g).Parted k text := by
  have hcareful := hg.dispatch h.cursor.spelled h.stand
  cases hrule : g.dispatch p.cursor p.data with
  | pass d y =>
    rw [hrule] at hcareful
    obtain ⟨hd, hstand⟩ := hcareful
    rw [step_of_pass hrule]
    exact parted_advance (h.cursor.careful hd) hstand
  | again d y =>
    rw [hrule] at hcareful
    obtain ⟨hd, hstand⟩ := hcareful
    rw [step_of_again hrule (hfew d y hrule)]
    exact ⟨h.cursor.careful hd, hstand⟩

/-- **A whole run** leaves all runs well ended. -/
theorem Parted.run (hg : g.Careful k) (hlets : p.LetsGo g)
    (h : p.Parted k text) (n : Nat) : (p.run g n).Parted k text := by
  induction n with
  | zero => exact h
  | succ n ih =>
    rw [run_succ']
    split
    case isTrue hmore => exact ih.step hg fun d y => hlets.unforced n d y hmore
    case isFalse => exact ih

theorem Parted.leaveLast (hg : g.Careful k) (h : p.Parted k text) (n : Nat) :
    (p.leaveLast g n).cursor.Parted k.escape text := by
  induction n generalizing p with
  | zero => exact h.cursor
  | succ n ih =>
    have hcareful := hg.leave p.cursor p.data h.cursor.spelled h.stand
    unfold Pass.leaveLast
    cases hrule : g.leave p.cursor p.data with
    | pass d y =>
      rw [hrule] at hcareful
      exact h.cursor.careful hcareful.1
    | again d y =>
      rw [hrule] at hcareful
      obtain ⟨hd, hstand⟩ := hcareful
      exact ih (p := { p with cursor := d, data := y }) ⟨h.cursor.careful hd, hstand⟩

variable {rank : σ → Nat} {holds : ζ → Prop}

/-- **All runs of a scan end well**, of a text that spells characters. -/
theorem endsWell_fresh (hg : g.Careful k) (hs : g.Settles rank holds)
    (hm : g.StaysInLine) (htext : (Cursor.outset text : Cursor σ).Spelled)
    (hbegin : (Cursor.outset text : Cursor σ).AtCharacter) :
    ∀ r ∈ (fresh g text).cursor.runs, r.EndsWell k.escape text := by
  have hfirst : (first g text).Parted k text := by
    obtain ⟨hmoves, hstand⟩ := hg.begin _ {} htext hbegin
    exact ⟨(Cursor.Parted.outset htext).careful hmoves, hstand⟩
  have hlets : (first g text).LetsGo g := letsGo_of_settles hs hm (hs.begin _ _) rfl
  have hend := hfirst.run hg hlets (first g text).cost
  have hnil := hm.goesOn.ahead_run (p := first g text) (Nat.zero_le _)
  rw [fresh_eq]
  unfold finish
  split
  case isTrue =>
    have hmoves := (leaveLast_within hm maxRescans ((first g text).run g (first g text).cost)).1
    apply ((hend.leaveLast hg maxRescans).look _).endsWell_of_end
    exact List.suffix_nil.1 (hnil ▸ hmoves.onward.ahead)
  case isFalse => exact hend.cursor.endsWell_of_end hnil

end Pass

/-- The text of a string spells characters. -/
theorem Cursor.spelled_outset (s : String) :
    (Cursor.outset (Text.ofString s) : Cursor σ).Spelled := by
  have hnext : ∀ {i : Nat} {b : Byte}, (Text.ofString s).Between i →
      (Text.ofString s)[i]? = some b → b.IsUTF8FirstByte := fun h hb => h _ hb
  unfold Cursor.Spelled
  rw [List.isChain_iff_getElem]
  intro i hi hb
  cases i with
  | zero => exact hnext (Text.between_zero s) (List.getElem?_eq_getElem _)
  | succ i =>
    have hlt : i < (Text.ofString s).length := Nat.lt_of_succ_lt (Nat.lt_of_succ_lt_succ hi)
    have hget := List.getElem?_eq_getElem hlt
    have hbetween := (Text.between_succ_iff s hget (first_of_ascii hb)).2 hb
    exact hnext hbetween (List.getElem?_eq_getElem _)

theorem Cursor.atCharacter_outset (s : String) :
    (Cursor.outset (Text.ofString s) : Cursor σ).AtCharacter :=
  (Cursor.spelled_outset s).atCharacter (show (0 : Byte) < 0x80 by decide)

end Highlight
