import Highlight.Proofs.Line.State
import Highlight.Proofs.Scan.InLine
import Highlight.Proofs.Session.Committed
import Highlight.Proofs.Session.Resumed
import Mathlib.Data.List.TakeWhile

/-!
The indent of a line. A cursor counts spaces and tabs as long as nothing visible was passed on its
line; so wherever it stands, whatever the rules did on the way and wherever it began, it has counted
those that lead the line so far (`Cursor.Indents`). With the whole line passed that is the leading
width of the line, and nothing of what is before the line has a part in it
(`Session.KeepsIndents`).
-/

namespace Highlight

open Byte

/-! ### The leading width -/

/-- The leading width of a line: how many spaces and tabs it has before its first byte that is no
white space. -/
def Text.leadingWidth (line : Text) : Nat := (line.takeWhile isSpace).countP isBlank

theorem Byte.isSpace_of_isBlank {b : Byte} (h : isBlank b = true) : isSpace b = true := by
  simp [isSpace, h]

/-- One more byte widens the line only if it is blank and nothing visible is before it. -/
theorem Text.leadingWidth_concat (line : Text) (b : Byte) :
    Text.leadingWidth (line ++ [b]) =
      if line.countP (fun b => !isSpace b) = 0 ∧ isBlank b = true then line.leadingWidth + 1
      else line.leadingWidth := by
  unfold Text.leadingWidth
  induction line with
  | nil =>
    by_cases hb : isBlank b = true
    · simp [hb, isSpace_of_isBlank hb]
    · by_cases hs : isSpace b = true <;> simp [hb, hs]
  | cons a line ih =>
    by_cases ha : isSpace a = true
    · rw [List.cons_append, List.takeWhile_cons_of_pos ha, List.takeWhile_cons_of_pos ha,
        List.countP_cons, List.countP_cons, List.countP_cons, ih]
      simp only [ha, Bool.not_true, Bool.false_eq_true, if_false, Nat.add_zero]
      split_ifs <;> omega
    · rw [List.cons_append, List.takeWhile_cons_of_neg ha, List.takeWhile_cons_of_neg ha,
        List.countP_cons]
      simp [ha]

/-- The newline of a line has no part in its width. -/
theorem Text.leadingWidth_newline (line : Text) :
    Text.leadingWidth (line ++ [newline]) = line.leadingWidth := by
  rw [Text.leadingWidth_concat, if_neg]
  rintro ⟨-, hblank⟩
  exact absurd hblank (by decide)

/-! ### On the way -/

variable {σ ζ : Type} [Palette σ]

theorem Trail.indent_pass (t : Trail σ) (b : Byte) (s : σ) :
    (t.pass b s).indent = if t.visible = 0 ∧ isBlank b = true then t.indent + 1 else t.indent := by
  unfold Trail.pass
  by_cases hs : isSpace b = true
  · rw [if_pos hs]
    split <;> rfl
  · have hb : ¬(t.visible = 0 ∧ isBlank b = true) := fun h => hs (isSpace_of_isBlank h.2)
    rw [if_neg hs, if_neg hb]
    split <;> rfl

namespace Cursor

/-- The cursor has counted the spaces and tabs that lead its line as far as it has come. -/
def Indents (text : Text) (c : Cursor σ) : Prop :=
  c.trail.indent = Text.leadingWidth (text.lineBehind c.pos).reverse

variable {text : Text} {stop : Nat} {c d : Cursor σ}

theorem Indents.forward (h : c.Indents text) (ht : c.Tells text stop) (hb : c.byte ≠ newline) :
    c.forward.Indents text := by
  cases ha : c.ahead with
  | nil => rwa [forward_nil ha]
  | cons b t =>
    have hvisible : c.trail.visible = _ := ht.visible
    have hindent : c.trail.indent = _ := h
    have hbehind := lineBehind_succ ht.toStands ha
    rw [byte_cons ha] at hb
    rw [if_neg hb] at hbehind
    rw [Indents, forward_cons ha, hbehind, List.reverse_cons, Text.leadingWidth_concat,
      List.countP_reverse, Trail.indent_pass, hvisible, hindent]

/-- Moves within the line keep count. -/
theorem Indents.within (h : c.Indents text) (ht : c.Tells text stop) (hm : c.Within d) :
    d.Indents text := by
  induction hm with
  | refl => exact h
  | forward hm hb ih => exact ih.forward (ht.within hm) hb
  | switch _ s ih => exact ih
  | recolor _ s ih => exact ih
  | remember _ s ih => exact ih

/-- Behind the end of a line the count begins again. -/
theorem Tells.indents_overEnd (ht : c.Tells text stop) (hend : c.atLineEnd = true) :
    c.newLine.forward.Indents text := by
  obtain ⟨t, ha, -⟩ := ahead_of_atLineEnd hend
  have hstands : c.newLine.Stands text stop := ht.toStands.look _
  have hbehind := lineBehind_succ hstands ha
  rw [if_pos rfl] at hbehind
  rw [Indents, forward_cons (c := c.newLine) ha, hbehind, Trail.indent_pass, if_neg]
  · rfl
  · rintro ⟨-, hblank⟩
    exact absurd hblank (by decide)

end Cursor

/-- Rules that stay in their line have no influence on the count. -/
theorem Grammar.StaysInLine.maintains_indents {g : Grammar σ ζ} (hg : g.StaysInLine) (text : Text)
    (stop : Nat) : g.Maintains text stop fun c _ => c.Indents text where
  leave ht h := h.within ht (hg.leave _ _)
  enter ht _ h := h.within ht (hg.enter _ _)
  forward ht ha hb h := h.forward ht (Cursor.byte_cons ha ▸ hb)
  endLine ht hend _ := ht.indents_overEnd hend

/-! ### Where a line is summed up -/

namespace Pass

variable {g : Grammar σ ζ} {text : Text} {start len : Nat}

/-- A scan that begins with a line begins with nothing counted. -/
theorem holds_outset (hg : g.StaysInLine) (h : start + len ≤ text.length)
    (hline : text.lineBehind start = []) (s : σ) (store : LineStore) (styles : Styles σ) :
    (outset g text start len s store styles).Holds text start (start + len)
      ((text.take start).count newline) fun c _ => c.Indents text := by
  have hstands := Cursor.stands_ofPart h s styles
  obtain ⟨hvisible, hindent⟩ := Trail.ofStyled_counts (styles.styled (text.take start))
  have hpos := Cursor.pos_ofPart h s styles
  have htells : (Cursor.ofPart text start len s styles).Tells text (start + len) := by
    refine ⟨hstands, ?_⟩
    rw [hpos, hline]
    exact hvisible
  have hindents : (Cursor.ofPart text start len s styles).Indents text := by
    rw [Cursor.Indents, hpos, hline]
    exact hindent
  have hmoves := hg.begin (Cursor.ofPart text start len s styles)
    (store.stateBefore (Cursor.ofPart text start len s styles).line)
  exact ⟨orderly_outset hg h s store styles, htells.within hmoves, hindents.within htells hmoves⟩

variable [DecidableEq σ] {inv : Cursor σ → ζ → Prop} {o : Pass σ ζ} {stop first : Nat}

/-- What the rules keep from place to place holds wherever a line is summed up. -/
theorem Records.holds (hg : g.StaysInLine) (hi : g.Maintains text stop inv)
    (h : o.Holds text start stop first inv) {e : Nat × LineState} (he : o.Records g text e) :
    ∃ q : Pass σ ζ, e = q.summary g ∧ q.Holds text start stop first inv ∧
      e.1 = (text.take q.cursor.pos).count newline ∧
      (text[q.cursor.pos]? = some newline ∨
        q.cursor.pos = text.length ∧ text.getLast? ≠ some newline) := by
  obtain ⟨q, hsummary, hline, ⟨hover, hnewline⟩ | ⟨harrives, hend⟩⟩ := he
  · exact ⟨q, hsummary, GoesOver.holds hg hi h hover, hline, .inl hnewline⟩
  · exact ⟨q, hsummary, Arrives.holds hg hi h harrives, hline, .inr hend⟩

end Pass

/-! ### The line of a place -/

namespace Text

variable {text : Text} {o : Nat}

/-- Where a line begins nothing of it is behind. -/
theorem lineBehind_start? {l : Nat} (hl : (LineTable.ofText text).start? l = some o) :
    text.lineBehind o = [] := by
  unfold lineBehind
  rcases (LineTable.take_start? hl).2.2 with ⟨-, rfl⟩ | hlast
  · rfl
  · rw [← List.head?_reverse] at hlast
    cases hrev : (text.take o).reverse with
    | nil => rfl
    | cons b t =>
      rw [hrev] at hlast
      simp [Option.some.inj hlast]

/-- What is before a place is whole lines, and then what its own line has there. -/
theorem exists_lineBehind (text : Text) (o : Nat) :
    ∃ a, text.take o = a ++ (text.lineBehind o).reverse ∧ (a = [] ∨ a.getLast? = some newline) ∧
      (text.lineBehind o).reverse.count newline = 0 := by
  refine ⟨((text.take o).reverse.dropWhile fun b => b ≠ newline).reverse, ?_, ?_, ?_⟩
  · rw [lineBehind, ← List.reverse_append, List.takeWhile_append_dropWhile, List.reverse_reverse]
  · rw [List.getLast?_reverse, List.reverse_eq_nil_iff]
    cases hrest : (text.take o).reverse.dropWhile fun b => b ≠ newline with
    | nil => exact .inl rfl
    | cons b t =>
      have hb := List.head?_dropWhile_not (fun b => decide (b ≠ newline)) (text.take o).reverse
      rw [hrest] at hb
      exact .inr (congrArg some (by simpa using hb))
  · rw [List.count_reverse, List.count_eq_zero]
    intro hmem
    simpa using List.mem_takeWhile_imp hmem

/-- A line behind whole lines, if it is closed by a newline or is the last one. -/
theorem line?_append {a l u : Text} (ha : a = [] ∨ a.getLast? = some newline)
    (hl : l.getLast? = some newline ∧ l.count newline = 1 ∨ l.count newline = 0 ∧ u = []) :
    line? (a ++ (l ++ u)) (a.count newline) = some l := by
  have hstart : (LineTable.ofText (a ++ (l ++ u))).start? (a.count newline) = some a.length := by
    rcases ha with rfl | ha
    · exact LineTable.start?_zero _
    · exact LineTable.start?_of_split ha
  have hstop : ((LineTable.ofText (a ++ (l ++ u))).start? (a.count newline + 1)).getD
      (a ++ (l ++ u)).length = (a ++ l).length := by
    rcases hl with ⟨hlast, hone⟩ | ⟨hnone, rfl⟩
    · have hclosed : (a ++ l).getLast? = some newline := by rw [List.getLast?_append, hlast]; rfl
      have hnext := LineTable.start?_of_split (u := u) hclosed
      rw [List.count_append, hone, List.append_assoc] at hnext
      rw [hnext, Option.getD_some]
    · have hcount := LineTable.count_ofText (a ++ (l ++ []))
      rw [List.append_nil, List.count_append, hnone] at hcount
      have hnext : (LineTable.ofText (a ++ (l ++ []))).start? (a.count newline + 1) = none := by
        rw [List.append_nil]
        exact Array.getElem?_eq_none (Nat.le_of_eq hcount)
      rw [hnext, Option.getD_none, List.append_nil]
  unfold line?
  rw [hstart, LineTable.stop?_eq hstart, hstop]
  simp only
  rw [← List.append_assoc, List.take_left, List.drop_left]

/-- The line that ends with the newline at a place. -/
theorem line?_of_newline (h : text[o]? = some newline) :
    text.line? ((text.take o).count newline) =
      some ((text.lineBehind o).reverse ++ [newline]) := by
  obtain ⟨a, htake, ha, hnone⟩ := exists_lineBehind text o
  have hsplit : text = a ++ (((text.lineBehind o).reverse ++ [newline]) ++ text.drop (o + 1)) := by
    rw [← List.append_assoc, ← List.append_assoc, ← htake]
    have hsucc := List.take_add_one (l := text) (i := o)
    rw [h, Option.toList_some] at hsucc
    rw [← hsucc, List.take_append_drop]
  have hcount : (text.take o).count newline = a.count newline := by
    rw [htake, List.count_append, hnone, Nat.add_zero]
  have hline := line?_append (u := text.drop (o + 1)) ha
    (.inl ⟨List.getLast?_concat, by rw [List.count_append, hnone]; rfl⟩)
  rw [← hsplit, ← hcount] at hline
  exact hline

/-- The line that ends with the text. -/
theorem line?_at_end (text : Text) :
    text.line? (text.count newline) = some (text.lineBehind text.length).reverse := by
  obtain ⟨a, htake, ha, hnone⟩ := exists_lineBehind text text.length
  rw [List.take_length] at htake
  have hline := line?_append ha (.inr ⟨hnone, rfl⟩)
  rw [List.append_nil, ← htake] at hline
  have hcount : text.count newline = a.count newline := by
    conv_lhs => rw [htake]
    rw [List.count_append, hnone, Nat.add_zero]
  rwa [hcount]

end Text

/-! ### What is kept -/

variable [DecidableEq σ]

/-- What was counted where a line was summed up is the leading width of the line. -/
theorem Pass.Records.exists_line {g : Grammar σ ζ} {text : Text} {start stop first : Nat}
    {o : Pass σ ζ} (hg : g.StaysInLine)
    (h : o.Holds text start stop first fun c _ => c.Indents text) {e : Nat × LineState}
    (he : o.Records g text e) :
    ∃ q : Pass σ ζ, e = q.summary g ∧
      ∃ line, text.line? e.1 = some line ∧ q.cursor.trail.indent = line.leadingWidth := by
  obtain ⟨q, hsummary, hq, hline, hend⟩ := he.holds hg (hg.maintains_indents text stop) h
  refine ⟨q, hsummary, ?_⟩
  rw [hline]
  rcases hend with hnewline | ⟨hpos, -⟩
  · refine ⟨_, Text.line?_of_newline hnewline, ?_⟩
    rw [Text.leadingWidth_newline]
    exact hq.holds
  · refine ⟨(text.lineBehind q.cursor.pos).reverse, ?_, hq.holds⟩
    rw [hpos, List.take_length]
    exact Text.line?_at_end text

/-- The language sums up a line with the indent that was counted, as far as there is room for it. -/
def Grammar.SumsIndent (g : Grammar σ ζ) : Prop :=
  ∀ (c : Cursor σ) z, (g.endLine c z).1.indent.toNat = min c.trail.indent 65535

namespace Session

/-- Whatever part of a text is scanned, from the beginning of whatever line on, in whatever state and
with whatever is kept of earlier scans: the scan succeeds, and every line that it has ended is kept
with the leading width of that line. -/
def KeepsIndents (g : Grammar σ ζ) : Prop :=
  ∀ {text : Text} {l start len : Nat}, (LineTable.ofText text).start? l = some start →
    start + len ≤ text.length → ∀ (s : σ) (store : LineStore) (styles : Styles σ),
      ∃ found store', scan g text start len s store styles = .ok (found, store') ∧
        found.firstLine = l ∧ found.nextLine = l + text.linesEnding start len ∧
        ∀ i, found.firstLine ≤ i → i < found.nextLine → ∃ line, text.line? i = some line ∧
          (store'.state i).indent.toNat = min line.leadingWidth 65535

theorem keepsIndents_of_staysInLine {g : Grammar σ ζ} (hg : g.StaysInLine) (hi : g.SumsIndent) :
    KeepsIndents g := by
  intro text l start len hl hle s store styles
  obtain ⟨found, writes, h⟩ := exists_commitsLines hg hl hle s store styles
  refine ⟨found, _, h.answer, h.firstLine, h.nextLine, fun i hlo hhi => ?_⟩
  rw [h.firstLine] at hlo
  rw [h.nextLine] at hhi
  have hmem : i ∈ writes.map Prod.fst := by
    rw [h.lines, List.mem_range'_1]
    exact ⟨hlo, hhi⟩
  obtain ⟨e, he, rfl⟩ := List.mem_map.1 hmem
  have hbehind : text.lineBehind start = [] := Text.lineBehind_start? hl
  obtain ⟨q, hq, line, hline, hindent⟩ :=
    (h.records e he).exists_line hg (Pass.holds_outset hg hle hbehind s store styles)
  refine ⟨line, hline, ?_⟩
  rw [LineStore.state, h.written e he, LineState.decode_encode, ← hindent, hq]
  exact hi q.cursor q.data

end Session

open Session

/-- **The indent that is kept of a line is its leading width**, in every language that sums up its
lines. -/
theorem indents_by_width (zig : Zig.Config) (words : WordSets) (scala : Scala.Config) :
    KeepsIndents (Scala.grammar scala) ∧ KeepsIndents (Zig.grammar zig) ∧
      KeepsIndents (Toml.grammar words) ∧ KeepsIndents Toy.grammar :=
  ⟨keepsIndents_of_staysInLine (Scala.staysInLine scala) fun _ _ => (LineState.toNat_of _ _ _).2,
    keepsIndents_of_staysInLine (Zig.staysInLine zig) fun _ _ => (LineState.toNat_of _ _ _).2,
    keepsIndents_of_staysInLine (Toml.staysInLine words) fun _ _ => (LineState.toNat_of _ _ _).2,
    keepsIndents_of_staysInLine Toy.staysInLine fun _ _ => (LineState.toNat_of _ _ _).2⟩

/-- Within a string, scanned from its second line on: a carriage return is white space that is not
counted, and a last line of nothing but tabs counts them all. -/
theorem indents_by_width_in_string :
    let g := Toml.grammar {}
    let text : Text := [quote, quote, quote, newline, space, tab, carriageReturn, space, 0x62,
      newline, tab, tab]
    (LineTable.ofText text).start? 1 = some 4 ∧ 4 + 8 ≤ text.length ∧
      ∃ found store', scan g text 4 8 .tripleString #[] #[] = .ok (found, store') ∧
        (store'.state 1).indent.toNat = 3 ∧ (store'.state 2).indent.toNat = 2 := by
  intro g text
  have hl : (LineTable.ofText text).start? 1 = some 4 := by decide
  have hle : 4 + 8 ≤ text.length := by decide
  obtain ⟨-, -, htoml, -⟩ := indents_by_width { words := {} } {} { words := {} }
  obtain ⟨found, store', hscan, hfirst, hnext, hlines⟩ := htoml hl hle .tripleString #[] #[]
  have hcount : text.linesEnding 4 8 = 2 := by decide
  rw [hcount] at hnext
  have hwidth : ∀ i w, 1 ≤ i → i < 3 → (text.line? i).map Text.leadingWidth = some w → w ≤ 65535 →
      (store'.state i).indent.toNat = w := by
    intro i w hlo hhi hline hroom
    obtain ⟨line, hi, hindent⟩ := hlines i (by omega) (by omega)
    rw [hi, Option.map_some, Option.some.injEq] at hline
    rw [hindent, hline, Nat.min_eq_left hroom]
  exact ⟨hl, hle, found, store', hscan,
    hwidth 1 3 (by decide) (by decide) (by decide) (by decide),
    hwidth 2 2 (by decide) (by decide) (by decide) (by decide)⟩

end Highlight
