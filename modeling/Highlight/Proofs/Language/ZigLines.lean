import Highlight.Proofs.Language.Zig
import Highlight.Proofs.Session.Lines
import Highlight.Proofs.Session.Reached

/-!
Zig goes line by line. Wherever a line begins, a scan knows of the text before it the last visible
byte and nothing else (`exists_begins`), and it never sums up a line as nested (`guards`). So the
same line gets the same categories in any two texts where that byte is the same, and a text can be
scanned again from any line.
-/

namespace Highlight.Zig

open Byte Pass

variable {config : Config} {c : Place} {m : Memory} {text : Text} {i o : Nat}

/-! ### No line is nested -/

theorem data_readPlaceholder : (readPlaceholder c m).data = m := by
  unfold readPlaceholder
  dsimp only
  split <;> rfl

theorem flags_leaveLiteral : (leaveLiteral config c m).data.flags = m.flags := by
  unfold leaveLiteral leaveBrace Escape.enter
  split_ifs <;> try rfl
  · dsimp only
    split_ifs <;> rfl
  · rw [data_readPlaceholder]

theorem flags_leave : (leave config c m).data.flags = m.flags := by
  have hname : (classifyName config c m).2.flags = m.flags := rfl
  unfold leave
  split
  case h_2 => split <;> rfl
  case h_3 =>
    split
    · rfl
    · exact hname
  case h_4 => split <;> rfl
  case h_5 | h_6 | h_7 => split <;> rfl
  case h_8 | h_9 | h_10 => exact flags_leaveLiteral
  case h_11 =>
    unfold Escape.leave
    dsimp only
    split <;> rfl
  all_goals rfl

theorem nested_enter : (enter c m).data.flags.nested = m.flags.nested := by
  unfold enter
  split
  case h_3 =>
    unfold enterPunctuation enterComment Memory.markComment Memory.markString
    split_ifs <;> rfl
  all_goals rfl

theorem guards (config : Config) :
    (grammar config).Guards (fun m => m.flags.nested = false)
      fun st => (LineState.decode st.encode).flags.nested = false where
  begin _ _ := rfl
  leave c m h := by
    change (leave config c m).data.flags.nested = false
    rw [flags_leave, h]
  enter c m h := nested_enter.trans h
  endLine c m h := by
    refine ⟨?_, rfl⟩
    rw [LineState.decode_encode]
    change (if _ then _ else _ : LineFlags).nested = false
    split
    · rfl
    · exact h

/-! ### Where a line begins -/

/-- Nothing is remembered of the lines before, but what no rule reads any more. -/
theorem exists_begins (config : Config) (ho : (LineTable.ofText text).start? i = some o) :
    ∃ q, Begins (grammar config) regime (text.take o) text q ∧ Finds (grammar config) text q ∧
      q.cursor.trail.visible = 0 ∧ q.cursor.trail.indent = 0 ∧ Even q.data {} := by
  have hg := keeps config
  obtain ⟨hcount, hle, hlast⟩ := LineTable.take_start? ho
  rcases hlast with ⟨-, rfl⟩ | hlast
  · refine ⟨first (grammar config) text, ⟨⟨0, by simp, rfl⟩, first_sound hg text, rfl, rfl, rfl,
      by rw [List.take_zero]; rfl⟩, ⟨⟨_, (List.append_nil _).symm⟩, _, (List.append_nil _).symm⟩,
      rfl, rfl, rfl, rfl⟩
  · obtain ⟨q, -, hq, -, -, hahead, -⟩ := comesBy hg hlast (text.drop o) (text.drop o)
    rw [List.take_append_drop] at hq
    obtain ⟨-, hvisible, hindent, -, d, z, -, -, -, hz, -⟩ := hq.atLineStart
    refine ⟨q, hq.begins (by rw [hahead, List.take_append_drop]), hq.finds hg, hvisible, hindent,
      ?_⟩
    rw [hz]
    exact ⟨rfl, rfl⟩

theorem state_settle (q : Pass Category Memory) : (q.settle regime).cursor.state = .plain := by
  unfold Pass.settle
  split
  case isTrue h => exact beq_iff_eq.1 h
  case isFalse => rfl

theorem abreast {a b A B : Text} {q q' : Pass Category Memory}
    (hq : Begins (grammar config) regime a A q) (hq' : Begins (grammar config) regime b B q')
    (hvisible : q.cursor.trail.visible = q'.cursor.trail.visible)
    (hindent : q.cursor.trail.indent = q'.cursor.trail.indent)
    (hbyte : q.cursor.trail.byte = q'.cursor.trail.byte) (hdata : Even q.data q'.data) :
    Abreast regime (q.settle regime) (q'.settle regime) := by
  have hcursor : ∀ p : Pass Category Memory, (p.settle regime).cursor.prev = p.cursor.prev ∧
      (p.settle regime).cursor.trail = p.cursor.trail ∧ (p.settle regime).data = p.data := by
    intro p
    unfold Pass.settle
    split <;> exact ⟨rfl, rfl, rfl⟩
  obtain ⟨h₁, h₂, h₃⟩ := hcursor q
  obtain ⟨h₁', h₂', h₃'⟩ := hcursor q'
  refine ⟨h₁ ▸ hq.prev, h₁' ▸ hq'.prev, ?_, ?_, ?_, False.elim, ?_, ?_, ?_, ?_, ?_, ?_⟩
  · rw [state_settle, state_settle]
  · rw [state_settle]
    rfl
  · rw [h₂, h₂', hbyte]
  · rw [h₂, h₂', hvisible]
  · rw [h₂, h₂', hindent]
  · rw [state_settle, h₃, h₃']
    exact hdata.like nofun nofun
  · rw [state_settle]
    exact fits_of rfl nofun
  · rw [rescans_settle, hq.idle]
  · rw [rescans_settle, hq'.idle]

/-! ### Lines on their own -/

/-- The same line, behind the same last visible byte, is found the same. -/
theorem same_line (config : Config) {A B l : Text} {i j a b : Nat}
    (ha : (LineTable.ofText A).start? i = some a) (hb : (LineTable.ofText B).start? j = some b)
    (hA : A.line? i = some l) (hB : B.line? j = some l)
    (hlast : Styles.lastVisible? (A.take a) (Session.fresh (grammar config) A).styles =
      Styles.lastVisible? (B.take b) (Session.fresh (grammar config) B).styles) :
    (∀ k < l.length, (Session.fresh (grammar config) A).styles[a + k]? =
      (Session.fresh (grammar config) B).styles[b + k]?) ∧
    (Session.fresh (grammar config) A).store[i]? =
      (Session.fresh (grammar config) B).store[j]? := by
  have hg := keeps config
  obtain ⟨q, hq, hf, hv, hi, he⟩ := exists_begins config ha
  obtain ⟨q', hq', hf', hv', hi', he'⟩ := exists_begins config hb
  have hbyte : q.cursor.trail.byte = q'.cursor.trail.byte := by
    rw [Session.byte_of_begins hg hq hf, Session.byte_of_begins hg hq' hf', hlast]
  have h := abreast hq hq' (hv.trans hv'.symm) (hi.trans hi'.symm) hbyte
    ⟨he.1.trans he'.1.symm, he.2.trans he'.2.symm⟩
  obtain ⟨u, hsplit, hl, hu⟩ := Text.split_of_line? ha hA
  obtain ⟨u', hsplit', -, hu'⟩ := Text.split_of_line? hb hB
  obtain ⟨hcount, hle, -⟩ := LineTable.take_start? ha
  obtain ⟨hcount', hle', -⟩ := LineTable.take_start? hb
  have hq₁ : Begins (grammar config) regime (A.take a) (A.take a ++ (l ++ u)) q := by
    rwa [← hsplit]
  have hq₁' : Begins (grammar config) regime (B.take b) (B.take b ++ (l ++ u')) q' := by
    rwa [← hsplit']
  have key := Session.fresh_line hg h hq₁ hq₁' hl fun h => ⟨hu h, hu' h⟩
  rwa [← hsplit, ← hsplit', hcount, hcount', List.length_take, List.length_take,
    Nat.min_eq_left hle, Nat.min_eq_left hle'] at key

/-- A line is scanned again from its own beginning. -/
theorem restyle_firstLine {s : Session Category} {n : Nat}
    (hs : s.store.All fun st => st.flags.nested = false) (hn : n < (LineTable.ofText text).count) :
    ∃ o, (s.restyle (grammar config) text n).2 = .ok o ∧ o.firstLine = n := by
  have hline : ResumePoint.lineFor s.store n = n := by
    cases n with
    | zero => rfl
    | succ n => simp [ResumePoint.lineFor, hs n]
  obtain ⟨a, u, rfl, ha, hfirst⟩ := Session.exists_split s.store hn
  rw [Session.restyle_eq _ s ha hn hfirst]
  exact ⟨_, rfl, hfirst.symm.trans hline⟩

/-- **Zig goes line by line.** What is found in a line depends on its bytes and on the last visible
byte before it, and a text can be scanned again from any line, whatever was scanned before. -/
theorem line_by_line (config : Config) :
    (∀ {A B l : Text} {i j a b : Nat},
      (LineTable.ofText A).start? i = some a → (LineTable.ofText B).start? j = some b →
      A.line? i = some l → B.line? j = some l →
      Styles.lastVisible? (A.take a) (Session.fresh (grammar config) A).styles =
        Styles.lastVisible? (B.take b) (Session.fresh (grammar config) B).styles →
      (∀ k < l.length, (Session.fresh (grammar config) A).styles[a + k]? =
        (Session.fresh (grammar config) B).styles[b + k]?) ∧
      (Session.fresh (grammar config) A).store[i]? =
        (Session.fresh (grammar config) B).store[j]?) ∧
    ∀ {s : Session Category}, Session.Reached (grammar config) s →
      (∀ i, (s.store.state i).flags.nested = false) ∧
      ∀ {text : Text} {n : Nat}, n < (LineTable.ofText text).count →
        ∃ o, (s.restyle (grammar config) text n).2 = .ok o ∧ o.firstLine = n := by
  refine ⟨same_line config, fun {s} hs => ?_⟩
  have hall : s.store.All fun st => st.flags.nested = false := hs.allLines (guards config) rfl
  exact ⟨hall, restyle_firstLine hall⟩

/-- The line behind a string that does not end. -/
theorem line_by_line_behind_string :
    let A : Text := [quote, newline, plus]
    let B : Text := [minus, quote, newline, plus]
    let fresh := Session.fresh (grammar { words := {} })
    (LineTable.ofText A).start? 1 = some 2 ∧ (LineTable.ofText B).start? 1 = some 3 ∧
      A.line? 1 = some [plus] ∧ B.line? 1 = some [plus] ∧
      Styles.lastVisible? (A.take 2) (fresh A).styles =
        Styles.lastVisible? (B.take 3) (fresh B).styles ∧
      (fresh A).styles[2]? = (fresh B).styles[3]? ∧ (fresh A).store[1]? = (fresh B).store[1]? ∧
      1 < (LineTable.ofText B).count ∧
      ∃ o, ((fresh A).restyle (grammar { words := {} }) B 1).2 = .ok o ∧ o.firstLine = 1 := by
  intro A B fresh
  have ha : (LineTable.ofText A).start? 1 = some 2 := by decide
  have hb : (LineTable.ofText B).start? 1 = some 3 := by decide
  have hA : A.line? 1 = some [plus] := by decide
  have hB : B.line? 1 = some [plus] := by decide
  have hlast : Styles.lastVisible? (A.take 2) (fresh A).styles =
      Styles.lastVisible? (B.take 3) (fresh B).styles := by decide +kernel
  have hn : 1 < (LineTable.ofText B).count := by decide
  obtain ⟨hsame, hrestyle⟩ := line_by_line { words := {} }
  obtain ⟨hstyles, hword⟩ := hsame ha hb hA hB hlast
  exact ⟨ha, hb, hA, hB, hlast, hstyles 0 (by decide), hword, hn,
    (hrestyle (.highlight A .new)).2 hn⟩

end Highlight.Zig
