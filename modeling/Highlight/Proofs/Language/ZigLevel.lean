import Highlight.Proofs.Language.ZigEnds
import Highlight.Proofs.Scan.Level

/-!
Zig with placeholders marked and unmarked. What stands within strings may be told apart or not:
under one name for all categories that stand there, the rules of both answer alike as long as no
brace is met in a string (`leave_level`).
-/

namespace Highlight.Zig

open Byte

/-- A category that stands only in strings. -/
def Category.isInString : Category → Bool
  | .string | .multilineString | .escape | .placeholder | .specifier => true
  | _ => false

/-- One name for all that stands in strings. -/
def Category.lump (s : Category) : Category := if s.isInString then .string else s

theorem Category.lump_eq_iff {s t : Category} :
    s.lump = t.lump ↔ s = t ∨ s.isInString = true ∧ t.isInString = true := by
  have hne : ∀ {s : Category}, s.isInString ≠ true → s ≠ .string := by
    rintro s hs rfl
    exact hs rfl
  unfold lump
  split_ifs with hs ht ht
  · exact iff_of_true rfl (.inr ⟨hs, ht⟩)
  · refine iff_of_false (hne ht).symm ?_
    rintro (rfl | h)
    · exact ht hs
    · exact ht h.2
  · refine iff_of_false (hne hs) ?_
    rintro (rfl | h)
    · exact hs ht
    · exact hs h.1
  · exact ⟨.inl, fun h => h.resolve_right fun h => hs h.1⟩

theorem Category.renames_lump : Palette.Renames Category.lump where
  plain_iff s := by cases s <;> decide
  isQuiet s := by cases s <;> rfl
  isBracket s := by cases s <;> rfl

/-- The choices with placeholders marked. -/
def marked (words : WordSets) : Config := { words := words, placeholders := true }

/-- The choices with braces in strings left as they are. -/
def unmarked (words : WordSets) : Config := { words := words, placeholders := false }

/-- The data cannot be told apart in the state `s`, and an escape in progress is in a literal. -/
def Same (s : Category) (m n : Memory) : Prop :=
  Even m n ∧ (s = .escape → m.escape = n.escape ∧ m.escape.outer.isLiteral = true) ∧
    (s = .identifier → m.before = n.before)

/-- In this state the rules look at more of the data than in others. -/
def Category.looksBack : Category → Bool
  | .escape | .identifier => true
  | _ => false

theorem Category.looksBack_of_isLiteral {s : Category} (hs : s.isLiteral = true) :
    s.looksBack = false := by
  revert hs
  cases s <;> decide

theorem Even.same {s : Category} {m n : Memory} (h : Even m n) (hs : s.looksBack = false) :
    Same s m n := by
  refine ⟨h, ?_, ?_⟩
  all_goals
    rintro rfl
    cases hs

/-- The places cannot be told apart but for what stands in strings. -/
abbrev Level (c d : Place) : Prop := c.Level Category.lump Category.isLiteral d

/-- The answers cannot be told apart but for what stands in strings. -/
abbrev LevelRule (a b : Rule) : Prop := a.Level Category.lump Category.isLiteral Same b

variable {words : WordSets} {c d : Place} {m n : Memory}

/-! ### Literals -/

theorem level_plain (h : Level c d) (hl : Even m n) :
    LevelRule (.pass (c.switch .plain) m) (.pass (d.switch .plain) n) :=
  .pass (h.switch _) (hl.same rfl)

theorem enterEscape_level (h : Level c d) (hs : c.state.isLiteral = true) (hl : Even m n) :
    LevelRule (Escape.enter escapes .escape c m fun e => { m with escape := e })
      (Escape.enter escapes .escape d n fun e => { n with escape := e }) := by
  have hforward : Level (c.switch .escape).forward (d.switch .escape).forward :=
    (h.switch _).forward Category.renames_lump
  have hsame : ∀ (p : Place) (e : Escape Category), p.state = .escape → e.outer = c.state →
      Same p.state { m with escape := e } { n with escape := e } := by
    intro p e hp ho
    refine ⟨hl, fun _ => ⟨rfl, ?_⟩, fun hi => by rw [hp] at hi; cases hi⟩
    exact ho ▸ hs
  unfold Escape.enter
  simp only [← h.next_eq, ← h.state, ← hforward.reads_eq]
  split_ifs
  · exact .pass h (hl.same (Category.looksBack_of_isLiteral hs))
  · refine .pass (hforward.forward Category.renames_lump) (hsame _ _ ?_ rfl)
    rw [Cursor.state_forward, Cursor.state_forward]
    rfl
  · refine .pass hforward (hsame _ _ ?_ rfl)
    rw [Cursor.state_forward]
    rfl

/-- In a literal the rules answer alike if no brace is marked. -/
theorem leaveLiteral_level (h : Level c d) (hs : c.state.isLiteral = true) (hl : Even m n)
    (hbrace : c.state ≠ .character → c.atLineStart = false → c.byte ≠ lbrace ∧ c.byte ≠ rbrace) :
    LevelRule (leaveLiteral (marked words) c m) (leaveLiteral (unmarked words) d n) := by
  have hpassed : LevelRule (.pass c m) (.pass d n) :=
    .pass h (hl.same (Category.looksBack_of_isLiteral hs))
  have hclose : LevelRule (.again (c.forwardSwitch .plain) m) (.again (d.forwardSwitch .plain) n) :=
    .again (h.forwardSwitch Category.renames_lump _) (hl.same rfl)
  unfold leaveLiteral
  simp only [← h.atLineStart_eq, ← h.byte_eq, ← h.state]
  split_ifs with hstart hback hchar hstring hmarked hunmarked hunmarked
  · exact level_plain h hl
  · exact enterEscape_level h hs hl
  · exact hclose
  · exact hclose
  · cases hunmarked.2.2
  · obtain ⟨hl, hr⟩ := hbrace hmarked.2.1 (Bool.not_eq_true _ ▸ hstart)
    exact absurd hmarked.1 (not_or.2 ⟨hl, hr⟩)
  · cases hunmarked.2.2
  · exact hpassed

/-! ### The rules together -/

theorem leave_level (h : Level c d) (hl : Same c.state m n)
    (hbrace : c.state.isLiteral = true → c.state ≠ .character → c.atLineStart = false →
      c.byte ≠ lbrace ∧ c.byte ≠ rbrace) :
    LevelRule (leave (marked words) c m) (leave (unmarked words) d n) := by
  obtain ⟨heven, hescape, hbefore⟩ := id hl
  have hplain : LevelRule (.pass (c.switch .plain) m) (.pass (d.switch .plain) n) :=
    level_plain h heven
  have hstay : LevelRule (.pass c m) (.pass d n) := .pass h hl
  unfold leave
  rw [← h.state]
  cases hs : c.state
  case plain => exact hstay
  case operator => exact hplain
  case number =>
    simp only [← h.behind_eq, ← h.byte_eq, ← h.next_eq]
    split_ifs
    · exact hstay
    · exact hplain
  case identifier =>
    simp only [← h.byte_eq]
    split_ifs
    · exact hstay
    · have hloose : c.state.isLiteral = false := by rw [hs]; rfl
      have hname : Occurrence.endingAt c m.before = Occurrence.endingAt d n.before := by
        rw [Occurrence.endingAt, Occurrence.endingAt, h.currentWord_eq hloose, h.byte_eq,
          h.nextVisible_eq, hbefore hs]
      unfold classifyName
      simp only [← hname, ← heven.1]
      exact .pass (((h.recolor hloose _).remember _).switch _) ⟨⟨rfl, heven.2⟩, nofun, nofun⟩
  case builtin =>
    simp only [← h.byte_eq]
    split_ifs
    · exact hstay
    · exact hplain
  case lineComment | docComment | topComment =>
    simp only [← h.atLineStart_eq]
    split_ifs
    · exact hplain
    · exact hstay
  case character | string | multilineString =>
    have hliteral : c.state.isLiteral = true := by rw [hs]; rfl
    exact leaveLiteral_level h hliteral heven (hbrace hliteral)
  case escape =>
    obtain ⟨he, ho⟩ := hescape hs
    have hcounted : Even { m with escape := m.escape.count } { n with escape := m.escape.count } :=
      ⟨heven.1, heven.2⟩
    have hback : m.escape.count.outer.looksBack = false := Category.looksBack_of_isLiteral ho
    rw [← he]
    unfold Escape.leave
    simp only [← h.byte_eq]
    split_ifs
    · exact .again ((h.forward Category.renames_lump).switch _) (hcounted.same hback)
    · exact .again (h.switch _) (hcounted.same hback)
    · exact .pass h ⟨heven, fun _ => ⟨rfl, ho⟩, fun e => by rw [hs] at e; cases e⟩
  case keyword | typeName | functionDefinition | function | placeholder | specifier => exact hstay

/-- The byte behind the two slashes says of which kind a comment is. -/
theorem enterComment_level (h : Level c d) (hl : Even m n) :
    LevelRule (enterComment c m) (enterComment d n) := by
  have hmark : Even (if c.visible = 0 then m.markComment else m)
      (if c.visible = 0 then n.markComment else n) := by
    split_ifs
    · exact ⟨hl.1, by simp [Memory.markComment, hl.2]⟩
    · exact hl
  have hgo : Level ((c.switch .lineComment).forwardN 2) ((d.switch .lineComment).forwardN 2) :=
    (h.switch _).forwardN Category.renames_lump 2
  have hstate : ((c.switch .lineComment).forwardN 2).state = .lineComment :=
    Cursor.state_forwardN 2
  have hvisible : c.visible = d.visible := h.visible
  have hloose : ((c.switch .lineComment).forwardN 2).state.isLiteral = false := by
    rw [hstate]
    rfl
  unfold enterComment
  simp only [← hvisible, ← hgo.byte_eq, ← hgo.next_eq]
  generalize (if c.visible = 0 then m.markComment else m) = m' at hmark
  generalize (if c.visible = 0 then n.markComment else n) = n' at hmark
  split_ifs
  · exact .pass (hgo.recolor hloose _) (hmark.same rfl)
  · exact .pass (hgo.recolor hloose _) (hmark.same rfl)
  · exact .pass hgo (hmark.same (by rw [hstate]; rfl))

theorem enterPunctuation_level (h : Level c d) (hl : Even m n) :
    LevelRule (enterPunctuation c m) (enterPunctuation d n) := by
  have hbegin : ∀ s : Category, s.looksBack = false →
      LevelRule (.pass (c.switch s) m) (.pass (d.switch s) n) :=
    fun s hs => .pass (h.switch s) (hl.same hs)
  have hmark : Even m.markString n.markString :=
    ⟨hl.1, by simp [Memory.markString, hl.2]⟩
  unfold enterPunctuation
  simp only [← h.byte_eq, ← h.next_eq]
  split_ifs
  · exact enterComment_level h hl
  · exact .pass (h.switch _) (hmark.same rfl)
  · exact hbegin _ rfl
  · exact hbegin _ rfl
  · exact hbegin _ rfl
  · exact hbegin _ rfl
  · exact hbegin _ rfl

theorem enter_level (h : Level c d) (hl : Same c.state m n) :
    LevelRule (enter c m) (enter d n) := by
  obtain ⟨heven, -⟩ := id hl
  unfold enter
  rw [← h.byte_eq]
  cases ByteClass.of c.byte
  case digit => exact .pass (h.switch _) (heven.same rfl)
  case nameStart => exact .pass (h.switch _) ⟨heven, nofun, fun _ => h.byte⟩
  case punctuation => exact enterPunctuation_level h heven
  case space | lineEnd | control => exact .pass h hl

theorem endsLevel (words : WordSets) :
    (grammar (marked words)).EndsLevel Category.lump Category.isLiteral Same
      (grammar (unmarked words)) := by
  intro c d m n h hl
  obtain ⟨heven, hescape, hbefore⟩ := hl
  have hvisible : c.visible = d.visible := h.visible
  have hstate : (endLine c m).1 = (endLine d n).1 := by
    simp only [endLine, heven.2, hvisible, h.indent]
  exact ⟨hstate, ⟨rfl, rfl⟩, hescape, hbefore⟩

end Highlight.Zig
