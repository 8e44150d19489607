import Highlight.Proofs.Language.TomlBrackets
import Highlight.Proofs.Scan.LineAhead

/-!
The heads of tables. The points outside of quotes in the head of a table are the level of its line
(`headLevel?`). A rule counts each of them when it is asked for the byte, and it is asked what is
quoted as it comes by; so the points that are counted and those that a reader of the rest of the
line finds (`KeyPart.points`) are together the same all through the head (`leaveKey_foreseen`).
-/

namespace Highlight.Toml

open Byte

variable {c : Place} {m y : Memory} {b : Byte}

/-! ### A reader of headings -/

/-- The points in the rest of the head of a table, read from the given part of it: those that stand
neither in apostrophes nor in quotes, where a backslash hides a byte, up to the closing bracket. -/
def KeyPart.points : KeyPart → Text → Nat
  | .done, _ => 0
  | _, [] => 0
  | .bare, b :: t =>
    if b = apostrophe then points .literal t
    else if b = quote then points .quoted t
    else if b = dot then points .bare t + 1
    else if b = rbracket then 0
    else points .bare t
  | .literal, b :: t => if b = apostrophe then points .bare t else points .literal t
  | .quoted, [_] => 0
  | .quoted, a :: b :: t =>
    if a = backslash then points .quoted t
    else if a = quote then points .bare (b :: t)
    else points .quoted (b :: t)

/-- The level of a line as a heading: the points behind its opening bracket, or behind two of them.
A line that does not begin with a bracket has none. -/
def headLevel? (line : Text) : Option Nat :=
  match line.dropWhile isSpace with
  | [] => none
  | b :: t =>
    if b = lbracket then some (KeyPart.points .bare (if t.head? = some lbracket then t.tail else t))
    else none

theorem points_nil (k : KeyPart) : k.points [] = 0 := by cases k <;> rfl

theorem headLevel?_space (hb : isSpace b = true) (t : Text) :
    headLevel? (b :: t) = headLevel? t := by simp [headLevel?, hb]

theorem headLevel?_of_ne (hb : isSpace b = false) (hne : b ≠ lbracket) (t : Text) :
    headLevel? (b :: t) = none := by simp [headLevel?, hb, hne]

/-- A second bracket is no point, so it matters to nothing whether it belongs to the first one. -/
theorem headLevel?_lbracket (t : Text) :
    headLevel? (lbracket :: t) = some (KeyPart.points .bare t) := by
  have hspace : isSpace lbracket = false := by decide
  cases t with
  | nil => simp [headLevel?, hspace]
  | cons a t =>
    by_cases ha : a = lbracket
    · simp [headLevel?, hspace, ha, KeyPart.points]
    · simp [headLevel?, hspace, ha]

/-- The level that the line will have as a heading, where its first visible byte is passed: the
points that are counted, and in the head of a table those in the rest of the line. -/
def foreseen (s : Category) (m : Memory) (rest : Text) : Option Nat :=
  if m.flags.heading then some (m.level + if s = .table then m.key.points rest else 0) else none

/-- The level that the line will have, where nothing visible is passed. -/
def opening (m : Memory) (rest : Text) : Option Nat :=
  if m.brackets = 0 ∧ m.flags.string = false then headLevel? rest else none

/-- Outside of the head of a table all points are counted. -/
theorem foreseen_of_ne {s s' : Category} (hs : s ≠ .table) (hs' : s' ≠ .table)
    (hheading : y.flags.heading = m.flags.heading) (hlevel : y.level = m.level) (t t' : Text) :
    foreseen s y t = foreseen s' m t' := by
  unfold foreseen
  rw [hheading, hlevel, if_neg hs, if_neg hs']

theorem foreseen_none (hheading : m.flags.heading = false) (s : Category) (t : Text) :
    foreseen s m t = none := by
  rw [foreseen, hheading]
  rfl

theorem opening_nil (m : Memory) : opening m [] = none := by
  unfold opening
  split <;> rfl

theorem opening_space (hb : isSpace b = true) (m : Memory) (t : Text) :
    opening m (b :: t) = opening m t := by
  rw [opening, opening, headLevel?_space hb]

/-- A line that begins with another visible byte is no heading, nor is one within a region. -/
theorem opening_of_not_head (ha : c.ahead ≠ []) (hspace : isSpace c.byte = false)
    (hhead : ¬(m.brackets = 0 ∧ c.byte = lbracket)) : opening m c.restOfLine = none := by
  unfold opening
  split
  case isTrue hopen =>
    rw [Cursor.restOfLine_cons ha (Cursor.byte_ne_newline hspace)]
    exact headLevel?_of_ne hspace (fun hb => hhead ⟨hopen.1, hb⟩) _
  case isFalse => rfl

/-! ### In the head of a table -/

/-- White space begins nothing. -/
theorem enter_space (hb : isSpace c.byte = true) (m : Memory) : enter c m = .pass c m := by
  have hcases : c.byte = space ∨ c.byte = tab ∨ c.byte = carriageReturn ∨ c.byte = newline ∨
      c.byte = verticalTab ∨ c.byte = formFeed := by
    simpa [isSpace, isBlank, isLineEnd, or_assoc] using hb
  unfold enter enterLine enterValue
  rcases hcases with e | e | e | e | e | e <;> rw [e] <;>
    simp [isKeyByte, isNameByte, isNameStart, isAlpha, isLower, isUpper, isDigit, isOperator,
      isSpace, isLineEnd, isBlank]

/-- **The head of a table.** A bracket begins it with all its points ahead. -/
theorem enter_lbracket (hb : c.byte = lbracket) (hvisible : c.visible = 0) (hm : m.brackets = 0) :
    ∃ d y, enter c m = .pass d y ∧
      foreseen d.state y d.restOfLine.tail = headLevel? c.restOfLine := by
  have hrest := Cursor.restOfLine_of_byte hb (by decide) (by decide)
  have henter : enter c m = enterLine c m := by
    rw [enter, if_neg (by rw [hb]; decide), if_pos ⟨hvisible, hm⟩]
  rw [henter, enterLine, if_pos hb, hrest, headLevel?_lbracket]
  dsimp only
  by_cases hnext : (c.switch .table).next = lbracket
  · rw [if_pos hnext]
    refine ⟨_, _, rfl, ?_⟩
    have hahead : (c.switch .table).forward.restOfLine = c.forward.restOfLine := by
      rw [Cursor.restOfLine, Cursor.restOfLine, Cursor.ahead_forward, Cursor.ahead_forward]
      rfl
    have hsecond : c.forward.restOfLine = lbracket :: c.forward.forward.restOfLine :=
      Cursor.restOfLine_of_byte (Cursor.byte_forward.trans hnext) (by decide) (by decide)
    rw [hahead, hsecond]
    simp [foreseen, Cursor.switch, KeyPart.points]
  · rw [if_neg hnext]
    refine ⟨_, _, rfl, ?_⟩
    rw [show (c.switch .table).restOfLine = c.restOfLine from rfl, hrest]
    simp [foreseen, Cursor.switch]

end Highlight.Toml
