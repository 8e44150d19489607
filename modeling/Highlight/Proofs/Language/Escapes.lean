import Highlight.Proofs.Language.TripleStrings
import Highlight.Proofs.Language.ZigLiterals

/-!
How long escapes are. Behind its backslash an escape has the byte that introduces it, which says how
many digits may follow, and those of them that do. In Zig the digits behind a `u` may stand in
braces, and then the brace that closes them belongs to the escape as well.
-/

namespace Highlight

open Byte Pass

/-- The length of an escape, backslash and all, that `x` introduces and the text `t` follows. To an
escape without braces `count x` bytes may belong from `x` on. -/
def Text.escapeLength (count : Byte → Nat) (braces : Bool) (x : Byte) (t : Text) : Nat :=
  if braces = true ∧ x = lowerU ∧ t.head? = some lbrace then
    let digits := min 6 (t.tail.takeWhile isHexDigit).length
    3 + digits + if t.tail[digits]? = some rbrace then 1 else 0
  else 2 + min (count x - 1) (t.takeWhile isHexDigit).length

/-- These are the bytes that the scan takes. -/
theorem EscapeSyntax.length_escape (e : EscapeSyntax) (x : Byte) (t : Text) :
    (backslash :: x :: t.take (e.restBehind x t)).length =
      Text.escapeLength e.lengthFor e.bracedUnicode x t := by
  have htake : ∀ (braced : Bool) (left : Nat) (u : Text),
      (u.take (Text.escapeRest braced left u)).length = Text.escapeRest braced left u :=
    fun braced left u => List.length_take_of_le (Text.escapeRest_le braced left u)
  simp only [List.length_cons]
  unfold restBehind Text.escapeLength
  by_cases hbrace : e.bracedUnicode = true ∧ x = lowerU ∧ t.head? = some lbrace
  · obtain ⟨u, rfl⟩ := List.head?_eq_some_iff.1 hbrace.2.2
    rw [if_pos hbrace, if_pos hbrace, List.tail_cons, List.take_succ_cons, List.length_cons, htake,
      Text.escapeRest_eq]
    simp only [true_and, Nat.reduceSub]
    omega
  · rw [if_neg hbrace, if_neg hbrace, htake, Text.escapeRest_eq]
    simp only [Bool.false_eq_true, false_and, if_false]
    omega

variable {σ ζ : Type} [Palette σ] [DecidableEq σ]

/-- Escapes have the category `escape` and the lengths that `count` and `braces` say. Wherever a
scan comes to a place in a string that takes escapes, on a backslash behind which, within its part,
stands a byte that is neither zero nor the end of a line, all bytes of the escape get that category;
and if a byte of the part follows them, the scan comes to it in the same string, with no run in
progress. -/
def CoversEscapes (g : Grammar σ ζ) (escape : σ) (takes : Cursor σ → Prop) (count : Byte → Nat)
    (braces : Bool) : Prop :=
  ∀ {text : Text} {start len : Nat} {initial : σ} {store store' : LineStore} {styles : Styles σ}
    {found : Outcome σ} {c : Cursor σ} {z : ζ} {x : Byte} {t : Text},
    scan g text start len initial store styles = .ok (found, store') →
    (outset g text start len initial store styles).ComesTo g c z → takes c →
    c.ahead = backslash :: x :: t → isLineEnd x = false → x ≠ 0 →
    let stop := c.pos + Text.escapeLength count braces x t
    stop ≤ start + len ∧
      (∀ i, c.pos ≤ i → i < stop → (Run.expand found.runs)[i - start]? = some escape) ∧
      (stop < start + len →
        ∃ d y, (outset g text start len initial store styles).ComesTo g d y ∧ d.pos = stop ∧
          d.state = c.state ∧ d.word = [])

theorem coversEscapes_of_serves {g : Grammar σ ζ} {k : EscapeKeeping σ ζ} {e : EscapeSyntax}
    {takes : Cursor σ → Prop} {rank : σ → Nat} {holds : ζ → Prop} (hk : k.Serves g)
    (hs : g.Settles rank holds) (hm : g.StaysInLine)
    (hrule : ∀ c z, takes c → c.byte = backslash →
      g.leave c z = Escape.enter e k.category c z fun e => k.put e z) :
    CoversEscapes g k.category takes e.lengthFor e.bracedUnicode := by
  intro text start len initial store store' styles found c z x t hscan hcomes htakes ha hend hzero
    stop
  obtain ⟨hle, hfound, -⟩ := of_scan_ok hscan
  have hp := proper_outset hs hm hle initial store styles
  have hx : Text.hidesNext true backslash x = true := by simp [Text.hidesNext, hend, hzero]
  have hhere : c.AllFrom (· = k.category) c.pos := .here _ c
  obtain ⟨d, y, hback, hdone⟩ := back_of_enter hp hk e (by rfl) hcomes hhere ha hx
    (hrule c z htakes (Cursor.byte_cons ha))
  have hpos : d.pos = stop := by rw [hback.pos, e.length_escape]
  obtain ⟨hstands, -⟩ := hback.comes.stands hp
  refine ⟨hpos ▸ hstands.le, fun i hi hlt => ?_, fun hlt => ?_⟩
  · have hstart : start ≤ c.pos := by
      obtain ⟨hc, hbegins⟩ := hcomes.stands hp
      rw [hc.pos, hbegins]
      exact Nat.le_add_right _ _
    have hfills := fills_of_back hp hk hback.comes hback.all hstart hdone
      (start + len == text.length && decide (0 < len) && text.getLast? != some newline)
    obtain ⟨a, ha, rfl⟩ := Fills.found hm hscan hfills hi (hpos ▸ hlt)
    exact ha
  · have hne : d.ahead ≠ [] := by
      intro hnil
      rw [← hpos, hstands.pos_of_ahead_nil hle hnil] at hlt
      exact Nat.lt_irrefl _ hlt
    exact ⟨d, y, hback.comes, hpos, hback.state.resolve_right fun h => hne h.2.2,
      hdone.resolve_right fun h => hne h.1⟩

/-! ### The three languages -/

namespace Scala

/-- A place in a quoted form, where it does not end with its line. -/
def InLiteral (c : Place) : Prop :=
  c.state.isLiteral = true ∧ ¬(c.atLineStart = true ∧ c.state.endsWithLine = true)

theorem leave_backslash (config : Config) (c : Place) (m : Memory) (h : InLiteral c)
    (hb : c.byte = backslash) :
    (grammar config).leave c m = Escape.enter escapes keeping.category c m
      fun e => keeping.put e m := by
  obtain ⟨hliteral, hinside⟩ := h
  have hrule : (grammar config).leave c m = leaveLiteral c m := by
    change leave config c m = _
    rw [leave]
    revert hliteral
    cases c.state <;> first | exact fun _ => rfl | (intro h; cases h)
  rw [hrule, leaveLiteral, if_neg hinside, if_pos hb]
  rfl

theorem lengthFor_escapes : escapes.lengthFor = fun x => if x = lowerU then 5 else 1 := by
  funext x
  simp only [EscapeSyntax.lengthFor, escapes, EscapeSyntax.unicodeOnly]
  split_ifs <;> rfl

end Scala

namespace Zig

/-- A place in a string or a character, but not at the beginning of a line. -/
def InQuotes (c : Place) : Prop := (c.state = .string ∨ c.state = .character) ∧ c.atLineStart = false

theorem leave_backslash (config : Config) (c : Place) (m : Memory) (h : InQuotes c)
    (hb : c.byte = backslash) :
    (grammar config).leave c m = Escape.enter escapes keeping.category c m
      fun e => keeping.put e m := by
  obtain ⟨hstate, hinside⟩ := h
  have hquoted : ∃ q, Quoted c.state q := by
    rcases hstate with hs | hs <;> rw [hs]
    · exact ⟨_, .string⟩
    · exact ⟨_, .character⟩
  obtain ⟨q, hq⟩ := hquoted
  rw [leave_quoted config m hq rfl, hinside, if_neg Bool.false_ne_true, if_pos hb]
  rfl

theorem lengthFor_escapes :
    escapes.lengthFor = fun x => if x = lowerU then 5 else if x = lowerX then 3 else 1 := by
  funext x
  by_cases hupper : x = upperU
  · subst hupper
    rfl
  · simp only [EscapeSyntax.lengthFor, escapes, EscapeSyntax.hexAndBraced, if_neg hupper]
    split_ifs <;> rfl

end Zig

namespace Toml

/-- A place in a string in quotes, where it does not end with its line. -/
def InQuotes (c : Place) : Prop :=
  c.state.isBasic = true ∧ ¬(c.atLineStart = true ∧ c.state.isTriple = false)

theorem leave_backslash (words : WordSets) (c : Place) (m : Memory) (h : InQuotes c)
    (hb : c.byte = backslash) :
    (grammar words).leave c m = Escape.enter escapes keeping.category c m
      fun e => keeping.put e m := by
  obtain ⟨hbasic, hinside⟩ := h
  have hrule : (grammar words).leave c m = leaveString words c m := by
    change leave words c m = _
    rw [leave]
    revert hbasic
    cases c.state <;> first | exact fun _ => rfl | (intro h; cases h)
  rw [hrule, leaveString, if_neg (by simpa using hinside), if_pos ⟨hb, hbasic⟩]
  rfl

theorem lengthFor_escapes : escapes.lengthFor =
    fun x => if x = lowerU then 5 else if x = upperU then 9 else if x = lowerX then 3 else 1 := by
  funext x
  simp only [EscapeSyntax.lengthFor, escapes, EscapeSyntax.hexAndLong]
  split_ifs <;> rfl

end Toml

/-- **Escapes cover exactly their digits,** in strings of Scala, Zig and TOML, whatever is scanned
and wherever the scan begins. -/
theorem escapes_cover_digits (scala : Scala.Config) (zig : Zig.Config) (words : WordSets) :
    CoversEscapes (Scala.grammar scala) .escape Scala.InLiteral
        (fun x => if x = lowerU then 5 else 1) false ∧
      CoversEscapes (Zig.grammar zig) .escape Zig.InQuotes
        (fun x => if x = lowerU then 5 else if x = lowerX then 3 else 1) true ∧
      CoversEscapes (Toml.grammar words) .escape Toml.InQuotes
        (fun x => if x = lowerU then 5 else if x = upperU then 9 else if x = lowerX then 3 else 1)
        false := by
  refine ⟨?_, ?_, ?_⟩
  · rw [← Scala.lengthFor_escapes]
    exact coversEscapes_of_serves (Scala.serves_keeping scala) (Scala.settles scala)
      (Scala.staysInLine scala) (Scala.leave_backslash scala)
  · rw [← Zig.lengthFor_escapes]
    exact coversEscapes_of_serves (Zig.serves_keeping zig) (Zig.settles zig)
      (Zig.staysInLine zig) (Zig.leave_backslash zig)
  · rw [← Toml.lengthFor_escapes]
    exact coversEscapes_of_serves (Toml.serves_keeping words) (Toml.settles words)
      (Toml.staysInLine words) (Toml.leave_backslash words)

/-- In braces stand two digits of the six that may; a long escape ends behind the first of eight
digits, since no digit follows; and `x` introduces no digits in Scala. -/
theorem escapes_cover_digits_braced :
    let zig := Zig.grammar { words := {} }
    let braced : Text := [quote, backslash, lowerU, lbrace, zero, upperF, rbrace, zero]
    let toml := Toml.grammar {}
    let long : Text := [backslash, upperU, zero, quote]
    let scala := Scala.grammar { words := {} }
    let single : Text := [backslash, lowerX, zero]
    (∃ found store, scan zig braced 0 8 .plain #[] #[] = .ok (found, store) ∧
      (∀ i, 1 ≤ i → i < 7 → (Run.expand found.runs)[i]? = some .escape) ∧
      ∃ d y, (outset zig braced 0 8 .plain #[] #[]).ComesTo zig d y ∧ d.pos = 7 ∧
        d.state = .string ∧ d.word = []) ∧
    (∃ found store, scan toml long 0 4 .tripleString #[] #[] = .ok (found, store) ∧
      ∀ i, 0 ≤ i → i < 3 → (Run.expand found.runs)[i]? = some .escape) ∧
    ∃ found store, scan scala single 0 3 .tripleString #[] #[] = .ok (found, store) ∧
      ∀ i, 0 ≤ i → i < 2 → (Run.expand found.runs)[i]? = some .escape := by
  intro zig braced toml long scala single
  obtain ⟨hscala, hzig, htoml⟩ := escapes_cover_digits { words := {} } { words := {} } {}
  refine ⟨?_, ?_, ?_⟩
  · obtain ⟨found, store, hscan⟩ : ∃ found store,
        scan zig braced 0 8 .plain #[] #[] = .ok (found, store) := ⟨_, _, rfl⟩
    obtain ⟨-, hcovered, hback⟩ :=
      hzig hscan ⟨1, rfl, rfl⟩ ⟨.inl rfl, rfl⟩ rfl (by decide) (by decide)
    exact ⟨found, store, hscan, hcovered, hback (by decide)⟩
  · obtain ⟨found, store, hscan⟩ : ∃ found store,
        scan toml long 0 4 .tripleString #[] #[] = .ok (found, store) := ⟨_, _, rfl⟩
    obtain ⟨-, hcovered, -⟩ :=
      htoml hscan ⟨0, rfl, rfl⟩ ⟨rfl, by decide⟩ rfl (by decide) (by decide)
    exact ⟨found, store, hscan, hcovered⟩
  · obtain ⟨found, store, hscan⟩ : ∃ found store,
        scan scala single 0 3 .tripleString #[] #[] = .ok (found, store) := ⟨_, _, rfl⟩
    obtain ⟨-, hcovered, -⟩ :=
      hscala hscan ⟨0, rfl, rfl⟩ ⟨rfl, by decide⟩ rfl (by decide) (by decide)
    exact ⟨found, store, hscan, hcovered⟩

end Highlight
