import Highlight.Proofs.Language.ZigPlaceholders
import Highlight.Proofs.Scan.Hidden

/-!
Literals of Zig in quotes. Whatever escapes and placeholders stand in such a literal, the scan takes
it to end where a reader does who knows of nothing but backslashes: behind the first closing quote
that is not hidden, or with its line (`Text.literalLength`). What the scan passes at once, an escape
with its digits, a doubled brace or a placeholder, is passed by the reader as well
(`Inside.goesOn`), and so both go on together (`Inside.endsAt`).
-/

namespace Highlight

open Byte

/-! ### Where a literal ends -/

/-- How many there are as far as the first mark and with it, or all if there is no mark. -/
def lengthTo : List Bool → Nat
  | [] => 0
  | x :: l => if x then 1 else lengthTo l + 1

theorem lengthTo_replicate_append (n : Nat) (l : List Bool) :
    lengthTo (List.replicate n false ++ l) = lengthTo l + n := by
  induction n with
  | zero => rfl
  | succ n ih =>
    rw [List.replicate_succ, List.cons_append, lengthTo, if_neg Bool.false_ne_true, ih,
      Nat.add_assoc]

namespace Text

/-- The byte closes a literal in quotes `q`, or ends its line. -/
def endsLiteral (q b : Byte) : Bool := b == q || b == newline

/-- The length of a literal in quotes `q` behind the first of them: it ends with the first quote
that no backslash hides, with its line, or with the text. -/
def literalLength (q : Byte) (t : Text) : Nat := lengthTo (unhidden true (endsLiteral q) t)

variable {q b : Byte} {t u w : Text}

theorem endsLiteral_iff : endsLiteral q b = true ↔ b = q ∨ b = newline := by simp [endsLiteral]

theorem endsLiteral_eq_false (hq : b ≠ q) (hnl : b ≠ newline) : endsLiteral q b = false := by
  simp [endsLiteral, hq, hnl]

/-- No escape goes on over the end of a literal. -/
theorem endsLiteral_of_inEscape (hq : q.inEscape = false) (hb : b.inEscape = true) :
    endsLiteral q b = false :=
  endsLiteral_eq_false (ne_of_inEscape hb hq) (ne_of_inEscape hb rfl)

theorem literalLength_end (hb : endsLiteral q b = true) (hq : q ≠ backslash) (t : Text) :
    literalLength q (b :: t) = 1 := by
  have hback : b ≠ backslash := by
    rintro rfl
    rcases endsLiteral_iff.1 hb with hb | hb
    · exact hq hb.symm
    · cases hb
  rw [literalLength, unhidden_cons (hidesNext_of_ne true hback _), lengthTo, if_pos hb]

theorem literalLength_skip
    (h : unhidden true (endsLiteral q) t =
      List.replicate w.length false ++ unhidden true (endsLiteral q) u) :
    literalLength q t = literalLength q u + w.length := by
  rw [literalLength, h, lengthTo_replicate_append]
  rfl

end Text

/-- In a placeholder a backslash hides a mark of alignment and nothing else. -/
theorem Placeholder.Tame.unhidden {kind : Byte → Bool} {w : Text} (hw : Tame w)
    (hkind : ∀ b ∈ w, kind b = false) (t : Text) :
    Text.unhidden true kind (w ++ t) =
      List.replicate w.length false ++ Text.unhidden true kind t := by
  induction hw with
  | nil => rfl
  | byte hb _ ih =>
    obtain ⟨hhead, htail⟩ := List.forall_mem_cons.1 hkind
    rw [List.cons_append, Text.unhidden_cons (Text.hidesNext_of_ne true hb _), hhead, ih htail]
    rfl
  | @filled mark w hmark _ ih =>
    obtain ⟨hhead, htail⟩ := List.forall_mem_cons.1 hkind
    have hhides : Text.hidesNext true backslash mark = true := by
      rcases eq_of_isAlignment hmark with rfl | rfl | rfl <;> rfl
    rw [List.cons_append, List.cons_append, Text.unhidden_pair hhides, hhead,
      ih (List.forall_mem_cons.1 htail).2]
    rfl

namespace Zig

open Pass

variable {config : Config} {c d : Place} {m y : Memory} {s : Category} {q b : Byte}
  {text t : Text} {start stop first i n : Nat} {o : Pass Category Memory}

/-- The literals in quotes, and what they are quoted with. -/
inductive Quoted : Category → Byte → Prop where
  | string : Quoted .string quote
  | character : Quoted .character apostrophe

/-- What the bytes of the literal `s` can be. -/
def InLiteral (config : Config) (s k : Category) : Prop :=
  k = s ∨ k = .escape ∨
    (s = .string ∧ config.placeholders = true) ∧ (k = .placeholder ∨ k = .specifier)

theorem Quoted.ne_plain (hq : Quoted s q) : s ≠ .plain := by cases hq <;> nofun

theorem Quoted.facts (hq : Quoted s q) :
    q ≠ backslash ∧ q ≠ newline ∧ q ≠ 0 ∧ q.inEscape = false := by
  cases hq <;> decide

/-! ### The rules in a literal -/

/-- How Zig keeps its escapes. -/
def keeping : EscapeKeeping Category Memory where
  category := .escape
  get m := m.escape
  put e m := { m with escape := e }

theorem serves_keeping (config : Config) : keeping.Serves (grammar config) where
  leave c m hs := by
    change leave config c m = _
    rw [leave, show c.state = .escape from hs]
    rfl
  get_put _ _ := rfl
  ne_plain := nofun

theorem leave_plain (config : Config) (m : Memory) (hs : c.state = .plain) :
    (grammar config).leave c m = .pass c m := by
  change leave config c m = _
  rw [leave, hs]

theorem leave_quoted (config : Config) (m : Memory) (hq : Quoted s q) (hs : c.state = s) :
    (grammar config).leave c m =
      if c.atLineStart = true then .pass (c.switch .plain) m
      else if c.byte = backslash then
        Escape.enter escapes .escape c m fun e => { m with escape := e }
      else if c.byte = q then .again (c.forwardSwitch .plain) m
      else if (c.byte = lbrace ∨ c.byte = rbrace) ∧ s = .string ∧ config.placeholders = true then
        leaveBrace c m
      else .pass c m := by
  have hrule : (grammar config).leave c m = leaveLiteral config c m := by
    change leave config c m = _
    rw [leave, hs]
    cases hq <;> rfl
  rw [hrule, leaveLiteral]
  cases hq <;> simp [hs]

/-! ### Going on in a literal -/

/-- The scan stands within the literal `s` that began at the offset `i`. -/
structure Inside (config : Config) (o : Pass Category Memory) (s : Category) (i : Nat) (c : Place)
    (m : Memory) : Prop where
  comes : o.ComesTo (grammar config) c m
  state : c.state = s
  all : c.AllFrom (InLiteral config s) i
  inside : c.atLineStart = false

/-- From the place `c` the scan has gone on in the literal, and none of the bytes that it has gone
over ends the literal. -/
def GoesOn (config : Config) (o : Pass Category Memory) (s : Category) (q : Byte) (i : Nat)
    (c : Place) : Prop :=
  ∃ w d y, w ≠ [] ∧ Back (grammar config) keeping o (InLiteral config s) i s c w d y ∧
    Text.unhidden true (Text.endsLiteral q) (w ++ d.ahead) =
      List.replicate w.length false ++ Text.unhidden true (Text.endsLiteral q) d.ahead

/-- How the scan stands at the end of the literal `s`: behind the quote that closes it, behind its
line, or where the text ends. -/
inductive LiteralEnd (s : Category) (c : Place) (m : Memory) : Prop where
  | closed (hplain : c.state = .plain) (hword : c.word = [])
  | cut (hs : c.state = s) (hstart : c.atLineStart = true)
  | unclosed (hs : c.state = s ∨ c.state = .escape ∧ m.escape.outer = s) (hnil : c.ahead = [])

/-- The literal that began at the offset `i` ends at the offset `n`. -/
def EndsAt (config : Config) (o : Pass Category Memory) (s : Category) (i n : Nat) : Prop :=
  ∃ d y, o.ComesTo (grammar config) d y ∧ d.AllFrom (InLiteral config s) i ∧ d.pos = n ∧
    LiteralEnd s d y

theorem InLiteral.escape (config : Config) (s : Category) : InLiteral config s .escape :=
  .inr (.inl rfl)

/-- A byte that is passed alone. -/
theorem Inside.pass (h : Inside config o s i c m) (hq : Quoted s q) (ha : c.ahead = b :: t)
    (hrule : (grammar config).leave c m = .pass c m)
    (hend : Text.endsLiteral q b = false) (hhides : Text.hidesNext true b (t.getD 0 0) = false) :
    GoesOn config o s q i c := by
  have hmore : c.more = true := Cursor.more_cons ha
  have hnl : b ≠ newline := by
    rintro rfl
    simp [Text.endsLiteral] at hend
  have hcomes := h.comes.pass hmore
    (Grammar.dispatch_of_pass hrule (by rw [h.state]; exact hq.ne_plain))
  rw [Grammar.goOn_of_ne _ (by rwa [Cursor.byte_cons ha])] at hcomes
  have hahead := Cursor.ahead_forward_cons ha
  refine ⟨[b], _, _, List.cons_ne_nil _ _,
    ⟨hcomes, h.all.forward (.inl h.state), ?_, ?_, ?_, ?_⟩, ?_⟩
  · rw [hahead, ha]
    rfl
  · exact Cursor.pos_forward_cons ha
  · exact Cursor.atLineStart_forward_cons ha hnl
  · exact .inl (by rw [Cursor.state_forward, h.state])
  · rw [hahead, List.singleton_append, Text.unhidden_cons hhides, hend]
    rfl

/-- A backslash that hides a byte. -/
theorem Inside.hidden (hp : o.Proper (grammar config) text start stop first)
    (h : Inside config o s i c m) (hq : Quoted s q) {x : Byte} (ha : c.ahead = backslash :: x :: t)
    (hx : Text.hidesNext true backslash x = true) : GoesOn config o s q i c := by
  obtain ⟨hback, -, -, hinner⟩ := hq.facts
  have hrule : (grammar config).leave c m =
      Escape.enter escapes keeping.category c m fun e => keeping.put e m := by
    rw [leave_quoted config m hq h.state, h.inside, if_neg Bool.false_ne_true,
      if_pos (Cursor.byte_cons ha)]
    rfl
  obtain ⟨w, d, y, hw, hd⟩ := exists_back_of_enter hp (serves_keeping config) escapes
    (InLiteral.escape config s) h.comes h.all ha hx hrule
  rw [h.state] at hd
  refine ⟨_, d, y, List.cons_ne_nil _ _, hd, ?_⟩
  exact Text.unhidden_escape hx (Text.endsLiteral_eq_false hback.symm (by decide))
    (fun b hb => Text.endsLiteral_of_inEscape hinner hb) hw d.ahead

/-- A doubled brace. -/
theorem Inside.pair (hp : o.Proper (grammar config) text start stop first)
    (h : Inside config o s i c m) (hq : Quoted s q) (ha : c.ahead = b :: b :: t)
    (hb : b = lbrace ∨ b = rbrace)
    (hrule : (grammar config).leave c m =
      .pass (c.switch .escape).forward { m with escape := .single s }) :
    GoesOn config o s q i c := by
  obtain ⟨-, -, -, hinner⟩ := hq.facts
  have hmore : c.more = true := Cursor.more_cons ha
  have hinside : b.inEscape = true := by rcases hb with rfl | rfl <;> rfl
  have hahead := Cursor.ahead_forward_cons (c := c.switch .escape) ha
  obtain ⟨w, d, y, hw, hd⟩ := exists_back_of_pass hp (serves_keeping config)
    (InLiteral.escape config s) h.comes hmore hrule Cursor.state_forward
    ((h.all.switch _).forward (InLiteral.escape config s)) hahead (ne_of_inEscape hinside rfl)
  refine ⟨_, d, y, List.cons_ne_nil _ _, (hd.forward ha).of_switch, ?_⟩
  exact Text.unhidden_inEscape true (fun b hb => Text.endsLiteral_of_inEscape hinner hb)
    (List.forall_mem_cons.2 ⟨hinside, List.forall_mem_cons.2 ⟨hinside, hw⟩⟩) d.ahead

theorem readPlaceholder_allFrom {kind : Category → Prop} (h : c.AllFrom kind i)
    (hopen : kind .placeholder) (hspec : kind .specifier) (m : Memory) :
    (readPlaceholder c m).cursor.AllFrom kind i := by
  unfold readPlaceholder
  simp only
  cases Placeholder.read (if c.state = .string then some quote else none) c.ahead with
  | none => exact h
  | some P =>
    have hstart := (h.switch .placeholder).forwardN hopen P.specStart
    have hend : ∀ {d : Place}, d.AllFrom kind i → d.state = .placeholder → ∀ n,
        ((d.forwardN n).switch c.state).AllFrom kind i := fun hd hs n =>
      (hd.forwardN (hs ▸ hopen) n).switch _
    simp only [Flow.cursor]
    split_ifs
    · exact hend hstart (Cursor.state_forwardN _) _
    · exact hend (((hstart.switch .specifier).forwardN hspec _).switch .placeholder) rfl _

/-- A placeholder. -/
theorem Inside.placeholder {words : WordSets} {P : Placeholder}
    (hp : o.Proper (grammar (marked words)) text start stop first)
    (h : Inside (marked words) o .string i c m)
    (hP : Placeholder.read (closer .string) c.ahead = some P)
    (hrule : (grammar (marked words)).leave c m = readPlaceholder c m) :
    GoesOn (marked words) o .string quote i c := by
  have hin : InString .string c := ⟨h.state, .inl rfl, h.inside⟩
  obtain ⟨d, hread, hstate, halong⟩ := readPlaceholder_along m hin hP
  obtain ⟨D, ⟨⟨u, hu⟩, hpass⟩, rfl⟩ := Placeholder.exists_of_read hP
  have hmore : c.more = true := by simp [Cursor.more, ← hu, Placeholder.Derivation.text]
  have hcomes := h.comes.again hp hmore (Grammar.dispatch_of_again (hrule.trans hread))
  have hall : d.AllFrom (InLiteral (marked words) .string) i := by
    have hall := readPlaceholder_allFrom h.all (.inr (.inr ⟨⟨rfl, rfl⟩, .inl rfl⟩))
      (.inr (.inr ⟨⟨rfl, rfl⟩, .inr rfl⟩)) m
    rwa [hread] at hall
  -- the brace that closes the placeholder is passed last
  have hbody : D.text = (lbrace :: D.inner) ++ [rbrace] := rfl
  have hlast : c.forwardN D.text.length = (c.forwardN (lbrace :: D.inner).length).forward := by
    rw [hbody, List.length_append, Cursor.forwardN_add]
    exact Cursor.forwardN_succ _ 0
  have hbrace : (c.forwardN (lbrace :: D.inner).length).ahead = rbrace :: u := by
    rw [Cursor.ahead_forwardN, ← hu, hbody, List.append_assoc, List.drop_left]
    rfl
  have hahead : d.ahead = u := by
    rw [halong.ahead, Placeholder.Derivation.placeholder, Cursor.ahead_forwardN, ← hu,
      List.drop_left]
  refine ⟨D.text, d, m, List.cons_ne_nil _ _, ⟨hcomes, hall, ?_, ?_, ?_, .inl hstate⟩, ?_⟩
  · rw [hahead, hu]
  · rw [halong.pos]
    exact Cursor.pos_forwardN (by rw [← hu, List.length_append]; exact Nat.le_add_right _ _)
  · rw [halong.atLineStart_eq, Placeholder.Derivation.placeholder, hlast,
      Cursor.forward_cons hbrace]
    rfl
  · have htame : Placeholder.Tame D.text := D.tame.append (.byte (by decide) .nil)
    refine htame.unhidden (List.forall_mem_cons.2 ⟨rfl, fun b hb => ?_⟩) d.ahead
    have hstops := hpass b hb
    refine Text.endsLiteral_eq_false ?_ (ne_newline_of_stops hstops)
    rintro rfl
    cases hstops

/-- A brace in a string, where placeholders are marked. -/
theorem Inside.brace {words : WordSets}
    (hp : o.Proper (grammar (marked words)) text start stop first)
    (h : Inside (marked words) o .string i c m) (ha : c.ahead = b :: t)
    (hb : b = lbrace ∨ b = rbrace) : GoesOn (marked words) o .string quote i c := by
  have hin : InString .string c := ⟨h.state, .inl rfl, h.inside⟩
  have hbyte : c.byte = b := Cursor.byte_cons ha
  have hleave : (grammar (marked words)).leave c m = leaveLiteral (marked words) c m :=
    leave_inString _ m hin
  rcases leaveLiteral_brace words m hin (hbyte ▸ hb) with hrule | ⟨ha', hb', hrule⟩ | ⟨hP, hrule⟩
  · have hfacts : Text.endsLiteral quote b = false ∧ b ≠ backslash := by
      rcases hb with rfl | rfl <;> decide
    exact h.pass .string ha (hleave.trans hrule) hfacts.1
      (Text.hidesNext_of_ne true hfacts.2 _)
  · exact h.pair hp .string ha' hb' (hleave.trans hrule)
  · exact h.placeholder hp hP (hleave.trans hrule)

/-- **At every byte of a literal** the scan goes on as the reader does, or the literal ends for
both. -/
theorem Inside.goesOn (hp : o.Proper (grammar config) text start stop first)
    (h : Inside config o s i c m) (hq : Quoted s q) (ha : c.ahead = b :: t) :
    Text.endsLiteral q b = true ∧ EndsAt config o s i (c.pos + 1) ∨ GoesOn config o s q i c := by
  obtain ⟨hback, hnl, -, -⟩ := hq.facts
  have hmore : c.more = true := Cursor.more_cons ha
  have hbyte : c.byte = b := Cursor.byte_cons ha
  have hnext : c.next = t.getD 0 0 := Cursor.next_cons ha
  have hrule := leave_quoted config m hq h.state
  rw [h.inside, if_neg Bool.false_ne_true, hbyte] at hrule
  by_cases hescape : b = backslash
  · subst hescape
    rw [if_pos rfl] at hrule
    refine .inr ?_
    by_cases hhides : Text.hidesNext true backslash (t.getD 0 0) = true
    · obtain ⟨-, -, x, t, rfl, hx⟩ := Text.exists_of_hidesNext hhides
      exact h.hidden hp hq ha hx
    · have hhides : Text.hidesNext true backslash (t.getD 0 0) = false := by simpa using hhides
      have hpass := Escape.enter_of_hidesNext escapes .escape m
        (fun e => { m with escape := e }) (hnext ▸ hhides)
      exact h.pass hq ha (hrule.trans hpass)
        (Text.endsLiteral_eq_false hback.symm (by decide)) hhides
  · rw [if_neg hescape] at hrule
    have hhides := Text.hidesNext_of_ne true hescape (t.getD 0 0)
    by_cases hclose : b = q
    · -- the closing quote
      rw [if_pos hclose] at hrule
      refine .inl ⟨Text.endsLiteral_iff.2 (.inl hclose), ?_⟩
      have hcomes := h.comes.again hp hmore (Grammar.dispatch_of_again hrule)
      refine ⟨_, m, hcomes, (h.all.forward (.inl h.state)).switch _, ?_, .closed rfl rfl⟩
      exact Cursor.pos_forward_cons ha
    · rw [if_neg hclose] at hrule
      by_cases hbrace : (b = lbrace ∨ b = rbrace) ∧ s = .string ∧ config.placeholders = true
      · obtain ⟨hb, rfl, hmarked⟩ := hbrace
        obtain ⟨words, placeholders⟩ := config
        subst hmarked
        cases hq
        exact .inr (h.brace hp ha hb)
      · rw [if_neg hbrace] at hrule
        by_cases hline : b = newline
        · -- the line ends, and the literal with it
          refine .inl ⟨Text.endsLiteral_iff.2 (.inr hline), ?_⟩
          have hcomes := h.comes.pass hmore
            (Grammar.dispatch_of_pass hrule (by rw [h.state]; exact hq.ne_plain))
          refine ⟨_, _, hcomes, Grammar.allFrom_goOn _ h.all (.inl h.state) m,
            Grammar.pos_goOn _ ha m, .cut ?_ ?_⟩
          · rw [Grammar.state_goOn, h.state]
          · rw [Cursor.atLineStart, Grammar.prev_goOn _ ha m, hline]
            rfl
        · exact .inr (h.pass hq ha hrule (Text.endsLiteral_eq_false hclose hline) hhides)

/-- **The scan and the reader find the same end.** -/
theorem Inside.endsAt (hp : o.Proper (grammar config) text start stop first)
    (h : Inside config o s i c m) (hq : Quoted s q) :
    EndsAt config o s i (c.pos + Text.literalLength q c.ahead) := by
  induction hlen : c.ahead.length using Nat.strongRecOn generalizing c m with
  | _ len ih =>
    subst hlen
    cases ha : c.ahead with
    | nil => exact ⟨c, m, h.comes, h.all, rfl, .unclosed (.inl h.state) ha⟩
    | cons b t =>
      rcases h.goesOn hp hq ha with ⟨hend, hends⟩ | ⟨w, d, y, hne, hd, hmarks⟩
      · rwa [Text.literalLength_end hend hq.facts.1]
      · have hlength : Text.literalLength q c.ahead = Text.literalLength q d.ahead + w.length :=
          Text.literalLength_skip (hd.ahead ▸ hmarks)
        have hpos : c.pos + Text.literalLength q (b :: t) =
            d.pos + Text.literalLength q d.ahead := by
          rw [← ha, hlength, hd.pos]
          omega
        rw [hpos]
        rcases hd.state with hs | ⟨hs, houter, hnil⟩
        · refine ih _ ?_ ⟨hd.comes, hs, hd.all, hd.inside⟩ rfl
          have hlong := List.length_pos_iff.2 hne
          rw [hd.ahead, List.length_append]
          omega
        · exact ⟨d, y, hd.comes, hd.all, by rw [hnil]; rfl, .unclosed (.inr ⟨hs, houter⟩) hnil⟩

/-! ### The whole literal -/

/-- At the end of the text the literal is left as it is. -/
theorem leave_at_end (config : Config) (hq : Quoted s q) (hnil : c.ahead = [])
    (hall : c.AllFrom (InLiteral config s) i)
    (hstate : c.state = s ∨ c.state = .plain ∨ c.state = .escape ∧ m.escape.outer = s) :
    let d := ((grammar config).leave c m).cursor
    let y := ((grammar config).leave c m).data
    d.AllFrom (InLiteral config s) i ∧
      (d.state = s ∨ d.state = .plain ∨ d.state = .escape ∧ y.escape.outer = s) := by
  intro d y
  obtain ⟨-, -, hzero, -⟩ := hq.facts
  have hbyte := Cursor.byte_nil hnil
  rcases hstate with hs | hs | ⟨hs, houter⟩
  · have hrule := leave_quoted config m hq hs
    have hbrace : ¬(((0 : Byte) = lbrace ∨ (0 : Byte) = rbrace) ∧ s = .string ∧
        config.placeholders = true) := fun h => absurd h.1 (by decide)
    rw [hbyte, if_neg (show (0 : Byte) ≠ backslash by decide), if_neg hzero.symm,
      if_neg hbrace] at hrule
    by_cases hline : c.atLineStart = true
    · rw [if_pos hline] at hrule
      simp only [d, y, hrule]
      exact ⟨hall.switch _, .inr (.inl rfl)⟩
    · rw [if_neg hline] at hrule
      simp only [d, y, hrule]
      exact ⟨hall, .inl hs⟩
  · simp only [d, y, leave_plain config m hs]
    exact ⟨hall, .inr (.inl hs)⟩
  · have hrule := (serves_keeping config).leave_at_end (z := m) hnil hs
    simp only [d, y, hrule]
    exact ⟨hall.switch _, .inl houter⟩

/-- A literal that has ended is highlighted as one, and behind it the scan is in the plain category.
-/
theorem EndsAt.filled (hp : o.Proper (grammar config) text start text.length first)
    (h : EndsAt config o s i n) (hq : Quoted s q) (hi : start ≤ i) (last : Bool) :
    (o.completed (grammar config) last).Fills (InLiteral config s) i n ∧
      (n < text.length → o.PlainAt (grammar config) n) := by
  obtain ⟨d, y, hcomes, hall, rfl, hend⟩ := h
  have hstands := (hcomes.stands hp).1
  have hcut : d.ahead = [] →
      (d.state = s ∨ d.state = .plain ∨ d.state = .escape ∧ y.escape.outer = s) →
      (o.completed (grammar config) last).Fills (InLiteral config s) i d.pos ∧
        (d.pos < text.length → o.PlainAt (grammar config) d.pos) := by
    intro hnil hstate
    have hpos := hstands.pos_of_ahead_nil hp.le hnil
    refine ⟨?_, fun hlt => absurd hlt (by omega)⟩
    rw [hpos]
    exact hcomes.fills_end hp hnil
      (fun c m => c.AllFrom (InLiteral config s) i ∧
        (c.state = s ∨ c.state = .plain ∨ c.state = .escape ∧ m.escape.outer = s)) ⟨hall, hstate⟩
      (fun _ _ hnil hc => leave_at_end config hq hnil hc.1 hc.2) (fun _ _ hc => hc.1) hi last
  cases hend with
  | closed hplain hword =>
    exact ⟨hcomes.fills hp hword hall hi last,
      fun _ => hcomes.plainAt hplain (leave_plain config y hplain)⟩
  | cut hs hline =>
    have hrule := leave_quoted config y hq hs
    rw [if_pos hline] at hrule
    cases hahead : d.ahead with
    | nil => exact hcut hahead (.inl hs)
    | cons b t =>
      have hmore : d.more = true := Cursor.more_cons hahead
      exact ⟨hcomes.fills_of_pass hp hmore hrule rfl rfl (hall.switch _) hi last,
        fun _ => ⟨d, y, _, y, hcomes, hrule, rfl, rfl⟩⟩
  | unclosed hs hnil => exact hcut hnil (hs.imp_right .inr)

/-- A quote begins its literal. -/
theorem enter_quoted (hq : Quoted s q) (hb : c.byte = q) (m : Memory) :
    enter c m = .pass (c.switch s) m := by
  rw [enter, hb]
  cases hq
  all_goals
    simp only [show ByteClass.of quote = .punctuation by decide,
      show ByteClass.of apostrophe = .punctuation by decide, enterPunctuation, hb]
    rfl

/-- **Literals of Zig end where their quotes say.** Where a scan of a text is in the plain category
before a quote of either kind, all bytes are those of a literal up to the end that a reader finds
who looks for the next such quote, but not behind a backslash, and not beyond the line. What follows
there is read in the plain category, whether or not placeholders are marked. -/
theorem literals_end (config : Config) (old : Session Category) (text : Text) (p : Nat)
    (hq : Quoted s q) (hplain : (Pass.first (grammar config) text).PlainAt (grammar config) p)
    (hopen : text[p]? = some q) :
    let g := grammar config
    let stop := p + 1 + Text.literalLength q (text.drop (p + 1))
    (∀ i, p ≤ i → i < stop →
      ∃ k, (old.highlight g text).1.styles[i]? = some k ∧ InLiteral config s k) ∧
      (stop < text.length → (Pass.first g text).PlainAt g stop) := by
  intro g stop
  have hp := proper_first (settles config) (staysInLine config) text
  obtain ⟨hlt, -⟩ := List.getElem?_eq_some_iff.1 hopen
  obtain ⟨c, m, d, y, hcomes, hmore, hasks, -, rfl, hstands⟩ := hplain.asks hp hlt
  have hahead : d.ahead = q :: text.drop (d.pos + 1) := by
    rw [hstands.ahead, List.take_length, Text.drop_eq_cons hopen]
  have hnl := hq.facts.2.1
  have hbyte : (d.switch s).byte ≠ newline := by
    rwa [Cursor.byte_cons (c := d.switch s) hahead]
  have hopened := hcomes.pass hmore (hasks.trans (enter_quoted hq (Cursor.byte_cons hahead) y))
  rw [Grammar.goOn_of_ne _ hbyte] at hopened
  have hforward := Cursor.forward_cons (c := d.switch s) hahead
  have hinside : Inside config (Pass.first g text) s d.pos (d.switch s).forward y := by
    refine ⟨hopened, Cursor.state_forward, ?_, ?_⟩
    · exact ((Cursor.AllFrom.here _ d).switch s).forward (.inl rfl)
    · rw [hforward]
      simpa [Cursor.atLineStart] using hnl
  have hends := hinside.endsAt hp hq
  rw [hforward] at hends
  obtain ⟨hfills, hbehind⟩ := hends.filled hp hq (Nat.zero_le _) text.unended
  exact ⟨fun i hi hstop => Session.exists_style (keeps config) old hfills hi hstop, hbehind⟩

/-- A numeric escape that is cut short, a doubled brace, a placeholder and a hidden quote. -/
theorem literals_end_mixed :
    let config : Config := { words := {} }
    let g := grammar config
    let text : Text := [quote, backslash, lowerX, zero, lbrace, lbrace, lbrace, rbrace, backslash,
      quote, quote, lowerA]
    (Pass.first g text).PlainAt g 0 ∧ text[0]? = some quote ∧
      Text.literalLength quote (text.drop (0 + 1)) = 10 ∧
      (∃ k, (Session.highlight g {} text).1.styles[6]? = some k ∧ InLiteral config .string k) ∧
      (Pass.first g text).PlainAt g 11 := by
  intro config g text
  have hplain : (Pass.first g text).PlainAt g 0 := ⟨_, _, _, _, ⟨0, rfl, rfl⟩, rfl, rfl, rfl⟩
  have hlength : Text.literalLength quote (text.drop (0 + 1)) = 10 := by decide
  obtain ⟨hstyles, hbehind⟩ := literals_end config {} text 0 .string hplain rfl
  simp only [hlength] at hstyles hbehind
  exact ⟨hplain, rfl, hlength, hstyles 6 (Nat.zero_le _) (by decide), hbehind (by decide)⟩

end Zig

end Highlight
