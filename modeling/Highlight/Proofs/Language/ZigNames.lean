import Highlight.Proofs.Announced
import Highlight.Proofs.Language.ZigEnds
import Highlight.Proofs.Scan.Runs
import Highlight.Proofs.Session.Forgets
import Highlight.Proofs.Session.LetGo

/-!
The names of Zig and their categories. A name is passed as an identifier, and takes its category
where it ends: at the first byte that is no part of it, or at the end of the text. Nothing else
that the scan passes can run into a name. Plain text and signs are made of bytes that no name has,
and numbers and builtins take the bytes of a name with them. So a run in the category of a name is
one whole name of the text, and no name is left in plain text or among signs. And since no keyword
of Zig announces a type, the category of a name says in which of the lists of words it is
(`Zig.names_as_listed`).
-/

namespace Highlight

open Byte

/-! ### Names in a text -/

namespace Text

/-- Behind `a`, the bytes `w` are a name so far: they begin and go on as one does, and the byte
before them is no part of it. -/
structure NameBehind (a w : Text) : Prop where
  begins : ∃ b t, w = b :: t ∧ isNameStart b = true
  goesOn : ∀ b ∈ w, isNameByte b = true
  apart : ∀ b ∈ a.getLast?, isNameByte b = false

/-- Between `a` and `z`, the bytes `w` are one whole name. -/
structure NameBetween (a w z : Text) : Prop extends a.NameBehind w where
  ends : ∀ b ∈ z.head?, isNameByte b = false

variable {a w : Text} {b : Byte}

theorem NameBehind.concat (h : a.NameBehind w) (hb : isNameByte b = true) :
    a.NameBehind (w ++ [b]) := by
  obtain ⟨x, t, rfl, hx⟩ := h.begins
  refine ⟨⟨x, t ++ [b], rfl, hx⟩, fun y hy => ?_, h.apart⟩
  rcases List.mem_append.1 hy with hy | hy
  · exact h.goesOn y hy
  · exact List.mem_singleton.1 hy ▸ hb

/-- A name ends with a byte of a name. -/
theorem NameBehind.exists_getLast? (h : a.NameBehind w) :
    ∃ b, w.getLast? = some b ∧ isNameByte b = true := by
  obtain ⟨x, t, rfl, -⟩ := h.begins
  exact ⟨_, List.getLast?_eq_some_getLast (List.cons_ne_nil x t), h.goesOn _ (List.getLast_mem _)⟩

end Text

theorem Byte.isNameByte_of_isNameStart {b : Byte} (h : isNameStart b = true) :
    isNameByte b = true := by simp [isNameByte, h]

/-! ### Runs over a text -/

/-- The run is over the bytes `w` of the text, behind `a` and before `z`. -/
structure Run.Over {σ : Type} (text : Text) (r : Run σ) (a w z : Text) : Prop where
  text_eq : text = a ++ w ++ z
  start : a.length = r.start
  len : w.length = r.len

section Over

variable {σ : Type} {text a w z a' w' z' : Text} {r r' : Run σ}

/-- What is behind a run is what the next one is over, and what is behind that one. -/
theorem Run.Over.next (h : r.Over text a w z) (h' : r'.Over text a' w' z')
    (hstop : r.stop = r'.start) : a' = a ++ w ∧ z = w' ++ z' := by
  have hlen : (a ++ w).length = a'.length := by
    rw [List.length_append, h.start, h.len, h'.start]
    exact hstop
  have htext := h.text_eq.symm.trans h'.text_eq
  rw [List.append_assoc a'] at htext
  obtain ⟨ha, hz⟩ := List.append_inj htext hlen
  exact ⟨ha.symm, hz⟩

/-- A run that carries another one on is over the bytes of both. -/
theorem Run.Over.join (h : r.Over text a w z) (h' : r'.Over text a' w' z')
    (hstop : r.stop = r'.start) :
    { r with len := r.len + r'.len }.Over text a (w ++ w') z' := by
  obtain ⟨-, rfl⟩ := h.next h' hstop
  refine ⟨?_, h.start, ?_⟩
  · rw [h.text_eq, List.append_assoc, List.append_assoc, List.append_assoc]
  · rw [List.length_append, h.len, h'.len]

/-- Between two names of a text there is a byte that belongs to neither. -/
theorem Run.Over.stop_ne_of_names (h : r.Over text a w z) (h' : r'.Over text a' w' z')
    (hname : a.NameBetween w z) (hname' : a'.NameBehind w') : r.stop ≠ r'.start := by
  intro hstop
  obtain ⟨-, rfl⟩ := h.next h' hstop
  obtain ⟨b, t, rfl, hb⟩ := hname'.begins
  have hnot := hname.ends b rfl
  rw [isNameByte_of_isNameStart hb] at hnot
  cases hnot

end Over

/-- A type is announced. -/
def Announced.isType : Announced → Bool
  | className | traitName | enumName => true
  | nothing | functionName | value => false

/-- A byte of plain text that begins nothing is no byte of a name. -/
theorem ByteClass.not_isNameByte {b : Byte} (hd : of b ≠ .digit) (hn : of b ≠ .nameStart) :
    isNameByte b = false := by
  cases hb : isNameByte b with
  | false => rfl
  | true =>
    have hspace := (visible_of_isNameByte hb).2
    have hend : isLineEnd b = false := by
      simp only [isSpace, Bool.or_eq_false_iff] at hspace
      exact hspace.1.1.2
    simp only [of, hend, hspace] at hd hn
    cases hdigit : isDigit b with
    | true => simp [hdigit] at hd
    | false =>
      have hstart : isNameStart b = true := by simpa [isNameByte, hdigit] using hb
      simp [hdigit, hstart] at hn

theorem ByteClass.isNameStart_of {b : Byte} (h : of b = .nameStart) : isNameStart b = true := by
  unfold of at h
  split_ifs at h with h₁ h₂ h₃ h₄
  exact h₄

/-- At the beginning of a line no name is behind. -/
theorem Cursor.not_isNameByte_behind {σ : Type} {c : Cursor σ} (h : c.atLineStart = true) :
    isNameByte c.behind = false := by
  unfold Cursor.atLineStart at h
  unfold Cursor.behind
  cases hprev : c.prev with
  | none => rfl
  | some b =>
    have hb : b = newline := by simpa [hprev] using h
    rw [hb]
    rfl

theorem Cursor.behind_forward {σ : Type} [Palette σ] {c : Cursor σ} (h : c.byte ≠ 0) :
    c.forward.behind = c.byte := by
  cases ha : c.ahead with
  | nil => exact absurd (Cursor.byte_nil ha) h
  | cons b t =>
    rw [Cursor.forward_cons ha, Cursor.byte_cons ha]
    rfl

/-! ### What the lists say -/

namespace Zig

/-- The categories of names. -/
def Category.isName : Category → Bool
  | .identifier | .keyword | .typeName | .functionDefinition | .function => true
  | _ => false

/-- A category of names is right for the word `w`: it is that of keywords for a keyword, that of
types for another word that one of the lists has, and one of the others for a word in no list. -/
def Listed (words : WordSets) (w : Text) : Category → Prop
  | .keyword => words.keywords.contains w = true
  | .typeName => words.keywords.contains w = false ∧
      (words.classes.contains w = true ∨ words.traits.contains w = true ∨
        words.types.contains w = true)
  | .identifier | .functionDefinition | .function => words.Lacks w
  | _ => False

theorem isType_announcedBy (w : Text) : (announcedBy w).isType = false := by
  unfold announcedBy
  split_ifs <;> rfl

/-- No name announces a type. -/
theorem isType_classify (words : WordSets) (n : Occurrence) {announced : Announced}
    (h : announced.isType = false) :
    (n.classify words announcedBy announced).2.isType = false := by
  rw [Occurrence.classify_left]
  split_ifs
  · unfold Occurrence.announces
    dsimp only
    split_ifs
    · rfl
    · exact isType_announcedBy n.word
  · exact h
  · rfl

/-- **A name is judged by the lists.** Neighbours and announcements decide only among the
categories of names that no list has. -/
theorem listed_classify (words : WordSets) (n : Occurrence) {announced : Announced}
    (h : announced.isType = false) :
    Listed words n.word (categoryOf (n.classify words announcedBy announced).1) := by
  obtain ⟨hk, hkind⟩ | ⟨hk, hkind⟩ | ⟨hlacks, hkind⟩ :=
    Occurrence.classify_cases words announcedBy n announced
  · rw [hkind]
    exact hk
  · unfold Occurrence.known? at hkind
    split_ifs at hkind with hc ht hy
    all_goals rw [← Option.some.inj hkind]
    · exact ⟨hk, .inl hc⟩
    · exact ⟨hk, .inr (.inl ht)⟩
    · exact ⟨hk, .inr (.inr hy)⟩
  · obtain hkind | hkind | hkind := hkind
    · rw [hkind]
      exact hlacks
    · generalize (n.classify words announcedBy announced).1 = kind at hkind
      cases announced <;> cases h <;> cases hkind
      exact hlacks
    · rw [hkind]
      unfold Occurrence.ofNeighbours
      split_ifs <;> exact hlacks

/-- A category in which no run has a byte of a name. -/
def Category.isBare : Category → Bool
  | .plain | .operator => true
  | _ => false

/-- A category in which a run may have any bytes. -/
def Category.isFree (s : Category) : Bool := !s.isName && !s.isBare

/-- A run in a category of names is a whole name, and the category is right for it; in plain text
and in signs there is no byte of a name. -/
structure Coloured (words : WordSets) (text : Text) (r : Run Category) : Prop where
  name : r.category.isName = true →
    ∃ a w z, r.Over text a w z ∧ a.NameBetween w z ∧ Listed words w r.category
  bare : r.category.isBare = true →
    ∃ a w z, r.Over text a w z ∧ ∀ b ∈ w, isNameByte b = false

variable {config : Config} {words : WordSets} {text w : Text} {c d : Place} {m y : Memory}

theorem isBare_of_listed {s : Category} (h : Listed words w s) : s.isBare = false := by
  cases s <;> first | rfl | exact False.elim h

theorem coloured_of_isFree {r : Run Category} (h : r.category.isFree = true) :
    Coloured words text r := by
  simp only [Category.isFree, Bool.and_eq_true, Bool.not_eq_true'] at h
  exact ⟨fun hname => absurd (h.1.symm.trans hname) nofun,
    fun hbare => absurd (h.2.symm.trans hbare) nofun⟩

/-- Names do not meet, so that none is carried on by another. -/
theorem coloured_lay {r : Run Category} {rs : List (Run Category)}
    (htiles : Run.Tiles 0 rs r.start) (hrs : ∀ r ∈ rs, Coloured words text r)
    (hr : Coloured words text r) : ∀ r' ∈ Run.lay r rs, Coloured words text r' := by
  intro r' hr'
  rcases htiles.of_mem_lay hr' with hr' | rfl | ⟨b, hb, hstop, hcat, rfl⟩
  · exact hrs r' hr'
  · exact hr
  · have hbefore := hrs b hb
    refine ⟨fun hname => ?_, fun hbare => ?_⟩
    · obtain ⟨a, w, z, hover, hbetween, -⟩ := hbefore.name hname
      obtain ⟨a', w', z', hover', hbetween', -⟩ := hr.name (hcat ▸ hname)
      exact absurd hstop (hover.stop_ne_of_names hover' hbetween hbetween'.toNameBehind)
    · obtain ⟨a, w, z, hover, hw⟩ := hbefore.bare hbare
      obtain ⟨a', w', z', hover', hw'⟩ := hr.bare (hcat ▸ hbare)
      refine ⟨a, w ++ w', z', hover.join hover' hstop, fun x hx => ?_⟩
      exact (List.mem_append.1 hx).elim (hw x) (hw' x)

/-! ### Moves -/

/-- The scan has come to its place from the beginning of the text, and the runs closed so far are
coloured rightly. -/
structure Painted (words : WordSets) (text : Text) (c : Place) : Prop extends
    c.Stands text text.length where
  start : c.start = 0
  spelled : ∃ a, text = a ++ c.currentWord ++ c.ahead
  closed : ∀ r ∈ c.closedRuns, Coloured words text r

namespace Painted

theorem over_openRun (h : Painted words text c) {a : Text}
    (htext : text = a ++ c.currentWord ++ c.ahead) :
    c.openRun.Over text a c.currentWord c.ahead := by
  have hlen : c.currentWord.length = c.word.length := List.length_reverse
  have hahead : c.ahead.length = text.length - c.pos := by
    rw [h.ahead, List.take_length, List.length_drop]
  have hall := congrArg List.length htext
  have hle := h.le
  simp only [List.length_append] at hall
  refine ⟨htext, ?_, hlen⟩
  change a.length = c.pos - c.word.length
  omega

/-- All runs are coloured rightly if the one in progress is. -/
theorem runs (h : Painted words text c) (hc : Coloured words text c.openRun) :
    ∀ r ∈ c.runs, Coloured words text r := by
  rw [Cursor.runs_eq_lay h.pos]
  exact coloured_lay (h.start ▸ Cursor.tiles_closedRuns h.pos) h.closed hc

theorem forward (h : Painted words text c) : Painted words text c.forward := by
  refine ⟨h.toStands.forward, Cursor.start_forward.trans h.start, ?_, ?_⟩
  · obtain ⟨a, htext⟩ := h.spelled
    cases ha : c.ahead with
    | nil => exact ⟨a, by rwa [Cursor.forward_nil ha]⟩
    | cons b t =>
      refine ⟨a, ?_⟩
      rw [Cursor.forward_cons ha]
      simpa [Cursor.currentWord, ha] using htext
  · rw [Cursor.closedRuns_forward]
    exact h.closed

theorem forwardN (h : Painted words text c) (n : Nat) : Painted words text (c.forwardN n) := by
  induction n generalizing c with
  | zero => exact h
  | succ n ih =>
    unfold Cursor.forwardN
    split
    · exact ih h.forward
    · exact h

theorem recolor (h : Painted words text c) (s : Category) : Painted words text (c.recolor s) :=
  ⟨h.toStands.recolor s, h.start, h.spelled, h.closed⟩

theorem look (h : Painted words text c) (t : Trail Category) :
    Painted words text { c with trail := t } :=
  ⟨h.toStands.look t, h.start, h.spelled, h.closed⟩

/-- A run is closed where it is coloured rightly. -/
theorem close (h : Painted words text c) (hc : Coloured words text c.openRun) (s : Category) :
    Painted words text (c.switch s) := by
  obtain ⟨a, htext⟩ := h.spelled
  refine ⟨h.toStands.switch s, h.start, ⟨a ++ c.currentWord, ?_⟩, h.runs hc⟩
  simpa [Cursor.currentWord, Cursor.switch] using htext

theorem switch (h : Painted words text c) (hc : c.state.isFree = true) (s : Category) :
    Painted words text (c.switch s) :=
  h.close (coloured_of_isFree hc) s

end Painted

/-! ### Where the rules are asked, and where they let go -/

/-- In these states nothing is to be known but that all closed runs are coloured rightly. -/
def Category.isIdle (s : Category) : Bool := s.isFree && s != .escape

/-- Only a name that is not yet judged is in progress, and no type is announced; an escape goes back
to a literal. The run in progress, of which `w` are the bytes, is part of a name or has no byte of
one, as its category says. -/
structure Holding (words : WordSets) (text w : Text) (c : Place) (m : Memory) : Prop extends
    Painted words text c where
  announced : m.announced.isType = false
  unjudged : c.state.isName = true → c.state = .identifier
  outer : c.state = .escape → m.escape.outer.isLiteral = true
  name : c.state = .identifier → ∀ a, text = a ++ c.currentWord ++ c.ahead → a.NameBehind w
  bare : c.state.isBare = true → ∀ b ∈ w, isNameByte b = false

/-- Where the rules are asked in plain text, the bytes before and behind are not of one name. -/
structure Asked (words : WordSets) (text : Text) (c : Place) (m : Memory) : Prop extends
    Holding words text c.currentWord c m where
  apart : c.state.isBare = true → isNameByte c.behind = true → isNameByte c.byte = false

/-- Where they let go, the byte at hand is one of the run in progress. -/
def LetGo (words : WordSets) (text : Text) (d : Place) (y : Memory) : Prop :=
  Holding words text (d.currentWord ++ [d.byte]) d y

theorem Category.of_isIdle {s : Category} (h : s.isIdle = true) :
    s.isFree = true ∧ s.isName = false ∧ s.isBare = false ∧ s ≠ .escape ∧ s ≠ .identifier ∧
      s ≠ .plain := by
  revert h
  cases s <;> decide

theorem Category.isIdle_of_isLiteral {s : Category} (h : s.isLiteral = true) :
    s.isIdle = true := by
  revert h
  cases s <;> decide

theorem Holding.of_isIdle (h : Painted words text c) (hm : m.announced.isType = false)
    (hs : c.state.isIdle = true) : Holding words text w c m := by
  obtain ⟨-, hname, hbare, hescape, hident, -⟩ := Category.of_isIdle hs
  exact ⟨h, hm, fun e => absurd (hname.symm.trans e) nofun, fun e => absurd e hescape,
    fun e => absurd e hident, fun e => absurd (hbare.symm.trans e) nofun⟩

theorem Holding.of_isBare (h : Painted words text c) (hm : m.announced.isType = false)
    (hs : c.state.isBare = true) (hw : ∀ b ∈ w, isNameByte b = false) :
    Holding words text w c m := by
  have hstate : c.state.isName = false ∧ c.state ≠ .escape ∧ c.state ≠ .identifier := by
    revert hs
    cases c.state <;> decide
  exact ⟨h, hm, fun e => absurd (hstate.1.symm.trans e) nofun, fun e => absurd e hstate.2.1,
    fun e => absurd e hstate.2.2, fun _ => hw⟩

theorem Holding.of_escape (h : Painted words text c) (hm : m.announced.isType = false)
    (hs : c.state = .escape) (ho : m.escape.outer.isLiteral = true) :
    Holding words text w c m := by
  refine ⟨h, hm, ?_, fun _ => ho, ?_, ?_⟩ <;> rw [hs] <;> nofun

theorem Holding.of_identifier (h : Painted words text c) (hm : m.announced.isType = false)
    (hs : c.state = .identifier)
    (hname : ∀ a, text = a ++ c.currentWord ++ c.ahead → a.NameBehind w) :
    Holding words text w c m := by
  refine ⟨h, hm, fun _ => hs, ?_, fun _ => hname, ?_⟩ <;> rw [hs] <;> nofun

theorem Asked.of_isIdle (h : Painted words text c) (hm : m.announced.isType = false)
    (hs : c.state.isIdle = true) : Asked words text c m :=
  ⟨.of_isIdle h hm hs, fun e => absurd ((Category.of_isIdle hs).2.2.1.symm.trans e) nofun⟩

/-- In plain text and in signs the run in progress is coloured rightly at any place. -/
theorem Holding.coloured_openRun (h : Holding words text c.currentWord c m)
    (hs : c.state.isBare = true) : Coloured words text c.openRun := by
  obtain ⟨a, htext⟩ := h.spelled
  have hname : c.state.isName = false := by
    revert hs
    cases c.state <;> decide
  exact ⟨fun e => absurd (hname.symm.trans e) nofun,
    fun _ => ⟨a, _, _, h.over_openRun htext, h.bare hs⟩⟩

/-- What the rule that leaves a run hands over: in plain text the byte at hand is still to be
entered. -/
def Left (words : WordSets) (text : Text) (d : Place) (y : Memory) : Prop :=
  d.state = .plain ∧ Asked words text d y ∨ d.state ≠ .plain ∧ LetGo words text d y

/-! ### Leaving a run -/

theorem Painted.answers_pass (h : Painted words text c) (hm : m.announced.isType = false)
    (hs : c.state.isIdle = true) :
    (Flow.pass c m).Answers (Asked words text) (Left words text) :=
  .inr ⟨(Category.of_isIdle hs).2.2.2.2.2, .of_isIdle h hm hs⟩

/-- Plain text may begin where the byte behind and the byte at hand are not of one name. -/
theorem Asked.plain (h : Painted words text (c.switch .plain)) (hm : m.announced.isType = false)
    (hb : isNameByte c.behind = true → isNameByte c.byte = false) :
    Asked words text (c.switch .plain) m :=
  ⟨.of_isBare h hm rfl nofun, fun _ => hb⟩

theorem Painted.answers_plain (h : Painted words text (c.switch .plain))
    (hm : m.announced.isType = false)
    (hb : isNameByte c.behind = true → isNameByte c.byte = false) :
    (Flow.pass (c.switch .plain) m).Answers (Asked words text) (Left words text) :=
  .inl ⟨rfl, .plain h hm hb⟩

theorem Painted.answers_lineStart (h : Painted words text (c.switch .plain))
    (hm : m.announced.isType = false) (hstart : c.atLineStart = true) :
    (Flow.pass (c.switch .plain) m).Answers (Asked words text) (Left words text) := by
  refine h.answers_plain hm fun hbehind => ?_
  rw [Cursor.not_isNameByte_behind hstart] at hbehind
  cases hbehind

theorem readPlaceholder_answers (h : Painted words text c) (hm : m.announced.isType = false)
    (hs : c.state.isLiteral = true) :
    (readPlaceholder c m).Answers (Asked words text) (Left words text) := by
  have hidle := Category.isIdle_of_isLiteral hs
  unfold readPlaceholder
  dsimp only
  split
  case h_1 => exact h.answers_pass hm hidle
  case h_2 p hp =>
    have hopen : Painted words text ((c.switch .placeholder).forwardN p.specStart) :=
      (h.switch (Category.of_isIdle hidle).1 _).forwardN _
    have hopen' : ((c.switch .placeholder).forwardN p.specStart).state.isFree = true := by
      rw [Cursor.state_forwardN]
      rfl
    refine Asked.of_isIdle (Painted.switch (Painted.forwardN ?_ _) ?_ _) hm hidle
    · split
      · exact hopen
      · refine ((hopen.switch hopen' _).forwardN _).switch ?_ _
        rw [Cursor.state_forwardN]
        rfl
    · rw [Cursor.state_forwardN]
      split
      · exact hopen'
      · rfl

theorem leaveLiteral_answers (h : Painted words text c) (hm : m.announced.isType = false)
    (hs : c.state.isLiteral = true) :
    (leaveLiteral config c m).Answers (Asked words text) (Left words text) := by
  have hidle := Category.isIdle_of_isLiteral hs
  have hfree := (Category.of_isIdle hidle).1
  have hescape : ∀ {d : Place} {e : Escape Category}, Painted words text d → d.state = .escape →
      e.outer = c.state →
      (Flow.pass d { m with escape := e }).Answers (Asked words text) (Left words text) :=
    fun {d e} hd hstate he => .inr ⟨by rw [hstate]; decide, .of_escape hd hm hstate (he ▸ hs)⟩
  -- behind a literal stands the byte that closed it
  have hclose : ∀ {b : Byte}, c.byte = b → b ≠ 0 → isNameByte b = false →
      (Flow.again (c.forwardSwitch .plain) m).Answers (Asked words text) (Left words text) := by
    intro b hb hne hnot
    refine Asked.plain (h.forward.switch ?_ _) hm fun hbehind => ?_
    · rwa [Cursor.state_forward]
    · rw [Cursor.behind_forward (hb ▸ hne), hb, hnot] at hbehind
      cases hbehind
  unfold leaveLiteral
  split_ifs with hstart hback hchar hstring hbrace
  · exact (h.switch hfree _).answers_lineStart hm hstart
  · unfold Escape.enter
    dsimp only
    split_ifs
    · exact h.answers_pass hm hidle
    · refine hescape (h.switch hfree _).forward.forward ?_ rfl
      rw [Cursor.state_forward, Cursor.state_forward]
      rfl
    · refine hescape (h.switch hfree _).forward ?_ rfl
      rw [Cursor.state_forward]
      rfl
  · exact hclose hchar.1 (by decide) (by decide)
  · exact hclose hstring.1 (by decide) (by decide)
  · unfold leaveBrace
    split_ifs
    · refine hescape (h.switch hfree _).forward ?_ rfl
      rw [Cursor.state_forward]
      rfl
    · exact readPlaceholder_answers h hm hs
    · exact h.answers_pass hm hidle
  · exact h.answers_pass hm hidle

/-- **A name is judged where it ends.** -/
theorem classifyName_answers (h : Asked config.words text c m) (hs : c.state = .identifier)
    (hb : isNameByte c.byte = false) :
    let (d, y) := classifyName config c m
    (Flow.pass (d.switch .plain) y).Answers (Asked config.words text)
      (Left config.words text) := by
  obtain ⟨a, htext⟩ := h.spelled
  have hends : ∀ b ∈ c.ahead.head?, isNameByte b = false := by
    intro b hhead
    obtain ⟨t, ha⟩ := List.head?_eq_some_iff.1 hhead
    rwa [Cursor.byte_cons ha] at hb
  have hlisted := listed_classify config.words (Occurrence.endingAt c m.before) h.announced
  have hleft := isType_classify config.words (Occurrence.endingAt c m.before) h.announced
  unfold classifyName
  dsimp only
  generalize categoryOf (Occurrence.classify config.words announcedBy
    (Occurrence.endingAt c m.before) m.announced).1 = s at hlisted
  have hjudged : Painted config.words text ((c.recolor s).remember s) :=
    (h.toPainted.recolor s).look _
  refine .inl ⟨rfl, .plain (hjudged.close ⟨fun _ => ?_, fun hbare => ?_⟩ _) hleft fun _ => hb⟩
  · exact ⟨a, _, _, hjudged.over_openRun htext, ⟨h.name hs a htext, hends⟩, hlisted⟩
  · exact absurd ((isBare_of_listed hlisted).symm.trans hbare) nofun

/-- From an escape the scan goes back to its literal, in which no name stands. -/
theorem leaveEscape_answers (h : Asked config.words text c m) (hs : c.state = .escape) :
    (m.escape.leave c fun e => { m with escape := e }).Answers (Asked config.words text)
      (Left config.words text) := by
  have houter := h.outer hs
  have hplain : c.state ≠ .plain := by
    rw [hs]
    decide
  unfold Escape.leave
  dsimp only
  split
  case isTrue =>
    refine Asked.of_isIdle (Painted.switch ?_ ?_ _) h.announced
      (Category.isIdle_of_isLiteral houter)
    · split
      · exact h.toPainted.forward
      · exact h.toPainted
    · split
      · rw [Cursor.state_forward, hs]
        rfl
      · rw [hs]
        rfl
  case isFalse => exact .inr ⟨hplain, .of_escape h.toPainted h.announced hs houter⟩

theorem leave_answers (h : Asked config.words text c m) :
    (leave config c m).Answers (Asked config.words text) (Left config.words text) := by
  have hplain : c.state.isFree = true → isNameByte c.byte = false →
      (Flow.pass (c.switch .plain) m).Answers (Asked config.words text)
        (Left config.words text) := fun hs hb =>
    (h.toPainted.switch hs _).answers_plain h.announced fun _ => hb
  unfold leave
  cases hs : c.state
  case plain => exact .inl ⟨hs, h⟩
  case operator =>
    have hbare : c.state.isBare = true := by
      rw [hs]
      rfl
    exact (h.close (h.coloured_openRun hbare) _).answers_plain h.announced (h.apart hbare)
  case number =>
    dsimp only
    split
    case isTrue => exact h.toPainted.answers_pass h.announced (by rw [hs]; rfl)
    case isFalse hnot =>
      -- a number takes all bytes of names with it
      refine hplain (by rw [hs]; rfl) ?_
      simp only [continuesNumber, Bool.or_eq_true, not_or, Bool.not_eq_true] at hnot
      exact hnot.1.1
  case identifier =>
    dsimp only
    split
    case isTrue hb =>
      have hplain : c.state ≠ .plain := by
        rw [hs]
        decide
      exact .inr ⟨hplain, .of_identifier h.toPainted h.announced hs fun a htext =>
        (h.name hs a htext).concat hb⟩
    case isFalse hb => exact classifyName_answers h hs (Bool.eq_false_iff.2 hb)
  case builtin =>
    dsimp only
    split
    case isTrue => exact h.toPainted.answers_pass h.announced (by rw [hs]; rfl)
    case isFalse hb => exact hplain (by rw [hs]; rfl) (Bool.eq_false_iff.2 hb)
  case lineComment | docComment | topComment =>
    dsimp only
    split
    case isTrue hstart =>
      exact (h.toPainted.switch (by rw [hs]; rfl) _).answers_lineStart h.announced hstart
    case isFalse => exact h.toPainted.answers_pass h.announced (by rw [hs]; rfl)
  case character | string | multilineString =>
    exact leaveLiteral_answers h.toPainted h.announced (by rw [hs]; rfl)
  case escape => exact leaveEscape_answers h hs
  case placeholder | specifier => exact h.toPainted.answers_pass h.announced (by rw [hs]; rfl)
  case keyword | typeName | functionDefinition | function =>
    have hident := h.unjudged (by rw [hs]; rfl)
    rw [hs] at hident
    cases hident

/-! ### Entering one -/

theorem enterComment_lets (h : Painted words text (c.switch .lineComment))
    (hm : m.announced.isType = false) :
    (enterComment c m).Answers (Asked words text) (LetGo words text) := by
  have hgo : Painted words text ((c.switch .lineComment).forwardN 2) := h.forwardN 2
  have hstate : ((c.switch .lineComment).forwardN 2).state = .lineComment :=
    Cursor.state_forwardN 2
  have hmark : (if c.visible = 0 then m.markComment else m).announced.isType = false := by
    split <;> exact hm
  unfold enterComment
  generalize (if c.visible = 0 then m.markComment else m) = y at hmark
  generalize (c.switch .lineComment).forwardN 2 = d at hgo hstate
  dsimp only
  split_ifs
  · exact Holding.of_isIdle (hgo.recolor _) hmark rfl
  · exact Holding.of_isIdle (hgo.recolor _) hmark rfl
  · exact Holding.of_isIdle hgo hmark (by rw [hstate]; rfl)

theorem enter_lets (hs : c.state = .plain) (h : Asked words text c m) :
    (enter c m).Answers (Asked words text) (LetGo words text) := by
  have hbare : c.state.isBare = true := by
    rw [hs]
    rfl
  have hbegun : ∀ s, Painted words text (c.switch s) := h.close (h.coloured_openRun hbare)
  have hbegins : ∀ {s : Category} {y : Memory}, y.announced = m.announced → s.isIdle = true →
      (Flow.pass (c.switch s) y).Answers (Asked words text) (LetGo words text) :=
    fun hy hidle => Holding.of_isIdle (hbegun _) (hy ▸ h.announced) hidle
  have hstay : isNameByte c.byte = false →
      (Flow.pass c m).Answers (Asked words text) (LetGo words text) := fun hb =>
    Holding.of_isBare h.toPainted h.announced hbare fun b hmem =>
      (List.mem_append.1 hmem).elim (h.bare hbare b) fun hmem => List.mem_singleton.1 hmem ▸ hb
  unfold enter
  cases hclass : ByteClass.of c.byte
  case digit => exact hbegins rfl rfl
  case nameStart =>
    have hstart := ByteClass.isNameStart_of hclass
    have hbyte := isNameByte_of_isNameStart hstart
    refine Holding.of_identifier (hbegun _) h.announced rfl fun a htext =>
      ⟨⟨c.byte, [], rfl, hstart⟩, fun b hb => List.mem_singleton.1 hb ▸ hbyte, fun b hb => ?_⟩
    have hsplit : a = text.take c.pos := by
      have hahead : text = text.take c.pos ++ c.ahead := by
        rw [h.ahead, List.take_length, List.take_append_drop]
      refine List.append_cancel_right (?_ : a ++ c.ahead = text.take c.pos ++ c.ahead)
      rw [← hahead]
      simpa [Cursor.currentWord, Cursor.switch] using htext.symm
    have hbehind : c.behind = b := by
      rw [Cursor.behind, h.prev, ← hsplit, hb]
      rfl
    -- a name does not begin behind a byte of another one
    have hapart := h.apart hbare
    rw [hbehind, hbyte] at hapart
    exact Bool.eq_false_iff.2 fun hname => Bool.noConfusion (hapart hname)
  case punctuation =>
    have hbyte := ByteClass.not_isNameByte (b := c.byte) (by rw [hclass]; decide)
      (by rw [hclass]; decide)
    unfold enterPunctuation
    dsimp only
    split_ifs
    · exact enterComment_lets (hbegun _) h.announced
    · exact hbegins rfl rfl
    · exact hbegins rfl rfl
    · exact hbegins rfl rfl
    · exact hbegins rfl rfl
    · exact hbegins rfl rfl
    · exact Holding.of_isBare (hbegun _) h.announced rfl fun b hb =>
        List.mem_singleton.1 hb ▸ hbyte
  case space | lineEnd | control =>
    exact hstay (ByteClass.not_isNameByte (by rw [hclass]; decide) (by rw [hclass]; decide))

/-! ### All through a scan -/

/-- At the end of the text nothing is entered. -/
theorem Left.letGo (h : Left words text d y) (hnil : d.ahead = []) : LetGo words text d y := by
  rcases h with ⟨hs, h⟩ | ⟨-, h⟩
  · have hbare : d.state.isBare = true := by
      rw [hs]
      rfl
    refine .of_isBare h.toPainted h.announced hbare fun b hmem => ?_
    rcases List.mem_append.1 hmem with hmem | hmem
    · exact h.bare hbare b hmem
    · rw [List.mem_singleton.1 hmem, Cursor.byte_nil hnil]
      rfl
  · exact h

/-- No name goes on at the end of the text. -/
theorem LetGo.ne_identifier (h : LetGo words text d y) (hnil : d.ahead = []) :
    d.state ≠ .identifier := by
  intro hs
  obtain ⟨a, htext⟩ := h.spelled
  have hlast := (h.name hs a htext).goesOn d.byte
    (List.mem_append_right _ (List.mem_singleton_self _))
  rw [Cursor.byte_nil hnil] at hlast
  cases hlast

/-- Where nothing is left to be passed, the byte at hand does not count. -/
theorem LetGo.holding (h : LetGo words text d y) (hnil : d.ahead = []) :
    Holding words text d.currentWord d y :=
  ⟨h.toPainted, h.announced, h.unjudged, h.outer, fun hs => absurd hs (h.ne_identifier hnil),
    fun hs b hb => h.bare hs b (List.mem_append_left _ hb)⟩

/-- Behind the byte that is let go of, the rules are asked again. -/
theorem LetGo.forward (h : LetGo words text d y) : Asked words text d.forward y := by
  have hpainted := h.toPainted.forward
  have hbyte : d.state.isBare = true → isNameByte d.byte = false := fun hs =>
    h.bare hs d.byte (List.mem_append_right _ (List.mem_singleton_self _))
  cases ha : d.ahead with
  | nil =>
    rw [Cursor.forward_nil ha]
    exact ⟨h.holding ha, fun hs _ => hbyte hs⟩
  | cons b t =>
    have hb := Cursor.byte_cons ha
    have hword : d.forward.currentWord = d.currentWord ++ [d.byte] := by
      rw [Cursor.forward_cons ha, hb]
      exact List.reverse_cons
    have hbehind : d.forward.behind = d.byte := by
      rw [Cursor.forward_cons ha, hb]
      rfl
    refine ⟨⟨hpainted, h.announced, ?_, ?_, ?_, ?_⟩, ?_⟩ <;> rw [Cursor.state_forward]
    · exact h.unjudged
    · exact h.outer
    · intro hs a htext
      rw [hword]
      refine h.name hs a ?_
      rw [htext, hword, Cursor.forward_cons ha, ha, hb]
      simp
    · rw [hword]
      exact h.bare
    · intro hs hname
      rw [hbehind, hbyte hs] at hname
      cases hname

theorem turns_asked (config : Config) (text : Text) :
    (grammar config).Turns text (Asked config.words text) (LetGo config.words text) where
  dispatch _ _ h :=
    Grammar.answers_dispatch (staysInLine config) (leave_answers h)
      (fun _ hleft hs => enter_lets hs (hleft.resolve_right fun h => h.1 hs).2)
      fun hleft hs => (hleft.resolve_left fun h => hs h.1).2
  last _ hnil h :=
    Grammar.answers_last (staysInLine config) (leave_answers h) hnil Left.letGo
  forward _ _ h := h.forward
  endLine {d y} _ _ h := by
    have hnew : LetGo config.words text d.newLine (endLine d y).2 :=
      ⟨h.toPainted.look _, rfl, h.unjudged, h.outer, h.name, h.bare⟩
    exact hnew.forward

theorem asked_first (config : Config) (text : Text) :
    Asked config.words text (Pass.first (grammar config) text).cursor
      (Pass.first (grammar config) text).data := by
  have htells := (Pass.holds_run (staysInLine config) text 0).tells
  exact ⟨.of_isBare ⟨htells.toStands, rfl, ⟨[], rfl⟩, nofun⟩ rfl rfl nofun, nofun⟩

/-- At the end of the text all runs are coloured rightly, unless a name is in progress. -/
theorem Holding.coloured_runs (h : Holding words text c.currentWord c m)
    (hs : c.state ≠ .identifier) : ∀ r ∈ c.runs, Coloured words text r :=
  h.runs ⟨fun hname => absurd (h.unjudged hname) hs,
    fun hbare => (h.coloured_openRun hbare).bare hbare⟩

/-- A text that ends with a newline does not end with a name. -/
theorem Asked.ne_identifier (h : Asked words text c m) (hnil : c.ahead = [])
    (hend : text.unended = false) : c.state ≠ .identifier := by
  intro hs
  obtain ⟨a, htext⟩ := h.spelled
  obtain ⟨b, hb, hbyte⟩ := (h.name hs a htext).exists_getLast?
  rw [hnil, List.append_nil] at htext
  have hlast : text.getLast? = some b := by
    rw [htext, List.getLast?_append, hb]
    rfl
  have hnl : b = newline := by
    have hne : text.isEmpty = false := by
      cases text with
      | nil => cases hlast
      | cons => rfl
    simpa [Text.unended, hne, hlast] using hend
  rw [hnl] at hbyte
  cases hbyte

theorem coloured_fresh (config : Config) (text : Text) :
    ∀ r ∈ (Pass.fresh (grammar config) text).cursor.runs, Coloured config.words text r := by
  obtain ⟨q, hnil, hruns, hends⟩ := Pass.exists_end (settles config) (staysInLine config)
    (turns_asked config text) (asked_first config text)
  rw [hruns]
  split at hends
  case isTrue =>
    exact (LetGo.holding hends hnil).coloured_runs (LetGo.ne_identifier hends hnil)
  case isFalse hend =>
    exact hends.toHolding.coloured_runs (hends.ne_identifier hnil (Bool.eq_false_iff.2 hend))

/-- **Names as the lists say.** Every run in a category of names is one whole name of the text, the
last one of a text without a newline included. A keyword is in the list of keywords; a type is no
keyword, and is in the list of classes, of traits or of types; and any other name is in no list.
Plain text and signs have no byte of a name, so that no name is passed over. -/
theorem names_as_listed (config : Config) (s : Session Category) (text : Text) :
    ∃ kept found, s.highlight (grammar config) text = (kept, .ok found) ∧
      ∀ r ∈ found.runs,
        (r.category.isName = true → ∃ a w z, r.Over text a w z ∧ a.NameBetween w z ∧
          Listed config.words w r.category) ∧
        (r.category.isBare = true → ∃ a w z, r.Over text a w z ∧
          ∀ b ∈ w, isNameByte b = false) := by
  refine ⟨_, _, Session.highlight_of_staysInLine (staysInLine config) s text, fun r hr => ?_⟩
  obtain ⟨hname, hbare⟩ := coloured_fresh config text r hr
  exact ⟨hname, hbare⟩

/-- In `fn u8`, with no newline behind it, the last word is a type. -/
theorem names_as_listed_last :
    let words : WordSets := { keywords := ⟨[[0x66, 0x6E]]⟩, types := ⟨[[0x75, 0x38]]⟩ }
    let text : Text := [0x66, 0x6E, space, 0x75, 0x38]
    let last : Run Category := ⟨3, 2, .typeName⟩
    ∃ kept found, Session.highlight (grammar { words := words }) {} text = (kept, .ok found) ∧
      last ∈ found.runs ∧ last.category.isName = true ∧
      ∃ a w z, last.Over text a w z ∧ a.NameBetween w z ∧ Listed words w last.category := by
  intro words text last
  obtain ⟨kept, found, hfound, hruns⟩ := names_as_listed { words := words } {} text
  have hlast : last ∈ found.runs := by
    have hall : (Session.highlight (grammar { words := words }) {} text).2.toOption.map
        Outcome.runs = some [⟨0, 2, .keyword⟩, ⟨2, 1, .plain⟩, last] := by decide
    rw [hfound] at hall
    rw [Option.some.inj hall]
    decide
  exact ⟨kept, found, hfound, hlast, rfl, (hruns last hlast).1 rfl⟩

end Zig

end Highlight
