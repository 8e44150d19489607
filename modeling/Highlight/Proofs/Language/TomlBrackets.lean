import Highlight.Proofs.Language.TomlEnds
import Highlight.Proofs.Session.LetGo

/-!
The brackets of TOML. The number of open brackets is kept only for the time of a scan, and a bracket
is counted by the rule that begins its run, before it is passed. Still the categories tell it: all
through a scan the number is the balance of the brackets passed as operators (`Counted`), whatever
takes another category later. So the categories tell at the end of which lines a region is open
(`nested_fresh`).
-/

namespace Highlight.Toml

open Byte Pass

variable {words : WordSets} {c d : Place} {m : Memory} {f : Rule} {text : Text} {stop : Nat}

/-! ### The balance of brackets -/

/-- The number of open brackets after one more byte. Only operators count, and a bracket that closes
nothing does not. -/
def countBracket (n : Nat) (p : Byte × Category) : Nat :=
  if p.2 ≠ .operator then n
  else if p.1 = lbracket ∨ p.1 = lbrace then n + 1
  else if p.1 = rbracket ∨ p.1 = rbrace then n - 1
  else n

theorem countBracket_operator (n : Nat) (b : Byte) :
    countBracket n (b, .operator) = bracketsAfter b n := by simp [countBracket, bracketsAfter]

theorem countBracket_of_ne {s : Category} (hs : s ≠ .operator) (n : Nat) (b : Byte) :
    countBracket n (b, s) = n := if_pos hs

/-- The zero byte, which stands for the end of the text, is no bracket. -/
theorem countBracket_zero (n : Nat) (s : Category) : countBracket n (0, s) = n := by
  simp [countBracket, lbracket, lbrace, rbracket, rbrace]

/-- The number of open brackets behind a place. -/
def openBehind (text : Text) (c : Place) : Nat :=
  ((text.take c.pos).reverse.zip c.spent).foldr (fun p n => countBracket n p) 0

/-- Which bytes are operators is all that matters of the categories. -/
theorem foldr_countBracket (l : Text) (k : List Category) :
    (l.zip k).foldr (fun p n => countBracket n p) 0 =
      (l.zip (k.map (· == .operator))).foldr
        (fun p n => if p.2 then bracketsAfter p.1 n else n) 0 := by
  rw [List.zip_map_right, List.foldr_map]
  congr 1
  funext p n
  by_cases hs : p.2 = .operator <;> simp [countBracket, bracketsAfter, hs]

theorem openBehind_switch (s : Category) : openBehind text (c.switch s) = openBehind text c := by
  unfold openBehind
  rw [Cursor.spent_switch]
  rfl

theorem openBehind_recolor {s : Category} (hc : c.state ≠ .operator) (hs : s ≠ .operator) :
    openBehind text (c.recolor s) = openBehind text c := by
  have hsame : (c.recolor s).spent.map (· == .operator) = c.spent.map (· == .operator) := by
    simp [Cursor.spent, Cursor.recolor, hc, hs]
  unfold openBehind
  rw [foldr_countBracket, hsame, ← foldr_countBracket]
  rfl

theorem openBehind_forward {b : Byte} {t : Text} (h : c.Stands text stop) (ha : c.ahead = b :: t) :
    openBehind text c.forward = countBracket (openBehind text c) (b, c.state) := by
  have htake := (h.ahead_cons ha).2.2.1
  unfold openBehind
  rw [Cursor.pos_forward_cons ha, htake, List.reverse_append, Cursor.spent_forward ha]
  rfl

/-! ### Moves over no bracket -/

/-- From `c` to `d` a rule passes operators only if they are points, and no run becomes one. -/
inductive Steady (c : Place) : Place → Prop where
  | refl : Steady c c
  | forward {d : Place} (h : Steady c d) (hd : d.state ≠ .operator ∨ d.byte = dot) :
      Steady c d.forward
  | switch {d : Place} (h : Steady c d) (s : Category) : Steady c (d.switch s)
  | recolor {d : Place} (h : Steady c d) {s : Category} (hd : d.state ≠ .operator)
      (hs : s ≠ .operator) : Steady c (d.recolor s)

namespace Steady

theorem trans {e : Place} (h : Steady c d) (h' : Steady d e) : Steady c e := by
  induction h' with
  | refl => exact h
  | forward _ hd ih => exact ih.forward hd
  | switch _ s ih => exact ih.switch s
  | recolor _ hd hs ih => exact ih.recolor hd hs

/-- More bytes of a run that is no operator. -/
theorem forwardN (h : Steady c d) (hd : d.state ≠ .operator) (n : Nat) :
    Steady c (d.forwardN n) := by
  induction n generalizing d with
  | zero => exact h
  | succ n ih =>
    unfold Cursor.forwardN
    split
    · exact ih (h.forward (.inl hd)) (by rwa [Cursor.state_forward])
    · exact h

/-- Such moves leave the balance as it is. -/
theorem openBehind_eq (h : Steady c d) (hc : c.Stands text stop) :
    openBehind text d = openBehind text c ∧ d.Stands text stop := by
  induction h with
  | refl => exact ⟨rfl, hc⟩
  | @forward d _ hd ih =>
    refine ⟨?_, ih.2.forward⟩
    cases ha : d.ahead with
    | nil => rw [Cursor.forward_nil ha, ih.1]
    | cons b t =>
      rw [openBehind_forward ih.2 ha, ih.1]
      by_cases hop : d.state = .operator
      · have hb : b = dot := (Cursor.byte_cons ha).symm.trans (hd.resolve_left (· hop))
        rw [hop, countBracket_operator, hb]
        rfl
      · exact countBracket_of_ne hop _ _
  | switch _ s ih => exact ⟨(openBehind_switch s).trans ih.1, ih.2.switch s⟩
  | recolor _ hd hs ih => exact ⟨(openBehind_recolor hd hs).trans ih.1, ih.2.recolor _⟩

end Steady

/-! ### Leaving a run -/

/-- No escape goes back to an operator or to the head of a table. -/
def Memory.Returns (m : Memory) : Prop := m.escape.outer ≠ .operator ∧ m.escape.outer ≠ .table

/-- What is answered counts no bracket and changes no flag. The head of a table is begun nowhere
but at the beginning of a line, and only in one are points counted. -/
structure Inert (c : Place) (m : Memory) (f : Rule) : Prop where
  steady : Steady c f.cursor
  state : f.cursor.state ≠ .operator
  returns : f.data.Returns
  brackets : f.data.brackets = m.brackets
  flags : f.data.flags = m.flags
  head : c.state ≠ .table → f.cursor.state ≠ .table ∧ f.data.level = m.level

theorem Inert.pass (hc : c.state ≠ .operator) (hm : m.Returns) : Inert c m (.pass c m) :=
  ⟨.refl, hc, hm, rfl, rfl, fun h => ⟨h, rfl⟩⟩

theorem Inert.plain (c : Place) (hm : m.Returns) : Inert c m (.pass (c.switch .plain) m) :=
  ⟨.switch .refl _, nofun, hm, rfl, rfl, fun _ => ⟨nofun, rfl⟩⟩

/-- What is answered behind such moves within the run. -/
theorem Inert.after (h : Inert d m f) (hd : Steady c d) (hstate : d.state = c.state) :
    Inert c m f :=
  { h with
    steady := hd.trans h.steady
    head := fun hc => h.head (hstate ▸ hc) }

section Rules

variable (hc : c.state ≠ .operator) (hm : m.Returns)

include hc hm

theorem inert_endValue : Inert c m (endValue words c m) := by
  unfold endValue
  split
  case isTrue => exact ⟨.recolor .refl hc nofun, nofun, hm, rfl, rfl, fun _ => ⟨nofun, rfl⟩⟩
  case isFalse =>
    refine ⟨.switch ?_ _, nofun, hm, rfl, rfl, fun _ => ⟨nofun, rfl⟩⟩
    split
    · exact .recolor .refl hc nofun
    · exact .refl

theorem inert_leaveNumber : Inert c m (leaveNumber words c m) := by
  unfold leaveNumber
  split_ifs
  · exact .pass hc hm
  · exact ⟨.recolor .refl hc nofun, nofun, hm, rfl, rfl, fun _ => ⟨nofun, rfl⟩⟩
  · exact inert_endValue hc hm

theorem inert_leaveString (htable : c.state ≠ .table) : Inert c m (leaveString words c m) := by
  have hescape : ∀ {d : Place} {e : Escape Category}, Steady c d → d.state = .escape →
      e.outer = c.state → Inert c m (.pass d { m with escape := e }) := by
    intro d e hd hs he
    refine ⟨hd, ?_, ⟨he ▸ hc, he ▸ htable⟩, rfl, rfl, fun _ => ⟨?_, rfl⟩⟩
    · exact hs ▸ nofun
    · exact hs ▸ nofun
  have hgo : Steady c (c.switch .escape).forward := (Steady.refl.switch _).forward (.inl nofun)
  unfold leaveString
  simp only
  split_ifs
  · exact .plain c hm
  · unfold Escape.enter
    dsimp only
    split_ifs
    · exact .pass hc hm
    · exact hescape (hgo.forward (.inl (by rw [Cursor.state_forward]; nofun)))
        (Cursor.state_forward.trans Cursor.state_forward) rfl
    · exact hescape hgo Cursor.state_forward rfl
  · -- the closing byte is passed, and the value ends behind it
    refine (inert_endValue ?_ hm).after (Steady.refl.forward (.inl hc)) Cursor.state_forward
    rwa [Cursor.state_forward]
  · have hlast : Steady c c.toLastOfRun := Steady.refl.forwardN hc _
    refine ⟨(hlast.forward (.inl ?_)).switch _, nofun, hm, rfl, rfl, fun _ => ⟨nofun, rfl⟩⟩
    rwa [Cursor.toLastOfRun, Cursor.state_forwardN]
  · exact .pass hc hm
  · exact .pass hc hm

end Rules

theorem steady_passQuoting (hc : c.state ≠ .operator) (m : Memory) :
    Steady c (passQuoting c m).1 ∧ (passQuoting c m).1.state = c.state ∧
      (passQuoting c m).2 = { m with key := (passQuoting c m).2.key } := by
  have hgo : Steady c c.forward := Steady.refl.forward (.inl hc)
  unfold passQuoting
  split
  · split
    · exact ⟨hgo, Cursor.state_forward, rfl⟩
    · exact ⟨.refl, rfl, rfl⟩
  · split_ifs
    · exact ⟨hgo, Cursor.state_forward, rfl⟩
    · exact ⟨hgo, Cursor.state_forward, rfl⟩
    · exact ⟨.refl, rfl, rfl⟩
  · exact ⟨.refl, rfl, rfl⟩
  · exact ⟨.refl, rfl, rfl⟩

/-- The head of a table ends with one or two brackets, which count as little as the opening ones. -/
theorem inert_closeTable (hc : c.state = .table) (hm : m.Returns) : Inert c m (closeTable c m) := by
  have hop : c.state ≠ .operator := by simp [hc]
  have hgo : Steady c (if c.forward.byte = rbracket then c.forward.forward else c.forward) ∧
      (if c.forward.byte = rbracket then c.forward.forward else c.forward).state = c.state := by
    have hone : Steady c c.forward := Steady.refl.forward (.inl hop)
    split
    · exact ⟨hone.forward (.inl (by rwa [Cursor.state_forward])), by simp⟩
    · exact ⟨hone, Cursor.state_forward⟩
  unfold closeTable
  dsimp only
  generalize (if c.forward.byte = rbracket then c.forward.forward else c.forward) = d at hgo
  obtain ⟨hsteady, hstate⟩ := hgo
  split
  · exact ⟨hsteady.switch _, nofun, hm, rfl, rfl, fun h => absurd hc h⟩
  · exact ⟨hsteady, fun h => hop (hstate ▸ h), hm, rfl, rfl, fun h => absurd hc h⟩

theorem inert_leaveKey (hc : c.state = .table ∨ c.state = .key) (hm : m.Returns) :
    Inert c m (leaveKey c m) := by
  have hop : c.state ≠ .operator := by rcases hc with h | h <;> rw [h] <;> nofun
  unfold leaveKey
  split
  case isTrue => exact .plain c hm
  case isFalse =>
    obtain ⟨hsteady, hstate, hdata⟩ := steady_passQuoting hop m
    generalize passQuoting c m = q at hsteady hstate hdata
    obtain ⟨d, n⟩ := q
    dsimp only at hsteady hstate hdata ⊢
    rw [← hstate] at hc hop
    -- only the part of the key has changed so far
    have hn : n.Returns := by rw [hdata]; exact hm
    have hpart : ∀ {r : Rule}, Inert d n r → Inert c m r := fun h =>
      { h.after hsteady hstate with
        brackets := h.brackets.trans (by rw [hdata])
        flags := h.flags.trans (by rw [hdata])
        head := fun hc => ⟨((h.after hsteady hstate).head hc).1,
          ((h.after hsteady hstate).head hc).2.trans (by rw [hdata])⟩ }
    have hpass : ∀ k, Inert d n (.pass d { n with key := k }) := fun k =>
      ⟨.refl, hop, hn, rfl, rfl, fun h => ⟨h, rfl⟩⟩
    refine hpart ?_
    split_ifs with _ _ _ htable
    · exact .pass hop hn
    · exact hpass _
    · exact hpass _
    · unfold leaveBareTable
      split_ifs
      · exact ⟨.refl, hop, hn, rfl, rfl, fun h => absurd htable h⟩
      · exact inert_closeTable htable hn
      · exact .pass hop hn
    · unfold leaveBareKey
      split_ifs with hdot
      · exact ⟨((Steady.refl.switch _).forward (.inr hdot)).switch _, nofun, hn, rfl, rfl,
          fun _ => ⟨nofun, rfl⟩⟩
      · exact .pass hop hn
      · exact ⟨.switch .refl _, nofun, hn, rfl, rfl, fun _ => ⟨nofun, rfl⟩⟩
      · exact ⟨.recolor .refl hop nofun, nofun, hn, rfl, rfl, fun _ => ⟨nofun, rfl⟩⟩
      · exact .pass hop hn

theorem inert_leaveEscape (hc : c.state = .escape) (hm : m.Returns) :
    Inert c m (m.escape.leave c fun e => { m with escape := e }) := by
  have hgo : Steady c (if m.escape.count.braced ∧ c.byte = rbrace then c.forward else c) := by
    split
    · exact Steady.refl.forward (.inl (by simp [hc]))
    · exact .refl
  unfold Escape.leave
  dsimp only
  split
  · exact ⟨hgo.switch _, hm.1, hm, rfl, rfl, fun _ => ⟨hm.2, rfl⟩⟩
  · exact ⟨.refl, hc ▸ nofun, hm, rfl, rfl, fun _ => ⟨hc ▸ nofun, rfl⟩⟩

/-- **Leaving a run counts nothing.** -/
theorem inert_leave (hm : m.Returns) : Inert c m (leave words c m) := by
  have hcomment : Inert c m (.pass (c.switch .comment) m) :=
    ⟨.switch .refl _, nofun, hm, rfl, rfl, fun _ => ⟨nofun, rfl⟩⟩
  unfold leave
  cases hs : c.state
  case operator => exact .plain c hm
  case number => exact inert_leaveNumber (by simp [hs]) hm
  case dateTime | identifier =>
    dsimp only
    split
    · exact .pass (by simp [hs]) hm
    · exact inert_endValue (by simp [hs]) hm
  case table => exact inert_leaveKey (.inl hs) hm
  case key => exact inert_leaveKey (.inr hs) hm
  case literalString | string | tripleLiteralString | tripleString =>
    exact inert_leaveString (by simp [hs]) hm (by simp [hs])
  case escape => exact inert_leaveEscape hs hm
  case error =>
    dsimp only
    split_ifs
    · exact .plain c hm
    · exact hcomment
    · exact .pass (by simp [hs]) hm
  case comment =>
    dsimp only
    split
    · exact .plain c hm
    · exact .pass (by simp [hs]) hm
  case plain | keyword => exact .pass (by simp [hs]) hm

/-! ### Beginning a run -/

/-- No sign but an operator begins a run that is counted, and no heading begins but with a bracket
that is the first visible byte of its line, where no region is open. -/
structure Enters (c d : Place) (m y : Memory) : Prop where
  escape : y.escape = m.escape
  nested : y.flags.nested = m.flags.nested
  counts : Steady c d ∧ d.state ≠ .operator ∧ y.brackets = m.brackets ∨
    d = c.switch .operator ∧ y.brackets = bracketsAfter c.byte m.brackets
  head : ¬(c.visible = 0 ∧ m.brackets = 0 ∧ c.byte = lbracket) →
    d.state ≠ .table ∧ y.flags.heading = m.flags.heading ∧ y.level = m.level

/-- Most runs are begun by nothing but a change of the category. -/
theorem enters_switch {s : Category} {y : Memory} (hescape : y.escape = m.escape)
    (hnested : y.flags.nested = m.flags.nested) (hbrackets : y.brackets = m.brackets)
    (hs : (s == .operator || s == .table) = false)
    (hhead : y.flags.heading = m.flags.heading ∧ y.level = m.level) :
    ∃ d z, Flow.pass (c.switch s) y = .pass d z ∧ Enters c d m z := by
  obtain ⟨hop, htable⟩ := Bool.or_eq_false_iff.1 hs
  exact ⟨_, _, rfl, hescape, hnested, .inl ⟨.switch .refl _, beq_eq_false_iff_ne.1 hop, hbrackets⟩,
    fun _ => ⟨beq_eq_false_iff_ne.1 htable, hhead⟩⟩

theorem enters_pass (hplain : c.state = .plain) :
    ∃ d z, Flow.pass c m = .pass d z ∧ Enters c d m z :=
  ⟨_, _, rfl, rfl, rfl, .inl ⟨.refl, by simp [hplain], rfl⟩, fun _ => ⟨by simp [hplain], rfl, rfl⟩⟩

theorem exists_enters (hplain : c.state = .plain) :
    ∃ d y, enter c m = .pass d y ∧ Enters c d m y := by
  unfold enter
  split
  · split
    all_goals exact enters_switch rfl rfl rfl rfl ⟨rfl, rfl⟩
  split
  case isTrue hfirst =>
    unfold enterLine
    split_ifs with hopen
    · have hhead : ¬¬(c.visible = 0 ∧ m.brackets = 0 ∧ c.byte = lbracket) :=
        not_not.2 ⟨hfirst.1, hfirst.2, hopen⟩
      dsimp only
      split
      · refine ⟨_, _, rfl, rfl, rfl, .inl ⟨(Steady.refl.switch _).forward (.inl nofun), ?_, rfl⟩,
          fun h => absurd h hhead⟩
        rw [Cursor.state_forward]
        nofun
      · exact ⟨_, _, rfl, rfl, rfl, .inl ⟨.switch .refl _, nofun, rfl⟩, fun h => absurd h hhead⟩
    · exact enters_switch rfl rfl rfl rfl ⟨rfl, rfl⟩
    · exact enters_switch rfl rfl rfl rfl ⟨rfl, rfl⟩
    · exact enters_switch rfl rfl rfl rfl ⟨rfl, rfl⟩
    · exact enters_pass hplain
    · exact enters_switch rfl rfl rfl rfl ⟨rfl, rfl⟩
  case isFalse =>
    unfold enterValue
    split_ifs
    · unfold enterString
      dsimp only
      split
      · have hs : ((c.switch (if c.byte = quote then .tripleString else .tripleLiteralString)
            ).forwardN 2).state ≠ .operator ∧ ((c.switch (if c.byte = quote then .tripleString
            else .tripleLiteralString)).forwardN 2).state ≠ .table := by
          rw [Cursor.state_forwardN]
          change (if _ then _ else _ : Category) ≠ _ ∧ (if _ then _ else _ : Category) ≠ _
          split <;> exact ⟨nofun, nofun⟩
        refine ⟨_, _, rfl, rfl, rfl, .inl ⟨(Steady.refl.switch _).forwardN ?_ 2, hs.1, rfl⟩,
          fun _ => ⟨hs.2, rfl, rfl⟩⟩
        rw [← Cursor.state_forwardN 2]
        exact hs.1
      · refine enters_switch rfl rfl rfl ?_ ⟨rfl, rfl⟩
        split <;> rfl
    · exact enters_switch rfl rfl rfl rfl ⟨rfl, rfl⟩
    · exact enters_switch rfl rfl rfl rfl ⟨rfl, rfl⟩
    · exact ⟨_, _, rfl, rfl, rfl, .inr ⟨rfl, rfl⟩, fun _ => ⟨nofun, rfl, rfl⟩⟩
    · exact enters_switch rfl rfl rfl rfl ⟨rfl, rfl⟩
    · exact enters_pass hplain

/-! ### All through a scan -/

/-- Where the rules are asked, the number of open brackets is that of the bytes passed. -/
structure Counted (text : Text) (c : Place) (m : Memory) : Prop where
  returns : m.Returns
  nested : m.flags.nested = false
  brackets : m.brackets = openBehind text c

/-- Where they let go, the byte at hand is counted already. -/
structure CountedAhead (text : Text) (d : Place) (y : Memory) : Prop where
  returns : y.Returns
  nested : y.flags.nested = false
  brackets : y.brackets = countBracket (openBehind text d) (d.byte, d.state)

theorem Counted.of_inert (h : Counted text c m) (hc : c.Stands text stop) (hf : Inert c m f) :
    Counted text f.cursor f.data :=
  ⟨hf.returns, by rw [hf.flags, h.nested], by
    rw [hf.brackets, h.brackets, (hf.steady.openBehind_eq hc).1]⟩

/-- What is no operator does not count. -/
theorem Counted.ahead (h : Counted text d m) (hd : d.state ≠ .operator) : CountedAhead text d m :=
  ⟨h.returns, h.nested, by rw [countBracket_of_ne hd, h.brackets]⟩

theorem Counted.enter (h : Counted text c m) (hc : c.Stands text stop) {y : Memory}
    (he : Enters c d m y) : CountedAhead text d y := by
  have hreturns : y.Returns := by
    rw [Memory.Returns, he.escape]
    exact h.returns
  rcases he.counts with ⟨hsteady, hd, hbrackets⟩ | ⟨rfl, hbrackets⟩
  · refine ⟨hreturns, he.nested.trans h.nested, ?_⟩
    rw [countBracket_of_ne hd, (hsteady.openBehind_eq hc).1, hbrackets, h.brackets]
  · refine ⟨hreturns, he.nested.trans h.nested, ?_⟩
    rw [openBehind_switch, ← h.brackets, hbrackets]
    exact (countBracket_operator _ _).symm

/-- Behind the byte the count is right again. -/
theorem CountedAhead.forward {y : Memory} (h : CountedAhead text d y) (hd : d.Stands text stop) :
    y.brackets = openBehind text d.forward := by
  cases ha : d.ahead with
  | nil =>
    rw [Cursor.forward_nil ha, h.brackets, Cursor.byte_nil ha, countBracket_zero]
  | cons b t => rw [openBehind_forward hd ha, h.brackets, Cursor.byte_cons ha]

/-- What leaves a run keeps the count, and leaves no operator in progress. -/
theorem Counted.leave (h : Counted text c m) (hc : c.Stands text stop) :
    (leave words c m).Answers (Counted text) fun d y => Counted text d y ∧ d.state ≠ .operator := by
  have hinert : Inert c m (Toml.leave words c m) := inert_leave h.returns
  have hleft := h.of_inert hc hinert
  have hstate := hinert.state
  generalize Toml.leave words c m = f at hleft hstate
  cases f with
  | again d y => exact hleft
  | pass d y => exact ⟨hleft, hstate⟩

end Highlight.Toml
