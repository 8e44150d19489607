import Highlight.Proofs.Fold.Comments
import Highlight.Proofs.Language.ZigLines
import Highlight.Proofs.Language.ZigMoves
import Highlight.Proofs.Session.Summed

/-!
Comments of Zig fold as one. A line is flagged as a comment when a comment begins on it with nothing
visible before, and the comment goes on to the end of the line. So all its bytes are white space or
in a comment, and no bracket on it folds (`commentLine`, `weight_of_comment`).
-/

namespace Highlight.Zig

open Byte FoldLevel

variable {config : Config} {c : Place} {m : Memory} {text : Text} {stop : Nat}

/-! ### Comment lines -/

theorem weight_of_isComment {p : Byte × Category} (h : p.2.isComment = true) :
    FoldText.weight p = 0 := by
  have hbracket : Palette.isBracket p.2 ≠ true := by
    revert h
    cases p.2 <;> decide
  rw [FoldText.weight, if_neg hbracket]

/-- If the line is flagged as a comment, the scan is in the comment, and nothing so far weighs
anything. -/
def CommentLine (text : Text) (c : Place) (m : Memory) : Prop :=
  m.flags.comment = true →
    c.state.isComment = true ∧ c.atLineStart = false ∧
      ∀ p ∈ c.lineSoFar text, FoldText.weight p = 0

/-- A comment is not left before its line ends. -/
theorem leave_of_isComment (hstate : c.state.isComment = true) (hstart : c.atLineStart = false) :
    leave config c m = .pass c m := by
  unfold leave
  revert hstate
  cases c.state <;> simp [Category.isComment, hstart]

theorem commentLine_forward {b : Byte} {t : Text} (hc : c.Tells text stop) (ha : c.ahead = b :: t)
    (hb : b ≠ newline) (h : CommentLine text c m) : CommentLine text c.forward m := by
  intro hcomment
  obtain ⟨hstate, -, hweight⟩ := h hcomment
  refine ⟨by rwa [Cursor.state_forward], ?_, ?_⟩
  · exact Cursor.atLineStart_forward_cons ha hb
  · rw [Cursor.lineSoFar_forward hc.toStands ha hb]
    intro p hp
    rcases List.mem_cons.1 hp with rfl | hp
    · exact weight_of_isComment hstate
    · exact hweight p hp

/-- A comment is passed the same whether its kind is known before or behind its slashes. -/
theorem recolor_forward {k : Category} (hk : k.isComment = true)
    (hstate : c.state.isComment = true) : c.forward.recolor k = (c.recolor k).forward := by
  have hquiet : ∀ s : Category, s.isComment = true → Palette.isQuiet s = true := by
    intro s
    cases s <;> decide
  have hpass : ∀ b, c.trail.pass b c.state = c.trail.pass b k := fun b => by
    rw [Trail.pass, Trail.pass, hquiet k hk, hquiet _ hstate]
    rfl
  cases ha : c.ahead with
  | nil => rw [Cursor.forward_nil ha, Cursor.forward_nil (c := c.recolor k) ha]
  | cons b t =>
    rw [Cursor.forward_cons ha, Cursor.forward_cons (c := c.recolor k) ha]
    simp [Cursor.recolor, hpass]

/-- Where a comment begins, both of its slashes are in it, whatever its kind. -/
theorem exists_enterComment {t : Text} (ha : c.ahead = slash :: slash :: t) (m : Memory) :
    ∃ k, k.isComment = true ∧ (enterComment c m).cursor = (c.switch k).forward.forward := by
  have htwo : (c.switch .lineComment).forwardN 2 = (c.switch .lineComment).forward.forward := by
    have hahead : (c.switch .lineComment).ahead = slash :: slash :: t := ha
    have hahead' : (c.switch .lineComment).forward.ahead = slash :: t := by
      rw [Cursor.ahead_forward, hahead]
      rfl
    simp only [Cursor.forwardN, Cursor.more, hahead, hahead', List.isEmpty_cons, Bool.not_false,
      if_true]
  have hkind : ∀ k : Category, k.isComment = true →
      ((c.switch .lineComment).forward.forward).recolor k = (c.switch k).forward.forward := by
    intro k hk
    rw [recolor_forward hk (by rw [Cursor.state_forward]; rfl), recolor_forward hk rfl]
    rfl
  unfold enterComment
  dsimp only [Flow.cursor]
  rw [htwo]
  split_ifs
  · exact ⟨.topComment, rfl, hkind _ rfl⟩
  · exact ⟨.docComment, rfl, hkind _ rfl⟩
  · exact ⟨.lineComment, rfl, rfl⟩

theorem commentLine_enterComment (hc : c.Tells text stop) (hbyte : c.byte = slash)
    (hnext : c.next = slash) (hnone : m.flags.comment = false) :
    CommentLine text (enterComment c m).cursor (enterComment c m).data := by
  intro hcomment
  have hvisible : c.visible = 0 := by
    by_contra hvisible
    have hdata : (enterComment c m).data = m := if_neg hvisible
    rw [hdata, hnone] at hcomment
    cases hcomment
  obtain ⟨t, ha⟩ := Cursor.ahead_of_next_ne (c := c) (by rw [hnext]; decide)
  rw [hbyte, hnext] at ha
  obtain ⟨k, hk, hcursor⟩ := exists_enterComment ha m
  have hstands : (c.switch k).Stands text stop := hc.toStands.switch k
  have ha' : (c.switch k).forward.ahead = slash :: t := by
    rw [Cursor.ahead_forward]
    exact congrArg List.tail ha
  have hline : (c.switch k).lineSoFar text = c.lineSoFar text := by
    rw [Cursor.lineSoFar, Cursor.spent_switch]
    rfl
  rw [hcursor]
  refine ⟨by rw [Cursor.state_forward, Cursor.state_forward]; exact hk, ?_, ?_⟩
  · exact Cursor.atLineStart_forward_cons ha' (by decide)
  · rw [Cursor.lineSoFar_forward hstands.forward ha' (by decide), Cursor.state_forward,
      Cursor.lineSoFar_forward hstands (c := c.switch k) ha (by decide), hline]
    intro p hp
    rcases List.mem_cons.1 hp with rfl | hp
    · exact weight_of_isComment hk
    rcases List.mem_cons.1 hp with rfl | hp
    · exact weight_of_isComment hk
    · exact FoldText.weight_of_isSpace (hc.isSpace_of_visible hvisible hp)

theorem commentLine_enter (hc : c.Tells text stop) (hplain : c.state = .plain)
    (h : CommentLine text c m) : CommentLine text (enter c m).cursor (enter c m).data := by
  have hnone : m.flags.comment = false := by
    cases hcomment : m.flags.comment with
    | false => rfl
    | true =>
      have hstate := (h hcomment).1
      rw [hplain] at hstate
      cases hstate
  have hsame : ∀ {d : Place} {m' : Memory}, m'.flags.comment = m.flags.comment →
      CommentLine text d m' := by
    intro d m' hflags hcomment
    rw [hflags, hnone] at hcomment
    cases hcomment
  unfold enter
  cases ByteClass.of c.byte
  case punctuation =>
    dsimp only
    unfold enterPunctuation
    split_ifs with hslash
    · exact commentLine_enterComment hc hslash.1 hslash.2 hnone
    all_goals exact hsame rfl
  all_goals exact hsame rfl

/-- A comment line stays one, and is one only by what it begins with. -/
theorem commentLine (config : Config) (text : Text) :
    (grammar config).Maintains text text.length (CommentLine text) where
  leave := by
    intro c m hc h
    change CommentLine text (leave config c m).cursor (leave config c m).data
    intro hcomment
    rw [flags_leave] at hcomment
    obtain ⟨hstate, hstart, -⟩ := h hcomment
    rw [leave_of_isComment hstate hstart]
    exact h hcomment
  enter := commentLine_enter
  forward := commentLine_forward
  endLine := fun _ _ _ hcomment => by cases hcomment

/-- **No bracket folds on a comment line.** -/
theorem weight_of_comment (config : Config) (text : Text) {i : Nat}
    (h : ((Session.fresh (grammar config) text).store.state i).flags.comment = true) :
    ∀ p ∈ ((Session.fresh (grammar config) text).foldText text).line i,
      FoldText.weight p = 0 := by
  have hline : i < text.committed := by
    by_contra hline
    rw [Session.state_fresh_of_committed_le (keeps config) (Nat.le_of_not_lt hline)] at h
    cases h
  obtain ⟨q, hq, hstate, hbytes⟩ := Session.exists_summed (keeps config) (staysInLine config)
    (commentLine config text) (fun h => by cases h) hline
  have hcomment : q.data.flags.comment = true := by
    rw [hstate] at h
    change (if _ then _ else _ : LineFlags).comment = true at h
    split at h
    · cases h
    · exact h
  intro p hp
  by_cases hnewline : p.1 = newline
  · exact FoldText.weight_of_isSpace (by rw [hnewline]; decide)
  · have hmem : p ∈ q.cursor.lineSoFar text := by
      rw [← List.mem_reverse, ← hbytes]
      exact FoldText.mem_takeWhile_line hp hnewline
    exact (hq.holds hcomment).2.2 p hmem

/-! ### Comment blocks -/

/-- **Comments fold as one.** Where lines of a text are comments, and the lines next to them are
none, the first of them starts at the level at which the last one ends, and those between start one
level deeper, whatever stands in the comments and wherever they stand. Levels are reported up to the
greatest one, which a text of no more bytes does not reach. -/
theorem comments_fold_as_one (config : Config) (s : Session Category) (text : Text) {i j : Nat}
    (h : (s.highlight (grammar config) text).1.store.CommentRun (LineTable.ofText text).count i j) :
    let folds := (s.highlight (grammar config) text).1.foldLevels (grammar config) text
    ∃ first last, folds[i]? = some first ∧ folds[j]? = some last ∧ first.start = last.stop ∧
      ∀ m, i < m → m ≤ j → ∃ f, folds[m]? = some f ∧
        f.start = min (first.start + 1) greatest ∧
        (text.length ≤ greatest → f.start = first.start + 1) := by
  rw [Session.fst_highlight (keeps config)] at h ⊢
  intro folds
  let t := Session.fresh (grammar config) text
  let reach := (t.foldText text).reach 0 0
  have hlevels : ∀ m < (LineTable.ofText text).count, folds[m]? =
      some (between (reach m) (reach (m + 1)) (t.store.state m).flags.blank) := fun m hm =>
    FoldText.getElem?_foldLevels text t.styles t.store hm
  have hafter : (t.store.state (j + 1)).flags.comment = false := by
    by_cases hlast : j + 1 < (LineTable.ofText text).count
    · exact h.after hlast
    · rw [Session.state_fresh_of_committed_le (keeps config)
        (Nat.le_trans text.committed_le_count (Nat.le_of_not_lt hlast))]
  obtain ⟨hinner, houter⟩ := FoldText.reach_of_commentRun (d := t.foldText text) h hafter
    fun m hi hj => weight_of_comment config text (h.comment m hi hj)
  refine ⟨_, _, hlevels i (Nat.lt_of_le_of_lt h.le h.lt), hlevels j h.lt, ?_,
    fun m hi hj => ⟨_, hlevels m (Nat.lt_of_le_of_lt hj h.lt), ?_, fun hlen => ?_⟩⟩
  · change min (reach i) greatest = min (reach (j + 1)) greatest
    have hj : reach (j + 1) = reach i := houter
    rw [hj]
  · change min (reach m) greatest = min (min (reach i) greatest + 1) greatest
    have hm : reach m = reach i + 1 := hinner m hi hj
    omega
  · -- the level of the first line is less than the one behind it
    have hle : reach m ≤ text.length :=
      FoldText.reach_le_length text t.styles t.store (Nat.lt_of_le_of_lt hj h.lt)
    change min (reach m) greatest = min (reach i) greatest + 1
    have hm : reach m = reach i + 1 := hinner m hi hj
    omega

/-- Brackets in comments do not count, neither between code and a brace on its own line nor on the
last line of the text. -/
theorem comments_fold_as_one_braces :
    let g := grammar { words := {} }
    let text := Text.ofString "f(\n//)\x7d\n\t//! [\n///\x7d\n\x7b\n// ("
    let t := (Session.highlight g {} text).1
    t.store.CommentRun (LineTable.ofText text).count 1 3 ∧
      t.store.CommentRun (LineTable.ofText text).count 5 5 ∧
      (∃ first last, (t.foldLevels g text)[1]? = some first ∧
        (t.foldLevels g text)[3]? = some last ∧ first.start = last.stop) ∧
      (∃ last, (t.foldLevels g text)[5]? = some last ∧ last.start = last.stop) ∧
      (t.foldLevels g text).map FoldLevel.start = [0, 1, 2, 2, 1, 2] := by
  intro g text t
  have hrun : t.store.CommentRun (LineTable.ofText text).count 1 3 := by
    refine ⟨by decide, by decide +kernel, fun m hi hj => ?_, by decide +kernel,
      fun _ => by decide +kernel⟩
    obtain rfl | rfl | rfl : m = 1 ∨ m = 2 ∨ m = 3 := by omega
    all_goals decide +kernel
  have hlast : t.store.CommentRun (LineTable.ofText text).count 5 5 := by
    refine ⟨by decide, by decide +kernel, fun m hi hj => ?_, by decide +kernel,
      fun h => absurd h (by decide +kernel)⟩
    obtain rfl : m = 5 := by omega
    decide +kernel
  obtain ⟨first, last, hfirst, hlast', heq, -⟩ :=
    comments_fold_as_one { words := {} } {} text hrun
  obtain ⟨f, f', hf, hf', heq', -⟩ := comments_fold_as_one { words := {} } {} text hlast
  obtain rfl : f = f' := Option.some.inj (hf.symm.trans hf')
  exact ⟨hrun, hlast, ⟨first, last, hfirst, hlast', heq⟩, ⟨f, hf, heq'⟩, by decide +kernel⟩

end Highlight.Zig
