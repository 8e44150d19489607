import Highlight.Proofs.Language.ZigPassed
import Highlight.Proofs.Session.LastLine
import Highlight.Proofs.Session.Renamed

/-!
Marking placeholders changes names and nothing else. Where the marked scan passes a doubled brace
or a placeholder at once, the unmarked one passes the same bytes one by one, and both stand behind
them in the same string (`InPace.step`). So the scans keep pace up to the end of the text
(`InPace.run`), and what they find differs only in what stands within strings
(`placeholders_only_relabel`).
-/

namespace Highlight

open Byte

namespace Zig

open Pass
open Placeholder (stops)

variable {words : WordSets} {c d : Place} {m : Memory} {p q : Pass Category Memory}
  {s : Category} {b : Byte} {t : Text} {g : Grammar Category Memory}

/-! ### The marked scan within a string -/

/-- Behind a placeholder, the marked scan stands where one does that has passed it byte by byte. -/
theorem readPlaceholder_along (m : Memory) {P : Placeholder} (h : InString s c)
    (hP : Placeholder.read (closer s) c.ahead = some P) :
    ∃ d, readPlaceholder c m = .again d m ∧ d.state = s ∧
      d.Along Category.lump (c.forwardN P.length) := by
  obtain ⟨-, hclear⟩ := Placeholder.read_local (closer s) (.refl c.ahead)
  obtain ⟨-, hle, hle'⟩ := hclear P hP
  have hgo : ∀ {d e : Place}, d.Along Category.lump e → d.state.isInString = true →
      e.state = s → ∀ n, (d.forwardN n).Along Category.lump (e.forwardN n) := by
    intro d e hde hd he n
    refine hde.forwardN Category.renames_lump ?_ n
    rw [he, h.lump]
    exact if_pos hd
  have hstate : ∀ n, (c.forwardN n).state = s := fun n => (Cursor.state_forwardN n).trans h.state
  have hopen := hgo ((Cursor.Along.refl c).switch_left .placeholder) rfl h.state P.specStart
  let e : Place :=
    if P.specStart = P.specStop then (c.switch .placeholder).forwardN P.specStart
    else ((((c.switch .placeholder).forwardN P.specStart).switch .specifier).forwardN
      (P.specStop - P.specStart)).switch .placeholder
  -- whether there is a specifier or not, both stand behind its place
  obtain ⟨hspec, hinside⟩ :
      e.Along Category.lump (c.forwardN P.specStop) ∧ e.state.isInString = true := by
    by_cases heq : P.specStart = P.specStop
    · have he : e = (c.switch .placeholder).forwardN P.specStart := if_pos heq
      rw [he, Cursor.state_forwardN]
      exact ⟨heq ▸ hopen, rfl⟩
    · have he : e = _ := if_neg heq
      have hstop := hgo (hopen.switch_left .specifier) rfl (hstate _) (P.specStop - P.specStart)
      rw [← Cursor.forwardN_add, Nat.add_sub_cancel' hle] at hstop
      rw [he]
      exact ⟨hstop.switch_left _, rfl⟩
  have hend := hgo hspec hinside (hstate _) (P.length - P.specStop)
  rw [← Cursor.forwardN_add, Nat.add_sub_cancel' hle'] at hend
  refine ⟨_, ?_, rfl, hend.switch_left s⟩
  have hread : Placeholder.read (if s = .string then some quote else none) c.ahead = some P := hP
  simp only [readPlaceholder, h.state, hread, e]

/-- The marked scan, in the string `s`, passes a doubled brace or a placeholder at once. -/
inductive Marks (words : WordSets) (s : Category) (c : Place) (m : Memory) : Prop where
  | pair {b : Byte} {t : Text} (ha : c.ahead = b :: b :: t) (hb : b = lbrace ∨ b = rbrace)
      (hrule : leaveLiteral (marked words) c m =
        .pass (c.switch .escape).forward { m with escape := .single s })
  | placeholder {P : Placeholder} (hP : Placeholder.read (closer s) c.ahead = some P)
      (hrule : leaveLiteral (marked words) c m = readPlaceholder c m)

/-- A brace in a string is passed like any byte, or something is marked. -/
theorem leaveLiteral_brace (words : WordSets) (m : Memory) (h : InString s c)
    (hb : c.byte = lbrace ∨ c.byte = rbrace) :
    leaveLiteral (marked words) c m = .pass c m ∨ Marks words s c m := by
  have hmarked : leaveLiteral (marked words) c m = leaveBrace c m := by
    have hfacts : c.byte ≠ backslash ∧ c.byte ≠ apostrophe ∧ c.byte ≠ quote := by
      rcases hb with hb | hb <;> rw [hb] <;> decide
    obtain ⟨hback, hapostrophe, hquote⟩ := hfacts
    have hchar : c.state ≠ .character := h.state ▸ h.isLiteral.2
    unfold leaveLiteral
    rw [if_neg h.not_atLineStart, if_neg fun h => hback h.1, if_neg fun h => hapostrophe h.1,
      if_neg fun h => hquote h.1, if_pos ⟨hb, hchar, rfl⟩]
  have hne : c.byte ≠ 0 := by
    rcases hb with hb | hb <;> rw [hb] <;> decide
  by_cases htwo : c.next = c.byte
  · obtain ⟨t, ha⟩ := Cursor.ahead_of_next_ne (htwo ▸ hne)
    rw [htwo] at ha
    refine .inr (.pair ha hb ?_)
    rw [hmarked, leaveBrace, if_pos htwo, h.state]
  · by_cases hopen : c.byte = lbrace
    · have hread : leaveLiteral (marked words) c m = readPlaceholder c m := by
        rw [hmarked, leaveBrace, if_neg htwo, if_pos hopen]
      cases hP : Placeholder.read (closer s) c.ahead with
      | some P => exact .inr (.placeholder hP hread)
      | none =>
        have hnone : Placeholder.read (if s = .string then some quote else none) c.ahead =
            none := hP
        refine .inl (hread.trans ?_)
        simp only [readPlaceholder, h.state, hnone]
    · refine .inl ?_
      rw [hmarked, leaveBrace, if_neg htwo, if_neg hopen]

/-- **What is marked.** The rules of both scans answer alike but where the marked one passes a
doubled brace or a placeholder at once. -/
theorem leave_cases (words : WordSets) {n : Memory} (h : Level c d) (hl : Same c.state m n) :
    LevelRule (leave (marked words) c m) (leave (unmarked words) d n) ∨
      ∃ s, InString s c ∧ Marks words s c m := by
  by_cases hbrace : c.state.isLiteral = true ∧ c.state ≠ .character ∧ c.atLineStart = false ∧
      (c.byte = lbrace ∨ c.byte = rbrace)
  · obtain ⟨hliteral, hchar, hinside, hbyte⟩ := hbrace
    have hin : InString c.state c := by
      refine ⟨rfl, ?_, hinside⟩
      revert hliteral hchar
      cases c.state <;> decide
    refine (leaveLiteral_brace words m hin hbyte).imp (fun hrule => ?_) fun hmarks =>
      ⟨c.state, hin, hmarks⟩
    -- the other scan takes no notice of braces
    have hin' : InString c.state d :=
      ⟨h.state.symm, hin.braced, h.atLineStart_eq.symm.trans hinside⟩
    have hfacts : stops (closer c.state) c.byte = false ∧ c.byte ≠ backslash := by
      rcases hin.braced with hs | hs <;> rcases hbyte with hb | hb <;> rw [hs, hb] <;> decide
    rw [leave_inString _ _ hin, leave_inString _ _ hin', hrule,
      leaveLiteral_passes words n hin' h.byte_eq.symm hfacts.1 (.inl hfacts.2)]
    exact .pass h (hl.1.same (Category.looksBack_of_isLiteral hliteral))
  · refine .inl (leave_level h hl fun hliteral hchar hinside => ?_)
    exact not_or.1 fun hbyte => hbrace ⟨hliteral, hchar, hinside, hbyte⟩

/-! ### Both scans together -/

/-- The passes cannot be told apart but for what stands in strings. -/
abbrev LevelPass (p q : Pass Category Memory) : Prop :=
  p.Level Category.lump Category.isLiteral Same q

/-- The marked scan `p` and the unmarked scan `q` keep pace: they are level, or they would be if the
marked one had left the doubled brace behind which it stands. -/
inductive InPace (p q : Pass Category Memory) : Prop where
  | level (h : LevelPass p q)
  | behindPair (s : Category) (hs : InString s q.cursor) (hstate : p.cursor.state = .escape)
      (hescape : p.data.escape = .single s)
      (h : LevelPass { p with cursor := p.cursor.switch s } q)

theorem InPace.ahead (h : InPace p q) : p.cursor.ahead = q.cursor.ahead := by
  cases h with
  | level h => exact h.cursor.ahead
  | behindPair s hs hstate hescape h => exact h.cursor.ahead

/-- Both scans are level behind what the marked one passes at once and the unmarked one byte by
byte. -/
theorem LevelPass.over {k : Nat} {p' q' : Pass Category Memory} (h : LevelPass p q)
    (hin : InString s p.cursor) (hstate : p'.cursor.state = s)
    (halong : p'.cursor.Along Category.lump (p.cursor.forwardN k)) (heven : Even p.data p'.data)
    (hended : p'.ended = p.ended) (hover : Over words s q k q') : LevelPass p' q' := by
  obtain ⟨hannounced, hflags⟩ := h.like.1
  refine ⟨⟨?_, hstate.trans hover.inString.state.symm, fun hloose => ?_⟩, ?_, ?_⟩
  · have hlevel := h.cursor.forwardN Category.renames_lump k
    exact halong.trans (hlevel.toAlong.trans hover.along.symm)
  · rw [hstate, hin.isLiteral.1] at hloose
    cases hloose
  · have hboth : Even p'.data q'.data :=
      ⟨heven.1.symm.trans (hannounced.trans hover.even.1),
        heven.2.symm.trans (hflags.trans hover.even.2)⟩
    exact hboth.same (hstate ▸ hin.looksBack)
  · rw [hended, h.ended, hover.ended]

theorem LevelPass.inString (h : LevelPass p q) (hin : InString s p.cursor) :
    InString s q.cursor :=
  ⟨h.cursor.state.symm.trans hin.state, hin.braced, h.cursor.atLineStart_eq.symm.trans hin.inside⟩

/-- The marked scan passes a doubled brace. -/
theorem LevelPass.pair (words : WordSets) (h : LevelPass p q) (hin : InString s p.cursor)
    (ha : p.cursor.ahead = b :: b :: t) (hb : b = lbrace ∨ b = rbrace)
    (hrule : leaveLiteral (marked words) p.cursor p.data =
      .pass (p.cursor.switch .escape).forward { p.data with escape := .single s }) :
    ∃ n, InPace (p.step (grammar (marked words))) (q.run (grammar (unmarked words)) n) := by
  have hclose : stops (closer s) b = false := by
    rcases hin.braced with rfl | rfl <;> rcases hb with rfl | rfl <;> rfl
  have hback : b ≠ backslash := by
    rcases hb with rfl | rfl <;> decide
  have ha' : q.cursor.ahead = b :: b :: t := h.cursor.ahead.symm.trans ha
  obtain ⟨q₁, h₁⟩ := over_byte words (h.inString hin) ha' hclose (.inl hback)
  have ha₁ : q₁.cursor.ahead = b :: t := by
    rw [h₁.ahead, ha']
    rfl
  obtain ⟨q₂, h₂⟩ := over_byte words h₁.inString ha₁ hclose (.inl hback)
  have hover := h₁.trans (h.inString hin) h₂
  obtain ⟨n, hn⟩ := hover.reached
  have hnl := ne_newline_of_stops hclose
  obtain ⟨hstate, -, -, halong⟩ := after_pair hin ha hnl
  rw [step_pair hin ha hnl hrule]
  refine ⟨n, hn ▸ .behindPair s hover.inString hstate rfl ?_⟩
  exact h.over hin rfl (halong.switch_left s) ⟨rfl, rfl⟩ rfl hover

/-- The marked scan passes a placeholder. -/
theorem LevelPass.placeholder (words : WordSets) {P : Placeholder} (h : LevelPass p q)
    (hin : InString s p.cursor) (hP : Placeholder.read (closer s) p.cursor.ahead = some P)
    (hrule : leaveLiteral (marked words) p.cursor p.data = readPlaceholder p.cursor p.data)
    (hfew : ∀ d m, (grammar (marked words)).dispatch p.cursor p.data = .again d m →
      (if d.pos = p.cursor.pos then p.rescans + 1 else 1) ≤ maxRescans) :
    ∃ n, InPace (p.step (grammar (marked words))) (q.run (grammar (unmarked words)) n) := by
  obtain ⟨d, hread, hstate, halong⟩ := readPlaceholder_along p.data hin hP
  have hplain : (Flow.again d p.data : Rule).cursor.state ≠ .plain := by
    change d.state ≠ .plain
    exact hstate ▸ hin.ne_plain
  have hdispatch := dispatch_inString hin (hrule.trans hread) hplain
  obtain ⟨q', hover⟩ := over_placeholder words (h.inString hin) (h.cursor.ahead ▸ hP)
  obtain ⟨n, hn⟩ := hover.reached
  rw [step_of_again hdispatch (hfew _ _ hdispatch)]
  exact ⟨n, hn ▸ .level (h.over hin hstate halong ⟨rfl, rfl⟩ rfl hover)⟩

/-- When the marked scan leaves a doubled brace, the scans are level again. -/
theorem LevelPass.leftPair (h : LevelPass { p with cursor := p.cursor.switch s } q)
    (hs : InString s q.cursor) (n : Nat) :
    LevelPass { p with
      cursor := p.cursor.switch s
      data := { p.data with escape := (Escape.single s).count }
      rescans := n } q := by
  have heven : Even { p.data with escape := (Escape.single s).count } q.data :=
    ⟨h.like.1.1, h.like.1.2⟩
  exact ⟨h.cursor, heven.same hs.looksBack, h.ended⟩

/-- **A step of the marked scan is made up for** by some steps of the unmarked one. -/
theorem InPace.step (words : WordSets) (h : InPace p q) (hmore : p.cursor.more = true)
    (hp : p.Unforced rank Literal) (hq : q.Unforced rank Literal) :
    ∃ n, InPace (p.step (grammar (marked words))) (q.run (grammar (unmarked words)) n) := by
  obtain ⟨-, -, hfew⟩ :=
    hp.step (settles (marked words)) (staysInLine (marked words)) hmore (looked_nil p)
  cases h with
  | level h =>
    have hmore' : q.cursor.more = true := h.cursor.more_eq ▸ hmore
    obtain ⟨-, -, hfew'⟩ :=
      hq.step (settles (unmarked words)) (staysInLine (unmarked words)) hmore' (looked_nil q)
    rcases leave_cases words h.cursor h.like with hleave | ⟨s, hin, hmarks⟩
    · have hdispatch : LevelRule ((grammar (marked words)).dispatch p.cursor p.data)
          ((grammar (unmarked words)).dispatch q.cursor q.data) :=
        Grammar.dispatch_level hleave fun h _ hl => enter_level h hl
      refine ⟨1, .level ?_⟩
      rw [run_succ _ 0 q hmore', Pass.run]
      exact h.step Category.renames_lump (endsLevel words) hdispatch hfew hfew'
    · cases hmarks with
      | pair ha hb hrule => exact h.pair words hin ha hb hrule
      | placeholder hP hrule => exact h.placeholder words hin hP hrule hfew
  | behindPair s hs hstate hescape h =>
    have hone : p.rescans + 1 ≤ maxRescans := by
      have hsum := hp.few
      rwa [hstate] at hsum
    rw [step_single hstate hescape hone]
    exact ⟨0, .level (h.leftPair hs _)⟩

/-- **The scans keep pace up to the end of the text.** -/
theorem InPace.run (words : WordSets) (h : InPace p q) (hp : p.Unforced rank Literal)
    (hq : q.Unforced rank Literal) :
    ∃ n k, (p.run (grammar (marked words)) n).cursor.ahead = [] ∧
      InPace (p.run (grammar (marked words)) n) (q.run (grammar (unmarked words)) k) := by
  induction hc : p.cost using Nat.strongRecOn generalizing p q with
  | ind cost ih =>
    by_cases hmore : p.cursor.more = true
    · have hgoes := staysInLine (marked words)
      obtain ⟨hp', -, -⟩ := hp.step (settles (marked words)) hgoes hmore (looked_nil p)
      have hfew : p.rescans ≤ maxRescans := by
        have hsum := hp.few
        omega
      obtain ⟨hcost, -⟩ :=
        cost_step_lt (g := grammar (marked words)) (hgoes.dispatch _ _).onward.notBefore hmore hfew
      obtain ⟨i, hi⟩ := h.step words hmore hp hq
      obtain ⟨hq', -⟩ := hq.run (settles (unmarked words)) (staysInLine (unmarked words)) i
      obtain ⟨n, k, hend, hpace⟩ := ih _ (hc ▸ hcost) hi hp' hq' rfl
      refine ⟨n + 1, i + k, ?_, ?_⟩
      · rwa [run_succ _ n p hmore]
      · rwa [run_succ _ n p hmore, run_add]
    · have hnil : p.cursor.ahead = [] := by simpa [Cursor.more] using hmore
      exact ⟨0, 0, hnil, h⟩

/-! ### The end of the text -/

/-- A text at whose end no line begins is left with an open last line. -/
theorem unended_of_inside (hp : p.Sound g regime t)
    (ha : p.cursor.ahead = []) (hinside : p.cursor.atLineStart = false) : t.unended = true := by
  obtain ⟨old, hf⟩ := hp.follows
  have hprev : p.cursor.prev = t.getLast? := by
    rw [hf.prev, hf.text_eq, ha, List.append_nil]
  rw [Cursor.atLineStart, hprev] at hinside
  cases t with
  | nil => cases hinside
  | cons b t => simpa [Text.unended] using hinside

/-- At the end of the text both scans leave their last runs alike, and level. -/
theorem LevelPass.leaveLast (words : WordSets) (h : LevelPass p q) (ha : p.cursor.ahead = [])
    (n : Nat) :
    LevelPass (p.leaveLast (grammar (marked words)) n)
      (q.leaveLast (grammar (unmarked words)) n) := by
  refine Pass.Level.leaveLast (staysInLine (marked words)).goesOn.leave ?_ n ha h
  intro c d m m' hc ha hm
  refine leave_level hc hm fun _ _ _ => ?_
  rw [Cursor.byte_nil ha]
  decide

/-- The end of the text leaves a string as it is. -/
theorem leaveLast_inString (words : WordSets) (h : InString s q.cursor) (ha : q.cursor.ahead = [])
    (n : Nat) : q.leaveLast (grammar (unmarked words)) n = q := by
  have hclose : stops (closer s) 0 = false := by
    rcases h.braced with rfl | rfl <;> rfl
  have hleave : (grammar (unmarked words)).leave q.cursor q.data = .pass q.cursor q.data :=
    (leave_inString _ _ h).trans
      (leaveLiteral_passes words q.data h (Cursor.byte_nil ha) hclose (.inl (by decide)))
  cases n with
  | zero => rfl
  | succ n => rw [Pass.leaveLast, hleave]

/-- **Both scans end level.** A doubled brace at the end of the text is left there. -/
theorem InPace.finish (words : WordSets) (h : InPace p q) (hp : p.Sound g regime t)
    (ha : p.cursor.ahead = []) :
    LevelPass (p.finish (grammar (marked words)) t.unended)
      (q.finish (grammar (unmarked words)) t.unended) := by
  have hlast : t.unended = true → LevelPass (p.leaveLast (grammar (marked words)) maxRescans)
      (q.leaveLast (grammar (unmarked words)) maxRescans) →
      LevelPass (p.finish (grammar (marked words)) t.unended)
        (q.finish (grammar (unmarked words)) t.unended) := by
    intro hunended h
    rw [hunended]
    exact h.endLine (endsLevel words)
  cases h with
  | level h =>
    cases hunended : t.unended with
    | false => exact h
    | true => exact hunended ▸ hlast hunended (h.leaveLast words ha _)
  | behindPair s hs hstate hescape h =>
    have hinside : p.cursor.atLineStart = false := h.cursor.atLineStart_eq.trans hs.inside
    refine hlast (unended_of_inside hp ha hinside) ?_
    have ha' : q.cursor.ahead = [] := h.cursor.ahead.symm.trans ha
    have hleft := (h.leftPair hs p.rescans).leaveLast words ha 15
    rw [leaveLast_inString words hs ha'] at hleft
    rw [leaveLast_inString words hs ha', maxRescans, Pass.leaveLast, leave_single hstate hescape]
    exact hleft

/-- The scans of a text, with placeholders marked and unmarked, are level in the end. -/
theorem fresh_level (words : WordSets) (text : Text) :
    LevelPass (fresh (grammar (marked words)) text) (fresh (grammar (unmarked words)) text) := by
  have hunforced : ∀ config : Config,
      (first (grammar config) text).Unforced rank Literal := fun config =>
    .of_idle (settles config) rfl rfl
  have hfirst : InPace (first (grammar (marked words)) text)
      (first (grammar (unmarked words)) text) :=
    .level ⟨⟨.refl _, rfl, fun _ => rfl⟩, ⟨⟨rfl, rfl⟩, nofun, nofun⟩, rfl⟩
  obtain ⟨n, k, ha, hpace⟩ := hfirst.run words (hunforced _) (hunforced _)
  have hsound := (first_sound (keeps (marked words)) text).run (keeps (marked words)) n
  have ha' : ((first (grammar (unmarked words)) text).run (grammar (unmarked words)) k).cursor.ahead
      = [] := hpace.ahead ▸ ha
  rw [fresh_eq_finish (staysInLine (marked words)) ha,
    fresh_eq_finish (staysInLine (unmarked words)) ha']
  exact hpace.finish words hsound ha

/-- **Marking placeholders only relabels what stands in strings.** Whatever was scanned before with
either session, with placeholders marked and unmarked a text gets the same line states and fold
levels, the scans end in the same state, and every byte gets the same category, or one of those that
stand in strings both times. -/
theorem placeholders_only_relabel (words : WordSets) (s s' : Session Category) (text : Text) :
    let g := grammar (marked words)
    let g' := grammar (unmarked words)
    let on := s.highlight g text
    let off := s'.highlight g' text
    (∃ found found', on.2 = .ok found ∧ off.2 = .ok found' ∧
        found.endState = found'.endState ∧ found.nextLine = found'.nextLine) ∧
      on.1.store = off.1.store ∧ on.1.foldLevels g text = off.1.foldLevels g' text ∧
      on.1.styles.size = text.length ∧ off.1.styles.size = text.length ∧
      ∀ i, let a := on.1.styles.categoryAt i
        let b := off.1.styles.categoryAt i
        a = b ∨ a.isInString = true ∧ b.isInString = true := by
  intro g g' on off
  have hg : g.StaysInLine := staysInLine (marked words)
  have hg' : g'.StaysInLine := staysInLine (unmarked words)
  have h : LevelPass (fresh g text) (fresh g' text) := fresh_level words text
  have hpassed : (fresh g text).cursor.passed.map Category.lump =
      (fresh g' text).cursor.passed.map Category.lump := by
    rw [Cursor.passed_eq, Cursor.passed_eq, List.map_reverse, List.map_reverse, h.cursor.found]
  have hsame : Session.SameUnder Category.lump g g' text on off :=
    Session.sameUnder_of_fresh Category.renames_lump hg hg' rfl
      ⟨congrArg Category.lump h.cursor.state, hpassed, h.ended, rfl⟩ s s'
  have hon : on = _ := Session.highlight_of_staysInLine hg s text
  have hoff : off = _ := Session.highlight_of_staysInLine hg' s' text
  refine ⟨⟨_, _, congrArg Prod.snd hon, congrArg Prod.snd hoff, h.cursor.state, ?_⟩, hsame.store,
    hsame.foldLevels, ?_, ?_, fun i => ?_⟩
  · simp only [Pass.outcome, h.ended]
  · rw [hon, List.size_toArray, fresh_length (keeps (marked words))]
  · rw [hoff, List.size_toArray, fresh_length (keeps (unmarked words))]
  · have hlump := congrArg (Styles.categoryAt · i) hsame.styles
    simp only [Styles.categoryAt_map Category.renames_lump] at hlump
    exact Category.lump_eq_iff.1 hlump

/-- The fill character of this placeholder begins an escape where it is not marked. -/
example :
    let text : Text := [quote, lbrace, colon, backslash, less, rbrace, quote]
    (Session.highlight (grammar (marked {})) {} text).1.styles =
        #[.string, .placeholder, .placeholder, .placeholder, .placeholder, .placeholder, .string] ∧
      (Session.highlight (grammar (unmarked {})) {} text).1.styles =
        #[.string, .string, .string, .escape, .escape, .string, .string] := by
  decide +kernel

end Zig

end Highlight
