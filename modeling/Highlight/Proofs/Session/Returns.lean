import Highlight.Proofs.Fold.Returns
import Highlight.Proofs.Session.LastLine

/-!
Carriage returns before newlines. One more of them makes no difference to a scan: where it comes to
rest before the newline it comes to rest before the return, passes both, and begins the next line
abreast with the scan of the text without it. So a text whose lines all end with a carriage return
and a newline looks as it does with newlines alone (`Session.IgnoresReturns`).
-/

namespace Highlight

open Byte

variable {σ ζ : Type} [Palette σ] [DecidableEq σ]
variable {g : Grammar σ ζ} {calm : σ → Trail σ → ζ → Prop} {rank : σ → Nat} {holds : ζ → Prop}
  {r : Regime σ ζ} {t t' t'' a v : Text}

/-! ### Over a return -/

/-- The cursor behind a carriage return, with `t` ahead. -/
def Cursor.pastReturn (c : Cursor σ) (t : Text) : Cursor σ :=
  { c with
    pos := c.pos + 1
    prev := some carriageReturn
    ahead := t
    word := carriageReturn :: c.word }

/-- The pass behind a carriage return, with `t` ahead. -/
def Pass.pastReturn (p : Pass σ ζ) (t : Text) : Pass σ ζ :=
  { p with cursor := p.cursor.pastReturn t, rescans := 0 }

omit [DecidableEq σ] in
theorem Cursor.forward_return (c : Cursor σ) (t : Text) :
    (c.onto (carriageReturn :: t)).forward = c.pastReturn t := by
  have hpass : c.trail.pass carriageReturn c.state = c.trail := by
    simp [Trail.pass, isSpace, isBlank, isLineEnd]
  rw [forward_cons (c := c.onto (carriageReturn :: t)) rfl]
  change { c.pastReturn t with trail := c.trail.pass carriageReturn c.state } = _
  rw [hpass]
  rfl

omit [DecidableEq σ] in
/-- Behind the newline, too, all that is new is the return. -/
theorem Cursor.forward_pastReturn {c : Cursor σ} (hc : c.ahead = newline :: v) :
    (c.pastReturn (newline :: v)).newLine.forward =
      { c.newLine.forward with
        pos := c.newLine.forward.pos + 1
        word := newline :: carriageReturn :: c.word } := by
  rw [forward_cons (c := c.newLine) hc, forward_cons (c := (c.pastReturn _).newLine) rfl]
  rfl

namespace Pass

omit [DecidableEq σ] in
/-- Over a carriage return no line ends. -/
theorem advance_return (g : Grammar σ ζ) (q : Pass σ ζ) (t : Text) :
    (q.onto (carriageReturn :: t)).advance g = q.pastReturn t := by
  have hon : (q.onto (carriageReturn :: t)).cursor.atLineEnd ≠ true := by
    simp [Pass.onto, Cursor.onto, Cursor.atLineEnd]
  unfold Pass.advance
  rw [if_neg hon]
  exact congrArg (fun c => (⟨c, q.data, 0, q.ended⟩ : Pass σ ζ)) (q.cursor.forward_return t)

/-- A pass that is at rest before a carriage return goes on over it and the newline behind it. -/
theorem run_over_return (hg : g.EndsAlike calm) (hm : g.StaysInLine) {p q : Pass σ ζ}
    (hcalm : calm q.cursor.state q.cursor.trail q.data)
    (h : p.RestsAs g (q.onto (carriageReturn :: newline :: v))) :
    ∃ n, p.run g n = (q.pastReturn (newline :: v)).advance g := by
  obtain ⟨n, hn⟩ := h.advance (List.cons_ne_nil _ _)
  rw [advance_return] at hn
  have hend : (q.pastReturn (newline :: v)).cursor.AtEnd := by
    intro b hb
    obtain rfl := Option.some.inj hb
    rfl
  -- what was calm before the return is calm behind it
  have hleave := hg.calm (q.pastReturn (newline :: v)).cursor q.data hcalm hend rfl
  have hrule : g.dispatch (q.pastReturn (newline :: v)).cursor q.data = .pass _ q.data :=
    (dispatch_atEnd hg hm hend (List.cons_ne_nil _ _)).1.trans hleave
  refine ⟨n + 1, ?_⟩
  have hmore : (q.pastReturn (newline :: v)).cursor.more = true := rfl
  rw [run_succ', hn, if_pos hmore, step_of_pass hrule]
  rfl

/-- Behind the newline the passes are abreast, one with a return more than the other. -/
theorem abreast_return (hg : g.Keeps r) (he : g.EndsAlike calm) {q : Pass σ ζ}
    (hq : q.cursor.ahead = newline :: v) (hp : (q.advance g).AtLineStart g r)
    (hf : r.fits (q.advance g).cursor.state (q.advance g).data) :
    let p := q.advance g
    let p' := (q.pastReturn (newline :: v)).advance g
    Abreast r p p' ∧ p.cursor.ahead = v ∧ p'.cursor.ahead = v ∧
      p'.cursor.line = p.cursor.line ∧ p'.ended = p.ended ∧
      p.cursor.spent = q.cursor.state :: q.cursor.spent ∧
      p'.cursor.spent = q.cursor.state :: q.cursor.state :: q.cursor.spent := by
  intro p p'
  have hover : q.cursor.atLineEnd = true := by simp [Cursor.atLineEnd, hq]
  obtain ⟨hcursor, -, hdata, hended⟩ := advance_over g hover
  have hover' : (q.pastReturn (newline :: v)).cursor.atLineEnd = true := rfl
  obtain ⟨hcursor', -, hdata', hended'⟩ := advance_over g hover'
  have hsum : g.endLine (q.pastReturn (newline :: v)).cursor q.data =
      g.endLine q.cursor q.data := he.endLine _ rfl rfl
  have hsame : p'.cursor = { p.cursor with
      pos := p.cursor.pos + 1
      word := newline :: carriageReturn :: q.cursor.word } := by
    rw [hcursor', hcursor]
    exact Cursor.forward_pastReturn hq
  have hforward : p.cursor = q.cursor.newLine.forward := hcursor
  rw [Cursor.forward_cons (c := q.cursor.newLine) hq] at hforward
  have hdatas : p'.data = p.data := by
    rw [hdata', hdata]
    exact congrArg Prod.snd hsum
  have hprev : p.cursor.prev.getD newline = newline := by
    rw [hforward]
    rfl
  have habreast : Abreast r p p' := by
    constructor
    case start => exact hprev
    case start' =>
      rw [hsame]
      exact hprev
    case crosses => exact hp.crosses
    case like =>
      rw [hdatas]
      exact hg.like_refl _ _
    case fits => exact hf
    case category =>
      intro _
      rw [hsame]
    case idle | idle' => rfl
    all_goals rw [hsame]
  refine ⟨habreast, ?_, ?_, ?_, ?_, ?_, ?_⟩
  · rw [hforward]
  · rw [hsame, hforward]
  · rw [hsame]
  · rw [hended', hended]
    exact congrArg (fun s => (q.cursor.line, s.1) :: q.ended) hsum
  · rw [hforward]
    rfl
  · rw [hsame, hforward]
    rfl

/-- Scans that come abreast to the beginnings of their lines find the same from there on. -/
theorem Abreast.fresh (hg : g.Keeps r) (hm : g.StaysInLine) {p p' : Pass σ ζ}
    (h : Abreast r p p') (hp : ∃ n, (first g t).run g n = p) (hp' : ∃ n, (first g t').run g n = p')
    (ha : p.cursor.ahead = p'.cursor.ahead) (hlast : t.unended = t'.unended)
    (hopen : p.cursor.ahead = [] → t.unended = false) :
    Tally r (p.origin []) (p'.origin []) (Pass.fresh g t) (Pass.fresh g t') := by
  obtain ⟨n, hn⟩ := hp
  obtain ⟨n', hn'⟩ := hp'
  obtain ⟨l, -, hnil, hnil', htally⟩ := h.rest hg ha hopen
  have hrun : (first g t).run g (n + l) = p.run g l := by rw [run_add, hn]
  have hrun' : (first g t').run g (n' + l) = p'.run g l := by rw [run_add, hn']
  have hfound := fresh_eq_finish hm (by rw [hrun, hnil])
  have hfound' := fresh_eq_finish hm (by rw [hrun', hnil'])
  rw [hfound, hfound', hrun, hrun', ← hlast]
  exact htally

omit [DecidableEq σ] in
/-- What a scan has passed before a newline is the text before it. -/
theorem Sound.length_passed_before {q : Pass σ ζ} {s : σ} {a : Text}
    (h : (q.advance g).Sound g r (a ++ newline :: v)) (hv : (q.advance g).cursor.ahead = v)
    (hspent : (q.advance g).cursor.spent = s :: q.cursor.spent) :
    q.cursor.passed.length = a.length := by
  obtain ⟨old, hfollows⟩ := h.follows
  have hlength := hfollows.length_passed
  have htext := congrArg List.length hfollows.text_eq
  rw [hfollows.pos, Cursor.passed_eq, List.length_reverse, hspent] at hlength
  rw [hv] at htext
  simp only [List.length_append, List.length_cons] at hlength htext
  rw [Cursor.passed_eq, List.length_reverse]
  omega

/-- **A return before a newline.** All that a scan finds beside it is what it finds without it. -/
theorem fresh_insert_return (hg : g.Keeps r) (he : g.EndsAlike calm) (hs : g.Settles rank holds)
    (hm : g.StaysInLine) (a v : Text) :
    let found := fresh g (a ++ newline :: v)
    let found' := fresh g (a ++ carriageReturn :: newline :: v)
    found'.cursor.state = found.cursor.state ∧ found'.ended = found.ended ∧
      ∃ (before after : List σ) (s : σ), before.length = a.length ∧
        found.cursor.passed = before ++ s :: after ∧
        found'.cursor.passed = before ++ s :: s :: after := by
  intro found found'
  have hend : ∀ (b : Byte) w, isLineEnd b = true → Text.AtEnd (b :: w) := by
    intro b w hb c hc
    obtain rfl := Option.some.inj hc
    exact hb
  obtain ⟨q, hq, hcalm, hrest⟩ :=
    exists_rest_first he hs hm a (hend newline v rfl) (List.cons_ne_nil _ _)
  have hplain : (first g (a ++ newline :: v)).RestsAs g q :=
    onto_eq hq ▸ hrest _ (hend newline v rfl)
  obtain ⟨n, hn⟩ := hplain.advance (by simp [hq])
  obtain ⟨n', hn'⟩ := run_over_return he hm hcalm
    (hrest (carriageReturn :: newline :: v) (hend carriageReturn _ rfl))
  -- both have come to the beginning of the next line
  have hsound : (q.advance g).Sound g r (a ++ newline :: v) := hn ▸ (first_sound hg _).run hg n
  have hprev : (q.advance g).cursor.prev = some newline := by
    have hover : q.cursor.atLineEnd = true := by simp [Cursor.atLineEnd, hq]
    rw [(advance_over g hover).1, Cursor.forward_cons (c := q.cursor.newLine) hq]
  obtain ⟨habreast, hv, hv', hline, hended, hspent, hspent'⟩ :=
    abreast_return hg he hq (hsound.atStart rfl hprev) hsound.fits
  -- and from there on they find the same
  have hlast : (a ++ newline :: v).unended = (a ++ carriageReturn :: newline :: v).unended := by
    cases a <;> simp [Text.unended, List.getLast?_append, List.getLast?_cons]
  have hopen : (q.advance g).cursor.ahead = [] → (a ++ newline :: v).unended = false := by
    rw [hv]
    rintro rfl
    exact Text.unended_of_newline (by simp)
  have htally := habreast.fresh hg hm ⟨n, hn⟩ ⟨n', hn'⟩ (hv.trans hv'.symm) hlast hopen
  obtain ⟨y, hy, hy'⟩ := htally.spent
  obtain ⟨e, he, he'⟩ := htally.ended
  refine ⟨htally.state.symm, ?_, q.cursor.passed, y.reverse, q.cursor.state,
    hsound.length_passed_before hv hspent, ?_, ?_⟩
  · rw [he, he']
    simp only [origin, hline, hended]
  · rw [Cursor.passed_eq, hy]
    simp only [origin, hspent, Cursor.passed_eq, List.reverse_append, List.reverse_cons,
      List.append_assoc, List.singleton_append]
  · rw [Cursor.passed_eq, hy']
    simp only [origin, hspent', Cursor.passed_eq, List.reverse_append, List.reverse_cons,
      List.append_assoc, List.cons_append, List.nil_append]

end Pass

open Pass

/-- The text with a carriage return before every newline. -/
def Text.withReturns (t : Text) : Text :=
  t.flatMap fun b => if b = newline then [carriageReturn, newline] else [b]

namespace Session

/-- Scans of the texts end in the same state, and leave the same line states, the same fold levels
and, carriage returns apart, the same categories. -/
structure LooksLike (g : Grammar σ ζ) (t t' : Text) : Prop where
  endState : (Pass.fresh g t).cursor.state = (Pass.fresh g t').cursor.state
  store : (fresh g t).store = (fresh g t').store
  styled : ((fresh g t).styles.styled t).filter (·.1 ≠ carriageReturn) =
    ((fresh g t').styles.styled t').filter (·.1 ≠ carriageReturn)
  folds : (fresh g t).foldLevels g t = (fresh g t').foldLevels g t'

theorem LooksLike.refl (g : Grammar σ ζ) (t : Text) : LooksLike g t t := ⟨rfl, rfl, rfl, rfl⟩

theorem LooksLike.trans (h : LooksLike g t t') (h' : LooksLike g t' t'') : LooksLike g t t'' :=
  ⟨h.endState.trans h'.endState, h.store.trans h'.store, h.styled.trans h'.styled,
    h.folds.trans h'.folds⟩

/-- One return more before a newline changes nothing. -/
theorem looksLike_return (hg : g.Keeps r) (he : g.EndsAlike calm) (hs : g.Settles rank holds)
    (hm : g.StaysInLine) (a v : Text) :
    LooksLike g (a ++ newline :: v) (a ++ carriageReturn :: newline :: v) := by
  obtain ⟨hstate, hended, before, after, s, hbefore, hpassed, hpassed'⟩ :=
    fresh_insert_return hg he hs hm a v
  have hstore : (fresh g (a ++ newline :: v)).store =
      (fresh g (a ++ carriageReturn :: newline :: v)).store := by
    rw [fresh_eq hg, fresh_eq hg, freshStore, freshStore, hended]
  have hstyled : (fresh g (a ++ newline :: v)).styles.styled (a ++ newline :: v) =
      a.zip before ++ (newline, s) :: v.zip after := by
    rw [styled_fresh hg, hpassed, List.zip_append hbefore.symm, List.zip_cons_cons]
  have hstyled' : (fresh g (a ++ carriageReturn :: newline :: v)).styles.styled
      (a ++ carriageReturn :: newline :: v) =
      a.zip before ++ (carriageReturn, s) :: (newline, s) :: v.zip after := by
    rw [styled_fresh hg, hpassed', List.zip_append hbefore.symm, List.zip_cons_cons,
      List.zip_cons_cons]
  refine ⟨hstate.symm, hstore, ?_, ?_⟩
  · rw [hstyled, hstyled', List.filter_append, List.filter_append]
    exact congrArg _ (List.filter_cons_of_neg (by simp)).symm
  · unfold foldLevels
    rw [hstore]
    exact foldLevels_returned _ _ hstyled hstyled'

/-- Nor do returns before every newline. -/
theorem looksLike_withReturns (hg : g.Keeps r) (he : g.EndsAlike calm) (hs : g.Settles rank holds)
    (hm : g.StaysInLine) (a v : Text) : LooksLike g (a ++ v) (a ++ v.withReturns) := by
  induction v generalizing a with
  | nil => exact .refl g _
  | cons b v ih =>
    have hrest : LooksLike g (a ++ b :: v) (a ++ b :: Text.withReturns v) := by
      have h := ih (a ++ [b])
      rwa [List.append_assoc, List.append_assoc] at h
    unfold Text.withReturns at hrest ⊢
    rw [List.flatMap_cons]
    by_cases hb : b = newline
    · subst hb
      exact hrest.trans (looksLike_return hg he hs hm a _)
    · rw [if_neg hb]
      exact hrest

/-- A text without carriage returns looks, with one before every newline, as it does without them:
in whatever sessions both are scanned, its bytes get the same categories and its lines the same
states and fold levels. -/
def IgnoresReturns (g : Grammar σ ζ) : Prop :=
  ∀ {t : Text}, carriageReturn ∉ t → ∀ s s' : Session σ,
    let plain := s.highlight g t
    let returned := s'.highlight g t.withReturns
    ∃ found found', plain.2 = .ok found ∧ returned.2 = .ok found' ∧
      found'.endState = found.endState ∧ returned.1.store = plain.1.store ∧
      (returned.1.styles.styled t.withReturns).filter (·.1 ≠ carriageReturn) =
        plain.1.styles.styled t ∧
      returned.1.foldLevels g t.withReturns = plain.1.foldLevels g t

theorem ignoresReturns_of_keeps (hg : g.Keeps r) (he : g.EndsAlike calm)
    (hs : g.Settles rank holds) (hm : g.StaysInLine) : IgnoresReturns g := by
  intro t ht s s' plain returned
  have hlook : LooksLike g t t.withReturns := looksLike_withReturns hg he hs hm [] t
  have hplain : plain.1 = fresh g t := fst_highlight hg s t
  have hreturned : returned.1 = fresh g t.withReturns := fst_highlight hg s' t.withReturns
  refine ⟨(Pass.fresh g t).outcome g 0, (Pass.fresh g t.withReturns).outcome g 0,
    by simp only [plain, highlight_eq hg], by simp only [returned, highlight_eq hg],
    hlook.endState.symm, ?_, ?_, ?_⟩
  all_goals rw [hplain, hreturned]
  · exact hlook.store.symm
  · rw [← hlook.styled, styled_fresh hg]
    refine List.filter_eq_self.2 fun p hp => ?_
    have hmem : p.1 ∈ t := (List.of_mem_zip hp).1
    simpa using fun e : p.1 = carriageReturn => ht (e ▸ hmem)
  · exact hlook.folds.symm

end Session

/-- **Carriage returns before newlines are ignored**, in every language. -/
theorem ignores_returns (zig : Zig.Config) (words : WordSets) (scala : Scala.Config) :
    Session.IgnoresReturns Toy.grammar ∧ Session.IgnoresReturns (Zig.grammar zig) ∧
      Session.IgnoresReturns (Toml.grammar words) ∧ Session.IgnoresReturns (Scala.grammar scala) :=
  ⟨Session.ignoresReturns_of_keeps Toy.keeps Toy.endsAlike Toy.settles Toy.staysInLine,
    Session.ignoresReturns_of_keeps (Zig.keeps zig) (Zig.endsAlike zig) (Zig.settles zig)
      (Zig.staysInLine zig),
    Session.ignoresReturns_of_keeps (Toml.keeps words) (Toml.endsAlike words) (Toml.settles words)
      (Toml.staysInLine words),
    Session.ignoresReturns_of_keeps (Scala.keeps scala) (Scala.endsAlike scala)
      (Scala.settles scala) (Scala.staysInLine scala)⟩

/-- A string that its line cuts off behind a backslash, and the block that opens with the next line
and folds under it. -/
theorem ignores_returns_cut_off :
    let g := Zig.grammar { words := {} }
    let t : Text := [quote, backslash, newline, lbrace, newline, rbrace]
    let returned := Session.highlight g {} t.withReturns
    carriageReturn ∉ t ∧
      t.withReturns = [quote, backslash, carriageReturn, newline, lbrace, carriageReturn, newline,
        rbrace] ∧
      (returned.1.styles.styled t.withReturns).filter (·.1 ≠ carriageReturn) =
        t.zip [.string, .string, .string, .operator, .plain, .operator] ∧
      (returned.1.foldLevels g t.withReturns).map (·.header) = [true, false, false] := by
  intro g t returned
  have ht : carriageReturn ∉ t := by decide
  obtain ⟨-, hzig, -⟩ := ignores_returns { words := {} } {} { words := {} }
  obtain ⟨-, -, -, -, -, -, hstyled, hfolds⟩ := hzig ht {} {}
  refine ⟨ht, by decide, ?_, ?_⟩
  · rw [hstyled]
    decide +kernel
  · rw [hfolds]
    decide +kernel

end Highlight
