import Highlight.Proofs.Scan.Moves

/-!
The regime of a language: which of its data its rules read in a state, and what always holds of
the data. `Grammar.Keeps` collects what makes a scan of the language resumable. At alike places
its rules answer alike (`Flow.Twin`), at the end of a line they sum it up alike, and what the data
are behind a line that is not nested can be had again from what is kept of the line.
-/

namespace Highlight

open Byte

/-- How the rules of a language treat its categories and its data. -/
structure Regime (σ ζ : Type) extends Conduct σ where
  /-- In the given state the rules cannot tell the two data apart. -/
  like : σ → ζ → ζ → Prop
  /-- What holds of the data in the given state. -/
  fits : σ → ζ → Prop
  /-- What is kept of a line says all of the data, as far as numbers are concerned. -/
  kept : ζ → Prop

variable {σ ζ : Type} [Palette σ]

/-- The cursor may go on to the next byte: the end of a line is passed in a category that may go
over it, and a name has a visible byte here. -/
structure Conduct.Rests (q : Conduct σ) (c : Cursor σ) : Prop where
  crosses : c.byte = newline → q.crosses c.state = true
  named : q.named c.state = true → c.byte ≠ 0 ∧ isSpace c.byte = false

namespace Conduct.Rests

omit [Palette σ]

variable {q : Conduct σ} {c : Cursor σ}

/-- Within the line a cursor may go on, unless a name is in progress. -/
theorem of_byte (hb : c.byte ≠ newline) (hn : q.named c.state = false) : q.Rests c :=
  ⟨fun h => absurd h hb, by simp [hn]⟩

theorem of_crosses (hc : q.crosses c.state = true) (hn : q.named c.state = false) : q.Rests c :=
  ⟨fun _ => hc, by simp [hn]⟩

end Conduct.Rests

omit [Palette σ] in
/-- A byte of a kind to which no newline belongs is none. -/
theorem Byte.ne_newline {kind : Byte → Bool} {b : Byte} (hk : kind newline = false)
    (hb : kind b = true) : b ≠ newline := by
  rintro rfl
  simp [hk] at hb

/-- Two rules answered alike: they made the same moves from `c` and `c'`, left data that cannot be
told apart, and ask for the same. -/
inductive Flow.Twin (r : Regime σ ζ) (c c' : Cursor σ) : Flow σ ζ → Flow σ ζ → Prop where
  | pass {d d' : Cursor σ} {z z' : ζ} (moves : Cursor.InStep r.toConduct c c' d d')
      (like : r.like d.state z z') (fits : r.fits d.state z) (rests : r.Rests d) :
      Twin r c c' (.pass d z) (.pass d' z')
  | again {d d' : Cursor σ} {z z' : ζ} (moves : Cursor.InStep r.toConduct c c' d d')
      (like : r.like d.state z z') (fits : r.fits d.state z)
      (crosses : r.crosses d.state = true) :
      Twin r c c' (.again d z) (.again d' z')

/-- Rules that ask the same question first are compared answer by answer. -/
theorem Flow.Twin.ite {r : Regime σ ζ} {c c' : Cursor σ} {p : Prop} [Decidable p]
    {f f' g g' : Flow σ ζ} (h : p → Flow.Twin r c c' f f') (h' : ¬p → Flow.Twin r c c' g g') :
    Flow.Twin r c c' (if p then f else g) (if p then f' else g') := by
  by_cases hp : p
  · rw [if_pos hp, if_pos hp]
    exact h hp
  · rw [if_neg hp, if_neg hp]
    exact h' hp

/-- What is answered alike after the same moves is answered alike. -/
theorem Flow.Twin.after {r : Regime σ ζ} {c c' d d' : Cursor σ} {f f' : Flow σ ζ}
    (h : Flow.Twin r d d' f f') (hm : Cursor.InStep r.toConduct c c' d d') :
    Flow.Twin r c c' f f' := by
  cases h with
  | pass moves like fits rests => exact .pass (hm.trans moves) like fits rests
  | again moves like fits crosses => exact .again (hm.trans moves) like fits crosses

theorem Flow.Twin.onward {r : Regime σ ζ} {c c' : Cursor σ} {f f' : Flow σ ζ}
    (h : Flow.Twin r c c' f f') : c.Onward f.cursor := by
  cases h with
  | pass moves _ _ _ => exact moves.onward
  | again moves _ _ _ => exact moves.onward

namespace Grammar

/-- The grammar keeps to the regime `r`. -/
structure Keeps (g : Grammar σ ζ) (r : Regime σ ζ) : Prop where
  tidy_of_reads : r.reads → r.tidy
  stable_plain : r.stable Palette.plain = true
  named_of_crosses : ∀ {s}, r.crosses s = true → r.named s = false
  like_refl : ∀ s z, r.like s z z
  /-- Every run is left alike. -/
  leave : ∀ {k k' u u' c c' z z'}, Cursor.Alike r.toConduct k k' u u' c c' →
    r.fits c.state z → (r.named c.state = true → c.HasName) → r.like c.state z z' →
    Flow.Twin r c c' (g.leave c z) (g.leave c' z')
  /-- Every construct is entered alike. -/
  enter : ∀ {k k' u u' c c' z z'}, Cursor.Alike r.toConduct k k' u u' c c' →
    c.state = Palette.plain → r.fits c.state z → r.like c.state z z' →
    Flow.Twin r c c' (g.enter c z) (g.enter c' z')
  /-- Every line is summed up alike. -/
  endLine : ∀ {k k' c c' z z'}, Cursor.Kin r.toConduct k k' c c' →
    r.fits c.state z → r.like c.state z z' →
    (g.endLine c z).1 = (g.endLine c' z').1 ∧
      r.like c.state (g.endLine c z).2 (g.endLine c' z').2 ∧ r.fits c.state (g.endLine c z).2
  leave_plain : ∀ {c z}, c.state = Palette.plain → g.leave c z = .pass c z
  /-- A run that ends with its line is left at the beginning of the next one. -/
  leave_ending : ∀ {c z}, r.ending c.state = true → c.atLineStart = true →
    g.leave c z = .pass (c.switch Palette.plain) z
  fits_plain : ∀ {s z}, r.ending s = true → r.fits s z → r.fits Palette.plain z
  like_plain : ∀ {s z z'}, r.ending s = true → r.like s z z' → r.like Palette.plain z z'
  /-- A scan of a text from its beginning is set up alike. -/
  begin : ∀ {k k' u u' c c' b}, Cursor.Alike r.toConduct k k' u u' c c' → c.pos = c'.pos →
    c.state = Palette.plain →
    Cursor.InStep r.toConduct c c' (g.begin c b).1 (g.begin c' b).1 ∧
      r.like (g.begin c b).1.state (g.begin c b).2 (g.begin c' b).2 ∧
      r.fits (g.begin c b).1.state (g.begin c b).2 ∧ r.crosses (g.begin c b).1.state = true
  /-- A scan that begins further on begins where it is told to. -/
  begin_later : ∀ {c b}, 0 < c.pos → (g.begin c b).1 = c
  /-- Behind a line that is not nested, what is kept of the line tells how to set up the scan. -/
  recalls : ∀ {c d z}, r.crosses c.state = true → r.fits c.state z →
    (g.endLine c z).1.flags.nested = false → r.kept (g.endLine c z).2 → d.state = c.state →
    r.like c.state (g.endLine c z).2
      (g.begin d (LineState.decode (g.endLine c z).1.encode)).2
  depth : ∀ {s z z'}, r.like s z z' → (g.nesting z).depth = (g.nesting z').depth

variable {g : Grammar σ ζ} {r : Regime σ ζ} {k k' : List σ} {u u' : Text} {c c' : Cursor σ}
  {z z' : ζ}

/-- At alike places both rules together answer alike. -/
theorem Keeps.dispatch [DecidableEq σ] (hg : g.Keeps r)
    (h : Cursor.Alike r.toConduct k k' u u' c c') (hf : r.fits c.state z)
    (hn : r.named c.state = true → c.HasName) (hl : r.like c.state z z') :
    Flow.Twin r c c' (g.dispatch c z) (g.dispatch c' z') := by
  have ht := hg.leave h hf hn hl
  unfold Grammar.dispatch
  revert ht
  generalize g.leave c z = f
  generalize g.leave c' z' = f'
  intro ht
  cases ht with
  | again moves like fits crosses => exact .again moves like fits crosses
  | @pass d d' y y' moves like fits rests =>
    have hd := moves.alike h
    by_cases hp : d.state = Palette.plain
    · simp only [if_pos hp, if_pos (hd.state ▸ hp)]
      have he := hg.enter hd hp fits like
      revert he
      generalize g.enter d y = f
      generalize g.enter d' y' = f'
      intro he
      cases he with
      | pass moves' like fits rests => exact .pass (moves.trans moves') like fits rests
      | again moves' like fits crosses => exact .again (moves.trans moves') like fits crosses
    · simp only [if_neg hp, if_neg (hd.state ▸ hp)]
      exact .pass moves like fits rests

end Grammar

end Highlight
