import Highlight.Proofs.Scan.Lockstep

/-!
What holds of a pass that has come from the beginning of its text: it follows the text, it has
ended exactly the lines before its own, in order, and where it begins a line it knows no more than
what the summing up of the line before has left. `Sound.run` says that every run keeps this.
-/

namespace Highlight

open Byte

variable {σ ζ : Type} [Palette σ]

namespace Pass

/-- The pass has just ended the line before its own, and has not begun its own yet. -/
structure AtLineStart (g : Grammar σ ζ) (r : Regime σ ζ) (p : Pass σ ζ) : Prop where
  crosses : r.crosses p.cursor.state = true
  visible : p.cursor.trail.visible = 0
  indent : p.cursor.trail.indent = 0
  latest : ∃ l, p.cursor.spent = p.cursor.state :: l
  summed : ∃ c z rest, c.state = p.cursor.state ∧ r.fits c.state z ∧ p.data = (g.endLine c z).2 ∧
    p.ended = (p.cursor.line - 1, (g.endLine c z).1) :: rest

/-- The pass has come from the beginning of the text. -/
structure Sound (g : Grammar σ ζ) (r : Regime σ ζ) (text : Text) (p : Pass σ ζ) : Prop where
  follows : ∃ old, p.cursor.Follows r.toConduct text old
  fits : r.fits p.cursor.state p.data
  ready : p.Ready r
  lines : p.ended.map Prod.fst = (List.range p.cursor.line).reverse
  atStart : p.rescans = 0 → p.cursor.prev = some newline → p.AtLineStart g r
  idle : p.cursor.ahead = [] → p.cursor.prev = some newline → p.rescans = 0

variable {g : Grammar σ ζ} {r : Regime σ ζ} {text : Text} {p : Pass σ ζ}

/-- A pass that has gone over the end of a line is at the beginning of the next one. -/
theorem atLineStart_advance (hf : r.fits p.cursor.state p.data) (hr : r.Rests p.cursor)
    (h : p.cursor.atLineEnd = true) : (p.advance g).AtLineStart g r := by
  obtain ⟨t, ht, hb⟩ := Cursor.ahead_of_atLineEnd h
  obtain ⟨hcursor, hline, hdata, hended⟩ := advance_over g h
  have hstate : (p.advance g).cursor.state = p.cursor.state := by
    rw [hcursor, Cursor.state_forward]
    rfl
  have htrail : (p.advance g).cursor.trail = p.cursor.trail.newLine := by
    rw [hcursor, Cursor.forward_cons (c := p.cursor.newLine) ht]
    simp [Trail.pass, Cursor.newLine, isSpace, isBlank, isLineEnd]
  refine ⟨hstate ▸ hr.crosses hb, by rw [htrail]; rfl, by rw [htrail]; rfl, ?_, ?_⟩
  · rw [hcursor, Cursor.spent_forward (c := p.cursor.newLine) ht, Cursor.state_forward]
    exact ⟨_, rfl⟩
  · refine ⟨p.cursor, p.data, p.ended, hstate.symm, hf, hdata, ?_⟩
    rw [hended, hline]
    rfl

theorem Sound.advance (hg : g.Keeps r) (hc : ∃ old, p.cursor.Follows r.toConduct text old)
    (hf : r.fits p.cursor.state p.data) (hr : r.Rests p.cursor)
    (hl : p.ended.map Prod.fst = (List.range p.cursor.line).reverse)
    (hm : p.cursor.ahead ≠ [] ∨ ∃ b, p.cursor.prev = some b ∧ b ≠ newline) :
    (p.advance g).Sound g r text := by
  obtain ⟨old, hc⟩ := hc
  obtain ⟨hk, hready, -⟩ := (Kin.refl hg hf).advance hg (together_here p) hr
  by_cases hend : p.cursor.atLineEnd = true
  · obtain ⟨hcursor, hline, -, hended⟩ := advance_over g hend
    refine ⟨⟨old, hcursor ▸ hc.newLine.forward⟩, hk.fits, hready, ?_,
      fun _ _ => atLineStart_advance hf hr hend, fun _ _ => rfl⟩
    rw [hended, hline, List.map_cons, hl, List.range_succ, List.reverse_append]
    rfl
  · obtain ⟨hcursor, hline, hended⟩ := advance_on g hend
    have hb := Cursor.byte_of_not_atLineEnd hend
    -- the byte before is no newline, so there is nothing to say of a line that begins
    have hprev : (p.advance g).cursor.prev ≠ some newline := by
      rw [hcursor]
      cases h : p.cursor.ahead with
      | nil =>
        obtain ⟨b, hb, hne⟩ := hm.resolve_left (by simp [h])
        simpa [Cursor.forward_nil h, hb] using hne
      | cons b t => simpa [Cursor.forward_cons h, Cursor.byte, Cursor.peek, h] using hb
    refine ⟨⟨old, hcursor ▸ hc.forward⟩, hk.fits, hready, ?_, fun _ h => absurd h hprev,
      fun _ h => absurd h hprev⟩
    rw [hended, hline, hl]

variable [DecidableEq σ]

theorem Sound.step (hg : g.Keeps r) (h : p.Sound g r text) (hmore : p.cursor.more = true) :
    (p.step g).Sound g r text := by
  obtain ⟨old, hc⟩ := h.follows
  have hne : p.cursor.ahead ≠ [] := by simpa [Cursor.more] using hmore
  have halike := (Kin.refl hg h.fits).alike (together_here p)
  have ht := hg.dispatch halike h.fits h.ready.name (hg.like_refl _ _)
  have hline : ∀ {d d' : Cursor σ}, Cursor.InStep r.toConduct p.cursor p.cursor d d' →
      p.ended.map Prod.fst = (List.range d.line).reverse := by
    intro d d' moves
    rw [h.lines, (moves.line_eq halike).1]
  have hmoved : ∀ {d d' : Cursor σ}, Cursor.InStep r.toConduct p.cursor p.cursor d d' →
      d.ahead ≠ [] ∨ ∃ b, d.prev = some b ∧ b ≠ newline := by
    intro d d' moves
    rcases moves.moved with h₁ | h₁
    · exact .inl (h₁.1 ▸ hne)
    · exact .inr h₁
  unfold Pass.step
  revert ht
  generalize g.dispatch p.cursor p.data = f
  intro ht
  cases ht with
  | pass moves like fits rests =>
    exact Sound.advance hg (moves.follows hc) fits rests (hline moves) (hmoved moves)
  | @again d _ z _ moves like fits crosses =>
    have hnamed := hg.named_of_crosses crosses
    simp only
    generalize hn : (if d.pos = p.cursor.pos then p.rescans + 1 else 1) = n
    by_cases hle : n ≤ maxRescans
    · simp only [if_pos hle]
      refine ⟨moves.follows hc, fits, ⟨by simp [hnamed], hle⟩, hline moves, fun h₀ => ?_,
        fun hnil hprev => ?_⟩
      · have : n ≠ 0 := by split_ifs at hn <;> omega
        exact absurd h₀ this
      · rcases hmoved moves with hd | ⟨b, hb, hne'⟩
        · exact absurd hnil hd
        · exact absurd (Option.some.inj (hb.symm.trans hprev)) hne'
    · simp only [if_neg hle]
      exact Sound.advance hg (moves.follows hc) fits ⟨fun _ => crosses, by simp [hnamed]⟩
        (hline moves) (hmoved moves)

/-- Every run of a sound pass leaves a sound pass. -/
theorem Sound.run (hg : g.Keeps r) (h : p.Sound g r text) (n : Nat) :
    (p.run g n).Sound g r text :=
  run_invariant (Sound g r text) (fun _ h hmore => h.step hg hmore) h n

end Pass

end Highlight
