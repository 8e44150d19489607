import Highlight.Language.Toml
import Highlight.Proofs.Language.ScalaMoves
import Highlight.Proofs.Language.Toy
import Highlight.Proofs.Language.ZigMoves
import Highlight.Proofs.Scan.Visits
import Highlight.Proofs.Session.Lines

/-!
The memory of a scan, read back from what it found. While it goes on, a scan remembers the last
visible byte in the category in which it was passed; names and comments take their categories only
later. Still, wherever a scan begins a line, it remembers just what a search backwards through the
categories found in the end would tell (`Grammar.ReadsBack`), so that a scan that begins there knows
the same (`memory_read_back`). The run in progress over the end of a line takes no other category
any more (`Pass.crosses_of_prev`), and so what was found by then stays (`Pass.stays_of_prev`).
-/

namespace Highlight

open Byte

variable {σ ζ : Type} [Palette σ] [DecidableEq σ]

namespace Pass

variable {g : Grammar σ ζ} {r : Regime σ ζ} {text : Text} {p : Pass σ ζ} {c : Cursor σ} {z : ζ}

/-! ### At the beginning of a line -/

/-- A run in which the rules look again may go on over the end of a line. -/
theorem crosses_step (hg : g.Keeps r) (h : p.Sound g r text) (hagain : (p.step g).rescans ≠ 0) :
    r.crosses (p.step g).cursor.state = true := by
  have ht := hg.dispatch ((Kin.refl hg h.fits).alike (together_here p)) h.fits h.ready.name
    (hg.like_refl _ _)
  revert hagain
  unfold Pass.step
  revert ht
  generalize g.dispatch p.cursor p.data = f
  intro ht
  cases ht with
  | pass => exact fun hagain => absurd rfl hagain
  | @again d _ _ _ _ _ _ crosses =>
    simp only
    generalize (if d.pos = p.cursor.pos then p.rescans + 1 else 1) = n
    by_cases hle : n ≤ maxRescans
    · simp only [if_pos hle]
      exact fun _ => crosses
    · simp only [if_neg hle]
      exact fun hagain => absurd rfl hagain

/-- A run in progress at the beginning of a line has gone over the end of one. -/
theorem crosses_of_prev (hg : g.Keeps r) {n : Nat}
    (hprev : ((first g text).run g n).cursor.prev = some newline) :
    r.crosses ((first g text).run g n).cursor.state = true := by
  obtain ⟨hsound, hagain⟩ := run_invariant
    (fun p : Pass σ ζ => p.Sound g r text ∧ (p.rescans ≠ 0 → r.crosses p.cursor.state = true))
    (fun p h hmore => ⟨h.1.step hg hmore, crosses_step hg h.1⟩)
    ⟨first_sound hg text, fun h => absurd rfl h⟩ n
  by_cases hidle : ((first g text).run g n).rescans = 0
  · exact (hsound.atStart hidle hprev).crosses
  · exact hagain hidle

omit [DecidableEq σ] in
/-- From the beginning of a line on, a pass is in lockstep with itself, once it is settled. -/
theorem Sound.kin_settle (hg : g.Keeps r) (h : p.Sound g r text)
    (hprev : p.cursor.prev = some newline) (hc : r.crosses p.cursor.state = true) :
    Kin r (p.origin []) (p.origin []) (p.settle r) (p.settle r) := by
  -- as if the rules had not looked there yet, the pass is abreast with itself
  let q : Pass σ ζ := { p with rescans := 0 }
  have hstart : q.cursor.prev.getD newline = newline := by rw [hprev, Option.getD_some]
  have habreast : Abreast r q q :=
    ⟨hstart, hstart, rfl, hc, rfl, fun _ => rfl, rfl, rfl, hg.like_refl _ _, h.fits, rfl, rfl⟩
  have hkin : Kin r (q.origin []) (q.origin []) (q.settle r) (q.settle r) := habreast.settle hg
  have hsettle : q.settle r = { p.settle r with rescans := 0 } := by
    unfold Pass.settle
    split <;> rfl
  rw [hsettle] at hkin
  exact { hkin with rescans := rfl }

/-- **What was found by the beginning of a line stays,** however often the rules look there. -/
theorem stays_of_prev (hg : g.Keeps r) (hm : g.StaysInLine) {n : Nat}
    (hprev : ((first g text).run g n).cursor.prev = some newline) :
    ∃ y, (fresh g text).cursor.spent = y ++ ((first g text).run g n).cursor.spent := by
  have hsound := (first_sound hg text).run hg n
  have hc := crosses_of_prev hg hprev
  generalize hp : (first g text).run g n = p at hprev hsound hc
  by_cases hnil : p.cursor.ahead = []
  · rw [fresh_eq_finish hm (hp ▸ hnil), hsound.not_unended hprev hnil, hp]
    exact ⟨[], rfl⟩
  · have hready : (p.settle r).Ready r := ready_settle hg hc hsound.ready.few
    obtain ⟨k, -, hk, hr, ⟨hend, -⟩, -⟩ := (hsound.kin_settle hg hprev hc).run hg hready (.refl _)
    cases k with
    | zero => exact absurd (ahead_settle.symm.trans hend) hnil
    | succ k =>
      have hstart : p.cursor.atLineStart = true := by simp [Cursor.atLineStart, hprev]
      rw [run_settle hg hc hstart hnil, ← hp, ← run_add] at hk hr hend
      rw [fresh_eq_finish hm hend]
      obtain ⟨y, hy, -⟩ := (hk.finish hg text.unended hr hend hend).cursor.spent
      exact ⟨y, hp ▸ hy⟩

/-! ### What is remembered there -/

/-- What is behind a place at the beginning of a line keeps the categories that it has got by
then. -/
theorem Visits.found_of_atLineStart (hg : g.Keeps r) (hm : g.StaysInLine)
    (h : Visits g text c z) (hstart : c.atLineStart = true) :
    ∃ y, (fresh g text).cursor.spent = y ++ c.spent := by
  obtain ⟨n, rfl, -⟩ := h
  cases hprev : ((first g text).run g n).cursor.prev with
  | none =>
    -- nothing has been passed yet
    obtain ⟨old, hf⟩ := ((first_sound hg text).run hg n).follows
    have hnone : old ++ ((first g text).run g n).cursor.word.reverse = [] :=
      List.getLast?_eq_none_iff.1 (hf.prev.symm.trans hprev)
    have hpassed := hf.length_passed
    rw [hf.pos, hnone, Cursor.passed_eq, List.length_reverse] at hpassed
    rw [List.length_eq_zero_iff.1 hpassed]
    exact ⟨_, (List.append_nil _).symm⟩
  | some b =>
    obtain rfl : b = newline := by simpa [Cursor.atLineStart, hprev] using hstart
    exact stays_of_prev hg hm hprev

/-- **What a scan remembers where it begins a line is what was found there in the end.** The search
goes backwards from the place. -/
theorem Visits.trail_eq (hg : g.Keeps r) (hm : g.StaysInLine) (ht : r.tidy)
    (h : Visits g text c z) (hstart : c.atLineStart = true) :
    (c.trail.byte, c.trail.category) =
      Trail.searchBack (Styles.styled (text.take c.pos) (fresh g text).cursor.passed.toArray) := by
  obtain ⟨y, hy⟩ := h.found_of_atLineStart hg hm hstart
  obtain ⟨n, rfl, -⟩ := h
  obtain ⟨old, hf⟩ := ((first_sound hg text).run hg n).follows
  generalize ((first g text).run g n).cursor = c at hf hy
  have htake : text.take c.pos = old ++ c.word.reverse := by
    rw [hf.text_eq, hf.pos, List.take_left]
  have hstyled : Styles.styled (old ++ c.word.reverse) (fresh g text).cursor.passed.toArray =
      c.styledBytes old := by
    refine hf.styled_eq fun i hi => ?_
    rw [Styles.categoryAt_toArray, Cursor.getD_passed hy (hf.length_passed ▸ hi)]
  rw [htake, hstyled, ← Trail.ofStyled_eq_searchBack, hf.trail.byte, hf.trail.category ht]

/-- The scan of a text comes by the beginning of every line but the first. -/
theorem exists_visits (hg : g.Keeps r) {a : Text} (ha : a.getLast? = some newline) (u : Text) :
    ∃ c z, Visits g (a ++ u) c z ∧ c.pos = a.length ∧ c.atLineStart = true := by
  obtain ⟨q, -, hq, -, -, rfl, -⟩ := comesBy hg ha u u
  obtain ⟨n, -, hn⟩ := hq.reached
  exact ⟨_, _, ⟨n, congrArg cursor hn, congrArg data hn⟩, hq.pos,
    by simp [Cursor.atLineStart, hq.prev]⟩

end Pass

open Pass

/-- What a scan remembers at the beginning of a line can be read back from the categories that it
finds: the last byte before the line that is neither white space nor in a quiet category, and the
category of that byte. -/
structure Grammar.ReadsBack (g : Grammar σ ζ) : Prop where
  /-- Where the scan begins a line, it remembers what the search finds. -/
  remembers : ∀ (s : Session σ) (text : Text), ∃ found, (s.highlight g text).2 = .ok found ∧
    ∀ c z, Visits g text c z → c.atLineStart = true →
      (c.trail.byte, c.trail.category) =
        Trail.searchBack (Styles.styled (text.take c.pos) (Run.expand found.runs).toArray)
  /-- A scan that begins there is told the same, by the categories that the session has kept. -/
  told : ∀ (s : Session σ) (text : Text) (c : Cursor σ) (z : ζ), Visits g text c z →
    c.atLineStart = true → ∀ (len : Nat) (state : σ),
      let d := Cursor.ofPart text c.pos len state (s.highlight g text).1.styles
      d.trail.byte = c.trail.byte ∧ d.trail.category = c.trail.category
  /-- The scan comes by the beginning of every line but the first. -/
  comes : ∀ (a u : Text), a.getLast? = some newline →
    ∃ c z, Visits g (a ++ u) c z ∧ c.pos = a.length ∧ c.atLineStart = true

theorem Grammar.Keeps.readsBack {g : Grammar σ ζ} {r : Regime σ ζ} (hg : g.Keeps r)
    (hm : g.StaysInLine) (ht : r.tidy) : g.ReadsBack where
  remembers s text := by
    rw [Session.highlight_eq hg]
    refine ⟨_, rfl, fun c z h hstart => ?_⟩
    rw [h.trail_eq hg hm ht hstart]
    simp only [Pass.outcome, Cursor.runs, Run.expand_encode]
  told s text c z h hstart len state := by
    have htrail := h.trail_eq hg hm ht hstart
    rw [← Trail.ofStyled_eq_searchBack] at htrail
    rw [Session.highlight_eq hg]
    exact ⟨(congrArg Prod.fst htrail).symm, (congrArg Prod.snd htrail).symm⟩
  comes _ u ha := exists_visits hg ha u

/-- **The memory of a scan can be read back.** -/
theorem memory_read_back (zig : Zig.Config) (scala : Scala.Config) :
    Toy.grammar.ReadsBack ∧ (Zig.grammar zig).ReadsBack ∧ (Scala.grammar scala).ReadsBack :=
  ⟨Toy.keeps.readsBack Toy.staysInLine trivial,
    (Zig.keeps zig).readsBack (Zig.staysInLine zig) trivial,
    (Scala.keeps scala).readsBack (Scala.staysInLine scala) trivial⟩

/-- Behind a line with the name of a class and a comment, the name is remembered as that of a class,
which it was not yet when it was passed. -/
theorem memory_read_back_class :
    let g := Scala.grammar { words := { classes := ⟨[[upperU]]⟩ } }
    let line : Text := [upperU, slash, slash, newline]
    line.getLast? = some newline ∧ ∃ c z, Visits g (line ++ [quote]) c z ∧ c.atLineStart = true ∧
      c.pos = 4 ∧ (c.trail.byte, c.trail.category) = (upperU, .className) := by
  intro g line
  obtain ⟨-, -, h⟩ := memory_read_back { words := {} } { words := { classes := ⟨[[upperU]]⟩ } }
  obtain ⟨c, z, hc, hpos, hstart⟩ := h.comes line [quote] rfl
  obtain ⟨found, hfound, hmemory⟩ := h.remembers {} (line ++ [quote])
  have hruns : (Session.highlight g {} (line ++ [quote])).2.toOption.map Outcome.runs =
      some [⟨0, 1, .className⟩, ⟨1, 3, .lineComment⟩, ⟨4, 1, .string⟩] := by decide
  rw [hfound] at hruns
  refine ⟨rfl, c, z, hc, hstart, hpos, (hmemory c z hc hstart).trans ?_⟩
  rw [hpos, Option.some.inj hruns]
  decide

/-- A key of TOML that turns out to be an error is still remembered as a key. -/
theorem Toml.not_readsBack : ¬(Toml.grammar {}).ReadsBack := by
  intro h
  let p := (first (Toml.grammar {}) [lowerA, newline]).run (Toml.grammar {}) 3
  have hstart : p.cursor.atLineStart = true := by decide
  obtain ⟨-, htold⟩ := h.told {} [lowerA, newline] p.cursor p.data ⟨3, rfl, rfl⟩ hstart 0 .plain
  exact absurd htold (by decide)

end Highlight
