import Highlight.Proofs.Line.Store
import Highlight.Proofs.Scan.Fresh
import Highlight.Proofs.Styles
import Highlight.Resume
import Mathlib.Data.List.GetD
import Mathlib.Data.List.Nodup

/-!
A scan that begins at the beginning of a line, with what is kept of the text before. If that is
what a scan from the beginning of the text has left, and the line before is not nested, the scan
begins abreast with it (`Pass.abreast_resumed`).
-/

namespace Highlight

open Byte

variable {σ ζ : Type} [Palette σ]

/-! ### The memory of a scan, read back -/

theorem Trail.ofStyled_counts (l : List (Byte × σ)) :
    (Trail.ofStyled l).visible = 0 ∧ (Trail.ofStyled l).indent = 0 := by
  have key : ∀ t : Trail σ, t.visible = 0 ∧ t.indent = 0 →
      (l.foldl Trail.glance t).visible = 0 ∧ (l.foldl Trail.glance t).indent = 0 := by
    induction l with
    | nil => exact fun _ h => h
    | cons p l ih =>
      intro t h
      refine ih _ ?_
      unfold Trail.glance
      split
      · exact h
      · exact h
  exact key _ ⟨rfl, rfl⟩

omit [Palette σ] in
/-- What was found further on leaves what was found before. -/
theorem Cursor.getD_passed {c d : Cursor σ} {y : List σ} (hy : d.spent = y ++ c.spent) {i : Nat}
    (hi : i < c.passed.length) (s : σ) : d.passed.getD i s = c.passed.getD i s := by
  rw [passed_eq d, hy, List.reverse_append, ← passed_eq, List.getD_append _ _ _ _ hi]

/-- The categories that were passed say of the text what the cursor has passed. -/
theorem Cursor.Follows.styled_eq {q : Conduct σ} {text old : Text} {c : Cursor σ}
    (h : c.Follows q text old) {styles : Styles σ}
    (hstyles : ∀ i < c.pos, styles.categoryAt i = c.passed.getD i Palette.plain) :
    styles.styled (old ++ c.word.reverse) = c.styledBytes old := by
  rw [h.styledBytes_eq]
  exact Styles.styled_eq (h.length_passed.trans h.pos) fun i hi => hstyles i (h.pos ▸ hi)

/-- The cursor with which a scan goes on behind `a`. -/
theorem Cursor.ofPart_append (a u : Text) (s : σ) (styles : Styles σ) :
    Cursor.ofPart (a ++ u) a.length u.length s styles =
      { start := a.length, pos := a.length, line := a.count newline, prev := a.getLast?,
        ahead := u, state := s, word := [], closed := [],
        trail := Trail.ofStyled (styles.styled a) } := by
  have hahead : ((a ++ u).take (a.length + u.length)).drop a.length = u := by
    rw [← List.length_append, List.take_length, List.drop_left]
  simp only [ofPart, ofRange, List.take_left, Nat.min_self, List.length_append,
    Nat.min_eq_left (Nat.le_add_right _ _), hahead]

namespace Pass

variable [DecidableEq σ] {g : Grammar σ ζ} {r : Regime σ ζ} {q : Pass σ ζ} {text a u : Text}

/-- The words of the lines of the text, as a scan from its beginning leaves them. -/
def freshStore (g : Grammar σ ζ) (text : Text) : LineStore :=
  LineStore.recordAll #[] (fresh g text).ended

theorem nodup_fresh_lines (hg : g.Keeps r) (text : Text) :
    ((fresh g text).ended.map Prod.fst).Nodup := by
  rw [fresh_lines hg]
  exact List.nodup_reverse.2 List.nodup_range

theorem size_freshStore (hg : g.Keeps r) (text : Text) :
    (freshStore g text).size = text.committed := by
  have hmem : ∀ i, i ∈ (fresh g text).ended.map Prod.fst ↔ i < text.committed := by
    intro i
    rw [fresh_lines hg, List.mem_reverse, List.mem_range]
  refine Nat.le_antisymm (LineStore.size_recordAll_le (Nat.zero_le _) fun i hi => (hmem i).1 hi) ?_
  refine Nat.le_of_not_lt fun hlt => ?_
  exact absurd (LineStore.lt_size_recordAll ((hmem _).2 hlt)) (Nat.lt_irrefl _)

/-- The word of the line that ends where the scan comes by. -/
theorem ComesBy.word (hg : g.Keeps r) (h : ComesBy g r text q) {i : Nat} {st : LineState}
    (hi : (i, st) ∈ q.ended) : (freshStore g text).word i = st.encode := by
  obtain ⟨-, e, he⟩ := h.stays hg
  exact LineStore.word_recordAll (nodup_fresh_lines hg text) (he ▸ List.mem_append_right e hi)

/-- The categories before the place where the scan comes by. -/
theorem ComesBy.passed (hg : g.Keeps r) (h : ComesBy g r text q) :
    ∃ rest, (fresh g text).cursor.passed = q.cursor.passed ++ rest := by
  obtain ⟨⟨y, hy⟩, -⟩ := h.stays hg
  exact ⟨y.reverse, by rw [Cursor.passed_eq, hy, List.reverse_append]; rfl⟩

omit [DecidableEq σ] in
theorem last_eq (ha : a = [] ∨ a.getLast? = some newline) (u : Text) :
    (a.length + u.length == (a ++ u).length && decide (0 < u.length) &&
      (a ++ u).getLast? != some newline) = (a ++ u).unended := by
  cases u with
  | nil => rcases ha with rfl | ha <;> simp_all [Text.unended]
  | cons b u => simp [Text.unended]

/-- A scan from the beginning of a line to the end of the text, as a run. -/
theorem ofPart_eq (g : Grammar σ ζ) (ha : a = [] ∨ a.getLast? = some newline) (u : Text) (s : σ)
    (store : LineStore) (styles : Styles σ) :
    let p := opened g (Cursor.ofPart (a ++ u) a.length u.length s styles)
      (store.stateBefore (a.count newline))
    ofPart g (a ++ u) a.length u.length s store styles =
      (p.run g p.cost).finish g (a ++ u).unended := by
  rw [ofPart, whole_eq, last_eq ha, Cursor.ofPart_append]
  rfl

omit [DecidableEq σ] in
/-- A scan that begins behind the beginning of the text begins just where it is told to. -/
theorem cursor_opened (hg : g.Keeps r) (ha : a ≠ []) (u : Text) (s : σ) (styles : Styles σ)
    (before : LineState) :
    (opened g (Cursor.ofPart (a ++ u) a.length u.length s styles) before).cursor =
      { start := a.length, pos := a.length, line := a.count newline, prev := a.getLast?,
        ahead := u, state := s, word := [], closed := [],
        trail := Trail.ofStyled (styles.styled a) } := by
  rw [← Cursor.ofPart_append]
  refine hg.begin_later ?_
  rw [Cursor.ofPart_append]
  exact List.length_pos_iff.2 ha

/-! ### What was left behind -/

section Resume

variable {styles : Styles σ} {store : LineStore}

/-- The categories that were left behind are those that were passed. -/
theorem ComesBy.categoryAt (hg : g.Keeps r) (h : ComesBy g r (a ++ q.cursor.ahead) q)
    (hstyles : ∀ i < a.length, styles.categoryAt i =
      (fresh g (a ++ q.cursor.ahead)).cursor.passed.getD i Palette.plain) :
    ∀ i < a.length, styles.categoryAt i = q.cursor.passed.getD i Palette.plain := by
  intro i hi
  obtain ⟨⟨y, hy⟩, -⟩ := h.stays hg
  have hlen : i < q.cursor.passed.length := by
    rwa [Cursor.passed_eq, List.length_reverse, h.length_spent]
  rw [hstyles i hi, Cursor.getD_passed hy hlen]

/-- The last of them says the state in which the scan comes by. -/
theorem ComesBy.stateAt (h : ComesBy g r (a ++ q.cursor.ahead) q)
    (hstyles : ∀ i < a.length, styles.categoryAt i = q.cursor.passed.getD i Palette.plain) :
    ResumePoint.stateAt styles a.length = q.cursor.state := by
  obtain ⟨l, hlatest⟩ := h.atLineStart.latest
  have hlen := h.length_spent
  rw [hlatest, List.length_cons] at hlen
  rw [← hlen, ResumePoint.stateAt, hstyles _ (by omega), Cursor.passed_eq, hlatest,
    List.reverse_cons, ← List.length_reverse, List.getD_append_right _ _ _ _ (Nat.le_refl _)]
  simp

/-- All of them say what is remembered there. -/
theorem ComesBy.trail (h : ComesBy g r (a ++ q.cursor.ahead) q)
    (hstyles : ∀ i < a.length, styles.categoryAt i = q.cursor.passed.getD i Palette.plain) :
    q.cursor.trail.Recalls r.toConduct (styles.styled a) := by
  obtain ⟨old, hf⟩ := h.sound.follows
  rw [← hf.behind_eq, hf.styled_eq (h.pos ▸ hstyles)]
  exact hf.trail

theorem ComesBy.line_pos (h : ComesBy g r (a ++ q.cursor.ahead) q) : 0 < a.count newline := by
  obtain ⟨old, hf⟩ := h.sound.follows
  have hprev := hf.prev.symm.trans h.prev
  rw [hf.behind_eq] at hprev
  exact List.count_pos_iff.2 (List.mem_of_getLast? hprev)

/-- From what is kept of the line before, the data can be set up as they are where the scan comes
by. -/
theorem ComesBy.like_begin (hg : g.Keeps r) (h : ComesBy g r (a ++ q.cursor.ahead) q)
    (hword : store.word (a.count newline - 1) =
      (freshStore g (a ++ q.cursor.ahead)).word (a.count newline - 1))
    (hnested : (store.state (a.count newline - 1)).flags.nested = false)
    (hkept : r.kept q.data) {d : Cursor σ} (hd : d.state = q.cursor.state) :
    r.like q.cursor.state q.data (g.begin d (store.stateBefore (a.count newline))).2 := by
  obtain ⟨hcross, -, -, -, c, z, e, hc, hfits, hz, he⟩ := h.atLineStart
  have hstate : store.stateBefore (a.count newline) = store.state (a.count newline - 1) := by
    rw [← Nat.sub_add_cancel h.line_pos]
    rfl
  have hbefore : store.state (a.count newline - 1) =
      LineState.decode (g.endLine c z).1.encode := by
    have hw := h.word hg (he ▸ List.mem_cons_self)
    rw [h.line] at hw
    rw [LineStore.state, hword, hw]
  have hnested' : (g.endLine c z).1.flags.nested = false := by
    rwa [hbefore, LineState.decode_encode] at hnested
  rw [hstate, hbefore, hz, ← hc]
  exact hg.recalls (hc ▸ hcross) hfits hnested' (hz ▸ hkept) (hd.trans hc.symm)

/-- A scan that begins where another comes by, with what that has left behind it, begins there as
the other goes on. -/
theorem abreast_resumed (hg : g.Keeps r) (h : ComesBy g r (a ++ u) q) (hu : q.cursor.ahead = u)
    (hstyles : ∀ i < a.length,
      styles.categoryAt i = (fresh g (a ++ u)).cursor.passed.getD i Palette.plain)
    (hword : store.word (a.count newline - 1) = (freshStore g (a ++ u)).word (a.count newline - 1))
    (hnested : (store.state (a.count newline - 1)).flags.nested = false)
    (hkept : r.kept q.data) :
    Abreast r q (opened g
      (Cursor.ofPart (a ++ u) a.length u.length (ResumePoint.stateAt styles a.length) styles)
      (store.stateBefore (a.count newline))) := by
  subst hu
  obtain ⟨old, hf⟩ := h.sound.follows
  obtain ⟨hcross, hvisible, hindent, -, -⟩ := h.atLineStart
  have hcategories := h.categoryAt hg hstyles
  have hstate := h.stateAt hcategories
  have htrail := h.trail hcategories
  have hne : a ≠ [] := by
    rintro rfl
    exact absurd h.line_pos (Nat.lt_irrefl 0)
  have hprev : q.cursor.prev.getD newline = newline := by rw [h.prev]; rfl
  have hlike := h.like_begin hg hword hnested hkept
    (d := Cursor.ofPart (a ++ q.cursor.ahead) a.length q.cursor.ahead.length
      (ResumePoint.stateAt styles a.length) styles) (by rw [Cursor.ofPart_append]; exact hstate)
  refine ⟨hprev, ?_, ?_, hcross, ?_, fun hr => ?_, ?_, ?_, hlike, h.sound.fits, h.idle, rfl⟩
  all_goals rw [cursor_opened hg hne]
  · rw [← hf.behind_eq, ← hf.prev]
    exact hprev
  · exact hstate.symm
  · exact htrail.byte
  · exact htrail.category (hg.tidy_of_reads hr)
  · rw [hvisible]
    exact (Trail.ofStyled_counts _).1.symm
  · rw [hindent]
    exact (Trail.ofStyled_counts _).2.symm

/-- **A scan from the beginning of a line on finds what is found there.** It is told of the text
before only the categories and the state of the last line. -/
theorem ComesBy.resumed (hg : g.Keeps r) (h : ComesBy g r (a ++ u) q)
    (ha : a.getLast? = some newline) (hu : q.cursor.ahead = u)
    (hstyles : ∀ i < a.length,
      styles.categoryAt i = (fresh g (a ++ u)).cursor.passed.getD i Palette.plain)
    (hword : store.word (a.count newline - 1) = (freshStore g (a ++ u)).word (a.count newline - 1))
    (hnested : (store.state (a.count newline - 1)).flags.nested = false)
    (hkept : r.kept q.data) :
    let p := ofPart g (a ++ u) a.length u.length (ResumePoint.stateAt styles a.length) store styles
    p.cursor.start = a.length ∧ (fresh g (a ++ u)).cursor.state = p.cursor.state ∧
      r.like (fresh g (a ++ u)).cursor.state (fresh g (a ++ u)).data p.data ∧
      (fresh g (a ++ u)).cursor.passed = q.cursor.passed ++ p.cursor.passed ∧
      (fresh g (a ++ u)).ended = p.ended ++ q.ended := by
  have hne : a ≠ [] := by
    rintro rfl
    simp at ha
  have hc := cursor_opened hg hne u (ResumePoint.stateAt styles a.length) styles
    (store.stateBefore (a.count newline))
  have hline : q.cursor.line = a.count newline := by
    subst hu
    exact h.line
  have htally := h.rest hg (abreast_resumed hg h hu hstyles hword hnested hkept) (by rw [hc, hu])
  rw [← ofPart_eq g (.inr ha)] at htally
  obtain ⟨hstate, ⟨-, hstart⟩, ⟨y, hy, hy'⟩, hlike, e, he, he'⟩ := htally
  have hspent : ∀ {c : Cursor σ}, c.word = [] → c.closed = [] → c.spent = [] := by
    intro c h₁ h₂
    simp [Cursor.spent, h₁, h₂]
  have hfound : (ofPart g (a ++ u) a.length u.length (ResumePoint.stateAt styles a.length) store
      styles).cursor.spent = y := by
    rw [hy', origin, hc, hspent rfl rfl, List.append_nil]
  refine ⟨?_, hstate, hlike, ?_, ?_⟩
  · rw [hstart, origin, hc]
  · rw [Cursor.passed_eq, hy, Cursor.passed_eq, Cursor.passed_eq, hfound, List.reverse_append]
    rfl
  · rw [he, he', origin, origin, hc, hline]
    simp [opened]

end Resume

end Pass

end Highlight
