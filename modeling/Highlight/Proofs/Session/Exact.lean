import Highlight.Proofs.Session.Restyle

/-!
Sessions that are up to date. A session holds a text if it has what a scan of the whole text leaves:
the category of every byte, and the word of every line that has any bytes. Of a later text it then
knows all that stands before the first line that was edited (`Holds.knows`), and when it has scanned
the later text again from that line on, it holds that one (`Session.restyles_of_keeps`).
-/

namespace Highlight

open Byte

variable {σ ζ : Type} [Palette σ] [DecidableEq σ]
variable {g : Grammar σ ζ} {r : Regime σ ζ} {text old a : Text} {n o : Nat}

namespace LineStore

theorem recordAll_append (s : LineStore) (e e' : List (Nat × LineState)) :
    s.recordAll (e ++ e') = (s.recordAll e').recordAll e := List.foldr_append

theorem getElem?_eq {s t : LineStore} {i : Nat} (hs : i < s.size) (ht : i < t.size)
    (h : s.word i = t.word i) : s[i]? = t[i]? := by
  rw [word, word, Array.getD_eq_getD_getElem?, Array.getD_eq_getD_getElem?,
    Array.getElem?_eq_getElem hs, Array.getElem?_eq_getElem ht] at h
  rw [Array.getElem?_eq_getElem hs, Array.getElem?_eq_getElem ht]
  exact congrArg some h

end LineStore

theorem Text.count_le_committed (t : Text) : t.count newline ≤ t.committed := Nat.le_add_right _ _

/-- A line that has any bytes is a line. -/
theorem Text.committed_le_count (t : Text) : t.committed ≤ (LineTable.ofText t).count := by
  rw [LineTable.count_ofText, committed]
  cases t.unended <;> simp

theorem Text.count_le_committed_succ (t : Text) :
    (LineTable.ofText t).count ≤ t.committed + 1 := by
  rw [LineTable.count_ofText]
  exact Nat.succ_le_succ t.count_le_committed

/-- If no line is left open, the last line is empty. -/
theorem Text.count_eq_committed_succ {t : Text} (h : t.unended = false) :
    (LineTable.ofText t).count = t.committed + 1 := by
  simp [LineTable.count_ofText, committed, h]

open Pass

namespace Session

/-- The session has of the text what a scan of the whole text leaves. -/
structure Holds (g : Grammar σ ζ) (s : Session σ) (text : Text) : Prop where
  styles : s.styles = (fresh g text).styles
  words : ∀ i < (fresh g text).store.size, s.store[i]? = (fresh g text).store[i]?

/-- Scanning the text again from the line on succeeds. What is held of the text afterwards, the
state at its end and the depth there are those of a scan of the whole text by a new session. -/
structure Restyles (g : Grammar σ ζ) (s : Session σ) (text : Text) (n : Nat) : Prop where
  holds : (s.restyle g text n).1.Holds g text
  answers : ∃ found whole, (s.restyle g text n).2 = .ok found ∧
    (highlight g {} text).2 = .ok whole ∧ found.endState = whole.endState ∧
    found.nesting.depth = whole.nesting.depth

theorem size_store_fresh (hg : g.Keeps r) (text : Text) :
    (fresh g text).store.size = text.committed := by
  rw [fresh_eq hg]
  exact size_freshStore hg text

/-- A text with the categories that a scan of it leaves. -/
theorem styled_fresh (hg : g.Keeps r) (t : Text) :
    (fresh g t).styles.styled t = t.zip (Pass.fresh g t).cursor.passed := by
  refine Styles.styled_eq (fresh_length hg t) fun i _ => ?_
  rw [fresh_eq hg, Styles.categoryAt_toArray]

/-- Where the scan comes by the beginning of a line, the byte before has its state as category. -/
theorem styles_before (hg : g.Keeps r) {q : Pass σ ζ} (h : ComesBy g r text q)
    (ho : q.cursor.spent.length = o + 1) : (fresh g text).styles[o]? = some q.cursor.state := by
  obtain ⟨l, hspent⟩ := h.atLineStart.latest
  obtain ⟨y, hy⟩ := (h.stays hg).1
  obtain rfl : l.length = o := by simpa [hspent] using ho
  rw [fresh_eq hg, List.getElem?_toArray, Cursor.passed_eq, hy, hspent]
  simp

theorem categoryAt_before (hg : g.Keeps r) {q : Pass σ ζ} (h : ComesBy g r text q)
    (ho : q.cursor.spent.length = o + 1) : (fresh g text).styles.categoryAt o = q.cursor.state := by
  rw [Styles.categoryAt, Array.getD_eq_getD_getElem?, styles_before hg h ho, Option.getD_some]

/-- The state that is kept of a line is the one it was given, less the flags without a meaning. -/
theorem state_fresh (hg : g.Keeps r) {i : Nat} {st : LineState}
    (h : (i, st) ∈ (Pass.fresh g text).ended) :
    (fresh g text).store.state i = { st with flags := st.flags.known } := by
  have hword : (freshStore g text).word i = st.encode :=
    LineStore.word_recordAll (nodup_fresh_lines hg text) h
  rw [fresh_eq hg, LineStore.state, hword, LineState.decode_encode]

/-- Nothing is kept of a line without any bytes. -/
theorem state_fresh_of_committed_le (hg : g.Keeps r) {i : Nat} (h : text.committed ≤ i) :
    (fresh g text).store.state i = {} :=
  LineStore.state_of_size_le (size_store_fresh hg text ▸ h)

theorem holds_highlight (hg : g.Keeps r) (s : Session σ) (text : Text) :
    (s.highlight g text).1.Holds g text := by
  rw [highlight_eq hg]
  exact ⟨by rw [fresh_eq hg], fun i _ => by rw [fresh_eq hg]⟩

/-! ### Before a line -/

/-- What a scan leaves of the text before a line depends only on that text. -/
theorem fresh_before (hg : g.Keeps r) (ha : a.getLast? = some newline) (u u' : Text) :
    (∀ i < a.length, (fresh g (a ++ u)).styles[i]? = (fresh g (a ++ u')).styles[i]?) ∧
      ∀ i < a.count newline, (fresh g (a ++ u)).store[i]? = (fresh g (a ++ u')).store[i]? := by
  obtain ⟨q, q', hq, hq', hk, rfl, rfl⟩ := comesBy hg ha u u'
  obtain ⟨y, hy, hy'⟩ := hk.cursor.spent
  obtain ⟨e, he, he'⟩ := hk.ended
  have hpassed : q.cursor.passed = q'.cursor.passed := by
    rw [Cursor.passed_eq, Cursor.passed_eq, hy, hy']
  have hlen : q.cursor.passed.length = a.length := by
    rw [Cursor.passed_eq, List.length_reverse, hq.length_spent]
  obtain ⟨w, hw⟩ := hq.passed hg
  obtain ⟨w', hw'⟩ := hq'.passed hg
  constructor
  · intro i hi
    rw [fresh_eq hg, fresh_eq hg]
    simp only [List.getElem?_toArray, hw, hw', ← hpassed]
    rw [List.getElem?_append_left (hlen ▸ hi), List.getElem?_append_left (hlen ▸ hi)]
  · intro i hi
    have hmem : i ∈ q.ended.map Prod.fst := by
      rw [hq.sound.lines, List.mem_reverse, List.mem_range, hq.line]
      exact hi
    obtain ⟨⟨i, st⟩, hst, rfl⟩ := List.mem_map.1 hmem
    have hst' : (i, st) ∈ q'.ended := he' ▸ he ▸ hst
    have hcount : ∀ w : Text, i < (a ++ w).committed := by
      intro w
      have := Text.count_le_committed (a ++ w)
      rw [List.count_append] at this
      omega
    rw [fresh_eq hg, fresh_eq hg]
    refine LineStore.getElem?_eq ?_ ?_ ((hq.word hg hst).trans (hq'.word hg hst').symm)
    · exact size_freshStore hg _ ▸ hcount _
    · exact size_freshStore hg _ ▸ hcount _

/-- Before the first line there is nothing to know. -/
theorem knows_zero (g : Grammar σ ζ) (s : Session σ) (text : Text) : s.Knows g text 0 := by
  constructor
  · intro o ho i hi
    rw [LineTable.start?_zero] at ho
    cases ho
    exact absurd hi (Nat.not_lt_zero i)
  · intro i hi
    exact absurd hi (Nat.not_lt_zero i)

/-- A session that holds a text knows what another text has in common with it, up to the beginning
of a line. -/
theorem Holds.knows (hg : g.Keeps r) {s : Session σ} (h : s.Holds g old)
    (ho : (LineTable.ofText text).start? n = some o) (hsame : old.take o = text.take o) :
    s.Knows g text n := by
  obtain ⟨hcount, hle, hlast⟩ := LineTable.take_start? ho
  rcases hlast with ⟨rfl, rfl⟩ | hlast
  · exact knows_zero g _ text
  · obtain ⟨hstyles, hwords⟩ := fresh_before hg hlast (old.drop o) (text.drop o)
    have htext := List.take_append_drop o text
    have hold : text.take o ++ old.drop o = old := hsame ▸ List.take_append_drop o old
    rw [htext, hold, List.length_take, Nat.min_eq_left hle] at hstyles
    rw [htext, hold, hcount] at hwords
    refine ⟨fun o' ho' i hi => ?_, fun i hi => ?_⟩
    · obtain rfl : o = o' := by simpa [ho] using ho'
      rw [h.styles, hstyles i hi]
    · have hsize : n ≤ old.committed := by
        have := Text.count_le_committed old
        rw [← hold, List.count_append, hcount, hold] at this
        omega
      rw [h.words i (size_store_fresh hg old ▸ by omega), hwords i hi]

/-- The scan of the first lines of a text is a scan of the text that they make up. -/
theorem ofPart_lines (g : Grammar σ ζ) (ha : a.getLast? = some newline) (u : Text)
    (store : LineStore) (styles : Styles σ) :
    ofPart g (a ++ u) 0 a.length Palette.plain store styles = Pass.fresh g a := by
  have hcursor : Cursor.ofPart (a ++ u) 0 a.length (Palette.plain : σ) styles =
      Cursor.outset a := by
    simp [Cursor.ofPart, Cursor.ofRange, Cursor.outset, Styles.styled, Trail.ofStyled]
  have hlast : (0 + a.length == (a ++ u).length && decide (0 < a.length) &&
      (a ++ u).getLast? != some newline) = false := by
    cases u <;> simp [ha]
  rw [Pass.fresh_eq, ofPart, hcursor, hlast, whole_eq, Text.unended_of_newline ha]
  rfl

/-- After a scan of the lines before a line, a session knows them. -/
theorem knows_scanRange (hg : g.Keeps r) (s : Session σ)
    (ho : (LineTable.ofText text).start? n = some o) :
    (s.scanRange g text 0 o).1.Knows g text n := by
  obtain ⟨hcount, hle, hlast⟩ := LineTable.take_start? ho
  rcases hlast with ⟨rfl, rfl⟩ | hlast
  · exact knows_zero g _ text
  · generalize hu : text.drop o = u
    generalize ha : text.take o = a at hlast hcount
    obtain rfl : a ++ u = text := by rw [← ha, ← hu, List.take_append_drop]
    obtain rfl : a.length = o := by rw [← ha, List.length_take, Nat.min_eq_left hle]
    have hpart := ofPart_lines g hlast u s.store (s.styles.resize (a ++ u).length)
    have hscan : s.scanRange g (a ++ u) 0 a.length =
        ({ store := s.store.recordAll (Pass.fresh g a).ended,
           styles := (s.styles.resize (a ++ u).length).paint (Pass.fresh g a).cursor.runs },
          .ok ((Pass.fresh g a).outcome g 0)) := by
      unfold scanRange fit ResumePoint.stateAt scan
      simp only [hpart]
      rw [if_neg (by simp), if_neg (by simp)]
      rfl
    obtain ⟨hstyles, hwords⟩ := fresh_before hg hlast u []
    rw [List.append_nil] at hstyles hwords
    rw [hscan]
    refine ⟨fun o' ho' i hi => ?_, fun i hi => ?_⟩
    · obtain rfl : a.length = o' := by simpa [ho] using ho'
      rw [hstyles i hi, fresh_eq hg, Cursor.runs, fresh_start hg, Styles.getElem?_paint,
        if_pos, Nat.sub_zero, List.getElem?_toArray]
      rw [fresh_length hg, Styles.size_resize]
      omega
    · have hmem : i ∈ (Pass.fresh g a).ended.map Prod.fst := by
        have := Text.count_le_committed a
        rw [fresh_lines hg, List.mem_reverse, List.mem_range]
        omega
      rw [hwords i (by omega), fresh_eq hg]
      exact LineStore.getElem?_eq (LineStore.lt_size_recordAll hmem)
        (LineStore.lt_size_recordAll hmem) (LineStore.word_recordAll_congr hmem)

/-! ### From a line on -/

/-- A session that has scanned a text again, from a line before which it knew the text, holds it. -/
theorem Again.holds (hg : g.Keeps r) {s : Session σ} {first : Nat} {found : Pass σ ζ}
    {answer : Session σ × Except ScanError (Outcome σ)} (h : Again g r s text first found answer)
    (hs : s.Knows g text n) (hle : first ≤ n) : answer.1.Holds g text := by
  refine ⟨h.styles, fun i hi => ?_⟩
  obtain ⟨before, hsplit, hbefore⟩ := h.ended
  rw [size_store_fresh hg] at hi
  have hcount : i < (LineTable.ofText text).count :=
    Nat.lt_of_lt_of_le hi (Text.committed_le_count text)
  have hfresh : i < (fresh g text).store.size := size_store_fresh hg text ▸ hi
  have hmem : i ∈ (Pass.fresh g text).ended.map Prod.fst := by
    rw [fresh_lines hg, List.mem_reverse, List.mem_range]
    exact hi
  rw [h.store]
  by_cases hfound : i ∈ found.ended.map Prod.fst
  · -- the line was scanned again
    have hstore : (fresh g text).store =
        (LineStore.recordAll #[] before).recordAll found.ended := by
      rw [fresh_eq hg, ← LineStore.recordAll_append, ← hsplit]
      rfl
    refine LineStore.getElem?_eq ?_ hfresh ?_
    · rw [LineStore.size_take]
      exact Nat.lt_min.2 ⟨hcount, LineStore.lt_size_recordAll hfound⟩
    · rw [LineStore.word_take hcount, hstore]
      exact LineStore.word_recordAll_congr hfound
  · -- the line stands before those that were
    have hi' : i < first := by
      rw [hsplit, List.map_append, List.mem_append] at hmem
      exact hbefore i (hmem.resolve_left hfound)
    have hword := hs.words i (by omega)
    have hsize : i < s.store.size := by
      rw [Array.getElem?_eq_getElem hfresh] at hword
      exact (Array.getElem?_eq_some_iff.1 hword).1
    rw [← hword]
    refine LineStore.getElem?_eq ?_ hsize ?_
    · rw [LineStore.size_take]
      exact Nat.lt_min.2 ⟨hcount, Nat.lt_of_lt_of_le hsize (LineStore.size_le_recordAll _ _)⟩
    · rw [LineStore.word_take hcount, LineStore.word_recordAll_of_notMem hfound]

/-- **Scanning again is as good as scanning anew.** -/
theorem restyles_of_keeps (hg : g.Keeps r) {s : Session σ}
    (hn : n < (LineTable.ofText text).count) (hs : s.Knows g text n)
    (hkept : ∀ q, ComesBy g r text q → r.kept q.data) : s.Restyles g text n := by
  obtain ⟨found, h⟩ := restyle_of_keeps hg hn hs hkept
  have hwhole : (highlight g {} text).2 = .ok ((Pass.fresh g text).outcome g 0) := by
    rw [highlight_eq hg]
  exact ⟨h.holds hg hs (ResumePoint.lineFor_le _ _), _, _, h.outcome, hwhole, h.state.symm,
    (hg.depth h.like).symm⟩

end Session

end Highlight
