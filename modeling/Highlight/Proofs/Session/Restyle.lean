import Highlight.Proofs.Line.Table
import Highlight.Proofs.Session.Resumed
import Highlight.Session

/-!
Scanning a text again from a line on. If the session has, of the text before that line, what a scan
of the whole text leaves there, it has what that scan leaves of all the text afterwards
(`Session.restyle_of_keeps`). What a scan leaves of the text before a line depends only on that text
(`Session.Knows.of_fresh`), and so an edit on a line or behind it leaves the session prepared.
-/

namespace Highlight

open Byte

variable {σ ζ : Type} [Palette σ] [DecidableEq σ]
variable {g : Grammar σ ζ} {r : Regime σ ζ} {text a u : Text} {n : Nat}

namespace Pass

/-- A scan from the beginning of the text needs nothing that was kept. -/
theorem ofPart_fresh (g : Grammar σ ζ) (text : Text) (store : LineStore) (styles : Styles σ) :
    ofPart g text 0 text.length Palette.plain store styles = fresh g text := by
  unfold fresh ofPart
  rw [Cursor.ofPart_zero, Cursor.ofPart_zero]
  rfl

end Pass

open Pass

theorem scan_eq (g : Grammar σ ζ) (ha : a = [] ∨ a.getLast? = some newline) (u : Text) (s : σ)
    (store : LineStore) (styles : Styles σ) :
    let p := ofPart g (a ++ u) a.length u.length s store styles
    scan g (a ++ u) a.length u.length s store styles =
      .ok (p.outcome g (a.count newline), store.recordAll p.ended) := by
  have hstart : a.getLast?.getD newline = newline := by rcases ha with rfl | ha <;> simp [*]
  unfold scan
  rw [if_neg (by simp), List.take_left' rfl, if_neg (by simp [hstart])]

/-! ### Where a scan starts again -/

theorem ResumePoint.lineFor_le (store : LineStore) (line : Nat) : lineFor store line ≤ line := by
  induction line with
  | zero => exact Nat.le_refl _
  | succ line ih =>
    unfold lineFor
    split
    · omega
    · exact Nat.le_refl _

/-- The line before the one where a scan starts again is not nested. -/
theorem ResumePoint.not_nested_of_lineFor {store : LineStore} {line i : Nat}
    (h : lineFor store line = i + 1) : (store.state i).flags.nested = false := by
  induction line with
  | zero => simp [lineFor] at h
  | succ line ih =>
    unfold lineFor at h
    split at h
    · exact ih h
    · rename_i hn
      obtain rfl : line = i := by omega
      simpa using hn

namespace Session

/-! ### A whole text -/

/-- What is kept of a text after a scan of all of it. -/
def fresh (g : Grammar σ ζ) (text : Text) : Session σ := (highlight g {} text).1

/-- A scan of the whole text leaves the same in every session. -/
theorem highlight_eq (hg : g.Keeps r) (s : Session σ) (text : Text) :
    s.highlight g text =
      ({ store := freshStore g text, styles := (Pass.fresh g text).cursor.passed.toArray },
        .ok ((Pass.fresh g text).outcome g 0)) := by
  have hscan := scan_eq g (.inl rfl : ([] : Text) = [] ∨ _) text Palette.plain #[]
    (s.styles.resize text.length)
  simp only [List.nil_append, List.length_nil, ofPart_fresh] at hscan
  have hpaint : (s.styles.resize text.length).paint (Pass.fresh g text).cursor.runs =
      (Pass.fresh g text).cursor.passed.toArray := by
    rw [Cursor.runs, fresh_start hg, Styles.paint_encode]
    · simp
    · rw [fresh_length hg, Styles.size_resize, Nat.zero_add]
  unfold highlight scanRange fit ResumePoint.stateAt
  simp only [hscan, accept]
  rw [← hpaint]
  rfl

theorem fresh_eq (hg : g.Keeps r) (text : Text) :
    fresh g text =
      { store := freshStore g text, styles := (Pass.fresh g text).cursor.passed.toArray } := by
  rw [fresh, highlight_eq hg]

theorem fst_highlight (hg : g.Keeps r) (s : Session σ) (text : Text) :
    (s.highlight g text).1 = fresh g text := by
  rw [highlight_eq hg, fresh_eq hg]

/-- The session has, of the text before the line, what a scan of the whole text leaves there. -/
structure Knows (g : Grammar σ ζ) (s : Session σ) (text : Text) (line : Nat) : Prop where
  styles : ∀ o, (LineTable.ofText text).start? line = some o → ∀ i < o,
    s.styles[i]? = (fresh g text).styles[i]?
  words : ∀ i < line, s.store[i]? = (fresh g text).store[i]?

/-! ### From a line on -/

/-- What a session has after scanning a text again, and what it was told: `found` is the pass that
scanned the text from the line `first` on. -/
structure Again (g : Grammar σ ζ) (r : Regime σ ζ) (s : Session σ) (text : Text) (first : Nat)
    (found : Pass σ ζ) (answer : Session σ × Except ScanError (Outcome σ)) : Prop where
  outcome : answer.2 = .ok (found.outcome g first)
  styles : answer.1.styles = (fresh g text).styles
  store : answer.1.store = (s.store.recordAll found.ended).take (LineTable.ofText text).count
  state : (Pass.fresh g text).cursor.state = found.cursor.state
  like : r.like (Pass.fresh g text).cursor.state (Pass.fresh g text).data found.data
  ended : ∃ before, (Pass.fresh g text).ended = found.ended ++ before ∧
    ∀ i ∈ before.map Prod.fst, i < first

/-- What a session has and answers when it scans a text again from a line on. -/
theorem restyle_eq (g : Grammar σ ζ) (s : Session σ) (ha : a = [] ∨ a.getLast? = some newline)
    (hn : n < (LineTable.ofText (a ++ u)).count)
    (hline : ResumePoint.lineFor s.store n = a.count newline) :
    let styles := s.styles.resize (a ++ u).length
    let p := ofPart g (a ++ u) a.length u.length (ResumePoint.stateAt styles a.length) s.store
      styles
    s.restyle g (a ++ u) n =
      ({ store := (s.store.recordAll p.ended).take (LineTable.ofText (a ++ u)).count,
         styles := styles.paint p.cursor.runs }, .ok (p.outcome g (a.count newline))) := by
  have hoffset : (LineTable.ofText (a ++ u)).start? (a.count newline) = some a.length := by
    rcases ha with rfl | ha
    · exact LineTable.start?_zero _
    · exact LineTable.start?_of_split ha
  have hscan := scan_eq g ha u (ResumePoint.stateAt (s.styles.resize (a ++ u).length) a.length)
    s.store (s.styles.resize (a ++ u).length)
  have hmin : min n ((LineTable.ofText (a ++ u)).count - 1) = n := by omega
  have hrest : (a ++ u).length - a.length = u.length := by
    rw [List.length_append]
    omega
  simp only [restyle, fit, ResumePoint.find, hmin, hline, hoffset, Option.getD_some, hrest, hscan,
    Except.map, accept]
  rfl

/-- Where a session starts again, the text is split between two lines. -/
theorem exists_split (store : LineStore) (hn : n < (LineTable.ofText text).count) :
    ∃ a u, text = a ++ u ∧ (a = [] ∨ a.getLast? = some newline) ∧
      ResumePoint.lineFor store n = a.count newline := by
  have hle := ResumePoint.lineFor_le store n
  obtain ⟨o, ho⟩ := LineTable.isSome_start? (Nat.lt_of_le_of_lt hle hn)
  obtain ⟨hcount, -, hlast⟩ := LineTable.take_start? ho
  refine ⟨text.take o, text.drop o, (List.take_append_drop o text).symm, ?_, hcount.symm⟩
  exact hlast.imp_left fun h => by rw [h.2, List.take_zero]

/-- A scan from the beginning of a line on leaves what it found and, before the line, what was
there. -/
theorem restyle_split (hg : g.Keeps r) {s : Session σ} {p : Pass σ ζ} {l : List σ}
    (ha : a = [] ∨ a.getLast? = some newline) (hn : n < (LineTable.ofText (a ++ u)).count)
    (hline : ResumePoint.lineFor s.store n = a.count newline)
    (hp : ofPart g (a ++ u) a.length u.length
      (ResumePoint.stateAt (s.styles.resize (a ++ u).length) a.length) s.store
      (s.styles.resize (a ++ u).length) = p)
    (hstart : p.cursor.start = a.length) (hl : l.length = a.length)
    (hpassed : (Pass.fresh g (a ++ u)).cursor.passed = l ++ p.cursor.passed)
    (hbefore : ∀ i < a.length,
      (s.styles.resize (a ++ u).length).categoryAt i = l.getD i Palette.plain) :
    s.restyle g (a ++ u) n =
      ({ store := (s.store.recordAll p.ended).take (LineTable.ofText (a ++ u)).count,
         styles := (fresh g (a ++ u)).styles }, .ok (p.outcome g (a.count newline))) := by
  have hlen := congrArg List.length hpassed
  rw [fresh_length hg, List.length_append, List.length_append] at hlen
  have hpaint : (s.styles.resize (a ++ u).length).paint p.cursor.runs =
      (fresh g (a ++ u)).styles := by
    rw [Cursor.runs, hstart, Styles.paint_encode, ← hl, Styles.take_eq, fresh_eq hg, hpassed]
    · simp
    · rw [Styles.size_resize, List.length_append]
      omega
    · exact hl ▸ hbefore
    · rw [Styles.size_resize, List.length_append]
      omega
  rw [restyle_eq g s ha hn hline]
  simp only [hp, hpaint]

theorem Knows.categoryAt (hg : g.Keeps r) {s : Session σ} {i o : Nat} (hs : s.Knows g text n)
    (hn : n < (LineTable.ofText text).count) (ho : (LineTable.ofText text).start? i = some o)
    (hle : i ≤ n) : ∀ j < o, (s.styles.resize text.length).categoryAt j =
      (Pass.fresh g text).cursor.passed.getD j Palette.plain := by
  intro j hj
  obtain ⟨o', ho'⟩ := LineTable.isSome_start? hn
  have hoo := LineTable.start?_le ho ho' hle
  have hsize := (LineTable.take_start? ho').2.1
  rw [Styles.categoryAt_resize _ (by omega), ← Styles.categoryAt_toArray, Styles.categoryAt,
    Styles.categoryAt, Array.getD_eq_getD_getElem?, Array.getD_eq_getD_getElem?,
    hs.styles o' ho' j (by omega), fresh_eq hg]

theorem Knows.word (hg : g.Keeps r) {s : Session σ} {i : Nat} (hs : s.Knows g text n)
    (hi : i < n) : s.store.word i = (freshStore g text).word i := by
  rw [LineStore.word, LineStore.word, Array.getD_eq_getD_getElem?, Array.getD_eq_getD_getElem?,
    hs.words i hi, fresh_eq hg]

/-- From its beginning a text is scanned as by a new session. -/
theorem again_from_beginning (hg : g.Keeps r) {s : Session σ}
    (hn : n < (LineTable.ofText text).count) (hline : ResumePoint.lineFor s.store n = 0) :
    Again g r s text 0 (Pass.fresh g text) (s.restyle g text n) := by
  have hp : ofPart g ([] ++ text) ([] : Text).length text.length (ResumePoint.stateAt
      (s.styles.resize ([] ++ text).length) ([] : Text).length) s.store
      (s.styles.resize ([] ++ text).length) = Pass.fresh g text := ofPart_fresh ..
  have hpassed : (Pass.fresh g ([] ++ text)).cursor.passed =
      [] ++ (Pass.fresh g text).cursor.passed := rfl
  have h := restyle_split hg (.inl rfl) hn hline hp (fresh_start hg text) rfl hpassed
    (fun i hi => absurd hi (Nat.not_lt_zero i))
  rw [List.nil_append] at h
  rw [h]
  exact ⟨rfl, rfl, rfl, rfl, hg.like_refl _ _, [], by simp, by simp⟩

/-- Behind a line a scan goes on as the scan of the whole text does there. -/
theorem again_behind (hg : g.Keeps r) {s : Session σ} (ha : a.getLast? = some newline)
    (hn : n < (LineTable.ofText (a ++ u)).count) (hs : s.Knows g (a ++ u) n)
    (hline : ResumePoint.lineFor s.store n = a.count newline)
    (hkept : ∀ q, ComesBy g r (a ++ u) q → r.kept q.data) :
    ∃ found, Again g r s (a ++ u) (a.count newline) found (s.restyle g (a ++ u) n) := by
  have hle : a.count newline ≤ n := hline ▸ ResumePoint.lineFor_le s.store n
  have hpos : 0 < a.count newline := List.count_pos_iff.2 (List.mem_of_getLast? ha)
  have hknown := hs.categoryAt hg hn (LineTable.start?_of_split ha) hle
  have hword := hs.word hg (i := a.count newline - 1) (by omega)
  have hnested : (s.store.state (a.count newline - 1)).flags.nested = false :=
    ResumePoint.not_nested_of_lineFor (hline.trans (Nat.sub_add_cancel hpos).symm)
  obtain ⟨q, -, hq, -, -, hqu, -⟩ := comesBy hg ha u u
  obtain ⟨hstart, hstate, hlike, hpassed, hended⟩ :=
    hq.resumed hg ha hqu hknown hword hnested (hkept q hq)
  subst hqu
  have hl : q.cursor.passed.length = a.length := by
    rw [Cursor.passed_eq, List.length_reverse, hq.length_spent]
  have h := restyle_split hg (.inr ha) hn hline rfl hstart hl hpassed
    (fun i hi => by rw [hknown i hi, hpassed, List.getD_append _ _ _ _ (hl ▸ hi)])
  rw [h]
  refine ⟨_, rfl, rfl, rfl, hstate, hlike, q.ended, hended, fun i hi => ?_⟩
  rw [hq.sound.lines, List.mem_reverse, List.mem_range, hq.line] at hi
  exact hi

/-- **Scanning again is exact.** A session that has, of the text before a line, what a scan of the
whole text leaves there, has what that scan leaves of all of it when the text has been scanned
again from that line on. -/
theorem restyle_of_keeps (hg : g.Keeps r) {s : Session σ}
    (hn : n < (LineTable.ofText text).count) (hs : s.Knows g text n)
    (hkept : ∀ q, ComesBy g r text q → r.kept q.data) :
    ∃ found, Again g r s text (ResumePoint.lineFor s.store n) found (s.restyle g text n) := by
  obtain ⟨a, u, rfl, ha, hline⟩ := exists_split s.store hn
  rw [hline]
  rcases ha with rfl | ha
  · exact ⟨_, again_from_beginning hg hn hline⟩
  · exact again_behind hg ha hn hs hline hkept

end Session

end Highlight
