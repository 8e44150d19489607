import Highlight.Proofs.Language.Toy
import Highlight.Proofs.Language.Zig
import Highlight.Proofs.Session.Restyled

/-!
Sessions of an editor: a text is scanned, and then scanned again after every edit, from a line
before which the edit has changed nothing. The categories are always those of a new scan
(`Edited.holds`). So are the words, but for one: a newline at the end of the text opens a last line
that is empty, no scan writes a word for it, and if the session has one from an older text, it keeps
it (`Again.store_eq`).
-/

namespace Highlight

open Byte

variable {σ ζ : Type} [Palette σ] [DecidableEq σ]
variable {g : Grammar σ ζ} {r : Regime σ ζ} {text old : Text} {n o : Nat} {s : Session σ}

namespace Session

/-- The session has come to the text by edits. What `fits` says holds of every text but the first
one. -/
inductive Edited (g : Grammar σ ζ) (fits : Text → Prop) : Session σ → Text → Prop where
  | begin (text : Text) : Edited g fits (highlight g {} text).1 text
  | edit {s : Session σ} {old text : Text} {n o : Nat} (h : Edited g fits s old)
      (ho : (LineTable.ofText text).start? n = some o) (hsame : old.take o = text.take o)
      (hfits : fits text) : Edited g fits (s.restyle g text n).1 text

/-- Nothing is kept for the empty line at the end of the text, if there is one. -/
def NothingStale (s : Session σ) (text : Text) : Prop :=
  text.unended = true ∨ s.store.size < (LineTable.ofText text).count

instance (s : Session σ) (text : Text) : Decidable (s.NothingStale text) :=
  inferInstanceAs (Decidable (_ ∨ _))

section Again

variable {first : Nat} {found : Pass σ ζ} {answer : Session σ × Except ScanError (Outcome σ)}

/-- Only lines that have any bytes are scanned. -/
theorem Again.lt_committed (hg : g.Keeps r) (h : Again g r s text first found answer) {i : Nat}
    (hi : i ∈ found.ended.map Prod.fst) : i < text.committed := by
  obtain ⟨before, hsplit, -⟩ := h.ended
  have hmem : i ∈ (Pass.fresh g text).ended.map Prod.fst := by
    rw [hsplit, List.map_append]
    exact List.mem_append_left _ hi
  rwa [Pass.fresh_lines hg, List.mem_reverse, List.mem_range] at hmem

/-- A scan from a line on leaves as many words as the session had, as far as there are lines, and
at least those that a scan of the whole text leaves. -/
theorem Again.size_store (hg : g.Keeps r) (h : Again g r s text first found answer)
    (hs : answer.1.Holds g text) :
    answer.1.store.size = min (LineTable.ofText text).count (max s.store.size text.committed) := by
  have hle : (s.store.recordAll found.ended).size ≤ max s.store.size text.committed := by
    refine LineStore.size_recordAll_le (Nat.le_max_left _ _) fun i hi => ?_
    have := h.lt_committed hg hi
    omega
  have hge := LineStore.size_le_recordAll s.store found.ended
  have hsize : answer.1.store.size =
      min (LineTable.ofText text).count (s.store.recordAll found.ended).size := by
    rw [h.store, LineStore.size_take]
  have hall : text.committed ≤ answer.1.store.size := by
    refine Nat.le_of_not_lt fun hlt => ?_
    have hword := hs.words answer.1.store.size (size_store_fresh hg text ▸ hlt)
    rw [Array.getElem?_eq_none_iff.2 (Nat.le_refl _), eq_comm, Array.getElem?_eq_none_iff,
      size_store_fresh hg] at hword
    omega
  omega

/-- **The one word that stays.** After a scan from a line on, the words are those of a scan of the
whole text, and one more if the session had it for the empty line at the end. -/
theorem Again.store_eq (hg : g.Keeps r) (h : Again g r s text first found answer)
    (hs : answer.1.Holds g text) :
    (s.NothingStale text → answer.1.store = (fresh g text).store) ∧
    (¬s.NothingStale text → answer.1.store =
      (fresh g text).store.push (s.store.word text.committed)) := by
  have hsize := h.size_store hg hs
  have hfresh := size_store_fresh hg text
  have hcommitted := Text.committed_le_count text
  constructor
  · intro hstale
    refine Array.ext_getElem? fun i => ?_
    by_cases hi : i < text.committed
    · exact hs.words i (by omega)
    · have hlast : answer.1.store.size = text.committed := by
        rcases hstale with hend | hlt
        · have hcount : (LineTable.ofText text).count = text.committed := by
            rw [LineTable.count_ofText, Text.committed, hend]
            rfl
          omega
        · have := Text.count_le_committed_succ text
          omega
      rw [Array.getElem?_eq_none_iff.2 (by omega), Array.getElem?_eq_none_iff.2 (by omega)]
  · intro hstale
    obtain ⟨hend, hle⟩ := not_or.1 hstale
    have hcount := Text.count_eq_committed_succ (Bool.not_eq_true _ ▸ hend)
    have hlast : answer.1.store.size = text.committed + 1 := by omega
    have hword : answer.1.store.word text.committed = s.store.word text.committed := by
      rw [h.store, LineStore.word_take (by omega), LineStore.word_recordAll_of_notMem]
      intro hmem
      exact absurd (h.lt_committed hg hmem) (Nat.lt_irrefl _)
    refine Array.ext_getElem? fun i => ?_
    rw [Array.getElem?_push, hfresh]
    split
    case isTrue hi =>
      subst hi
      rw [← hword, LineStore.word, Array.getD_eq_getD_getElem?,
        Array.getElem?_eq_getElem (by omega)]
      rfl
    case isFalse hi =>
      by_cases hi' : i < text.committed
      · exact hs.words i (by omega)
      · rw [Array.getElem?_eq_none_iff.2 (by omega), Array.getElem?_eq_none_iff.2 (by omega)]

end Again

/-! ### Along the edits -/

variable {fits : Text → Prop}

/-- Every edit leaves the session up to date. -/
theorem Edited.holds (hg : g.Keeps r)
    (hkept : ∀ {text}, fits text → ∀ q, Pass.ComesBy g r text q → r.kept q.data)
    (h : Edited g fits s old) : s.Holds g old := by
  induction h with
  | begin text => exact holds_highlight hg {} text
  | @edit s old text n o _ ho hsame hfits ih =>
    have hn : n < (LineTable.ofText text).count := (Array.getElem?_eq_some_iff.1 ho).1
    exact (restyles_of_keeps hg hn (ih.knows hg ho hsame) (hkept hfits)).holds

/-- After any edits, one more edit leaves the words of a new scan just if nothing is kept for the
empty line at the end of the text. Otherwise that is the only word that is kept beside them. -/
def EditsExactly (g : Grammar σ ζ) (fits : Text → Prop) : Prop :=
  ∀ {s : Session σ} {old text : Text} {n o : Nat}, Edited g fits s old →
    (LineTable.ofText text).start? n = some o → old.take o = text.take o → fits text →
    let s' := (s.restyle g text n).1
    s'.styles = (fresh g text).styles ∧
    (s'.store = (fresh g text).store ↔ s.NothingStale text) ∧
    (s.NothingStale text → s'.foldLevels g text = (fresh g text).foldLevels g text) ∧
    (¬s.NothingStale text →
      s'.store = (fresh g text).store.push (s.store.word text.committed))

theorem editsExactly_of_keeps (hg : g.Keeps r)
    (hkept : ∀ {text}, fits text → ∀ q, Pass.ComesBy g r text q → r.kept q.data) :
    EditsExactly g fits := by
  intro s old text n o hs ho hsame hfits
  have hn : n < (LineTable.ofText text).count := (Array.getElem?_eq_some_iff.1 ho).1
  have hknows := (hs.holds hg hkept).knows hg ho hsame
  obtain ⟨found, hagain⟩ := restyle_of_keeps hg hn hknows (hkept hfits)
  obtain ⟨hexact, hstale⟩ :=
    hagain.store_eq hg (hagain.holds hg hknows (ResumePoint.lineFor_le _ _))
  refine ⟨hagain.styles, ⟨fun heq => ?_, hexact⟩, fun h => ?_, hstale⟩
  · refine Classical.byContradiction fun h => ?_
    have := congrArg Array.size ((hstale h).symm.trans heq)
    simp at this
  · rw [foldLevels, foldLevels, hagain.styles, hexact h]

end Session

open Session

/-- **What edits leave of the lines**, in every language. -/
theorem edits_exactly (zig : Zig.Config) (words : WordSets) (scala : Scala.Config) :
    EditsExactly Toy.grammar (fun _ => True) ∧
    EditsExactly (Zig.grammar zig) (fun _ => True) ∧
    EditsExactly (Toml.grammar words) (fun _ => True) ∧
    EditsExactly (Scala.grammar scala) (Scala.CommentsFit scala) :=
  ⟨editsExactly_of_keeps Toy.keeps fun _ _ _ => trivial,
    editsExactly_of_keeps (Zig.keeps zig) fun _ _ _ => trivial,
    editsExactly_of_keeps (Toml.keeps words) fun _ _ _ => trivial,
    editsExactly_of_keeps (Scala.keeps scala) fun hfit _ hq => hfit.kept hq⟩

/-- A comment that is taken from the end of a text leaves its word behind, and then the two comment
lines seem to fold. A newline behind it leaves nothing. -/
theorem edits_exactly_comment :
    let g := Zig.grammar { words := {} }
    let old : Text := [plus, newline, slash, slash, newline, slash, slash]
    let text : Text := [plus, newline, slash, slash, newline]
    let longer : Text := old ++ [newline]
    let s := (highlight g {} old).1
    (LineTable.ofText text).start? 1 = some 2 ∧ (LineTable.ofText longer).start? 1 = some 2 ∧
      Edited g (fun _ => True) s old ∧ ¬s.NothingStale text ∧ s.NothingStale longer ∧
      (s.restyle g text 1).1.store ≠ (fresh g text).store ∧
      (s.restyle g text 1).1.foldLevels g text ≠ (fresh g text).foldLevels g text ∧
      (s.restyle g longer 1).1.store = (fresh g longer).store := by
  intro g old text longer s
  have ho : (LineTable.ofText text).start? 1 = some 2 := by decide
  have ho' : (LineTable.ofText longer).start? 1 = some 2 := by decide
  have hs : Edited g (fun _ => True) s old := .begin old
  have hstale : ¬s.NothingStale text := by decide +kernel
  have hclear : s.NothingStale longer := by decide +kernel
  have hlevels : (s.restyle g text 1).1.foldLevels g text ≠ (fresh g text).foldLevels g text := by
    decide +kernel
  obtain ⟨-, hzig, -⟩ := edits_exactly { words := {} } {} { words := {} }
  obtain ⟨-, hiff, -⟩ := hzig hs ho (by decide) trivial
  obtain ⟨-, hiff', -⟩ := hzig hs ho' (by decide) trivial
  exact ⟨ho, ho', hs, hstale, hclear, fun h => hstale (hiff.1 h), hlevels, hiff'.2 hclear⟩

end Highlight
