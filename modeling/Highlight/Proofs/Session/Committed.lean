import Highlight.Proofs.Language.ScalaMoves
import Highlight.Proofs.Language.TomlMoves
import Highlight.Proofs.Language.Toy
import Highlight.Proofs.Language.ZigMoves
import Highlight.Proofs.Line.Store
import Highlight.Proofs.Scan.Part
import Highlight.Session
import Mathlib.Data.List.Nodup

/-!
What a scan touches. It writes down every line that ends in its part, once and in order, and no
other line; and it gives a category to every byte of its part, and to no other
(`Session.TouchesOnlyItsPart`).
-/

namespace Highlight

open Byte

variable {σ ζ : Type} [Palette σ] [DecidableEq σ]
variable {g : Grammar σ ζ} {text : Text} {start len l : Nat}

namespace Session

/-- What a scan of `len` bytes of the text, from the beginning `start` of the line `l` on, finds and
writes down: `writes` are the lines that end there, with what was written down of each. -/
structure CommitsLines (g : Grammar σ ζ) (text : Text) (l start len : Nat) (s : σ)
    (store : LineStore) (styles : Styles σ) (found : Outcome σ)
    (writes : List (Nat × LineState)) : Prop where
  answer : scan g text start len s store styles =
    .ok (found, writes.foldl (fun st e => st.record e.1 e.2.encode) store)
  firstLine : found.firstLine = l
  nextLine : found.nextLine = l + text.linesEnding start len
  lines : writes.map Prod.fst = List.range' l (text.linesEnding start len)
  records : ∀ e ∈ writes, (Pass.outset g text start len s store styles).Records g text e
  written : ∀ e ∈ writes,
    (writes.foldl (fun st e => st.record e.1 e.2.encode) store).word e.1 = e.2.encode
  others : ∀ i, i < l ∨ l + text.linesEnding start len ≤ i →
    (writes.foldl (fun st e => st.record e.1 e.2.encode) store).word i = store.word i
  runs : ∀ r ∈ found.runs, start ≤ r.start ∧ r.stop ≤ start + len

omit [Palette σ] in
/-- If the lines from `l` on were written down, the next line is the one behind the last of them. -/
theorem nextLine_outcome {p : Pass σ ζ} {n : Nat}
    (h : p.ended.reverse.map Prod.fst = List.range' l n) : (p.outcome g l).nextLine = l + n := by
  unfold Pass.outcome
  have hlen := congrArg List.length h
  have hlast := congrArg List.getLast? h
  cases hended : p.ended with
  | nil =>
    simp only [hended, List.reverse_nil, List.map_nil, List.length_nil, List.length_range'] at hlen
    rw [← hlen, Nat.add_zero]
  | cons e rest =>
    simp only [hended, List.reverse_cons, List.map_append, List.map_cons, List.map_nil,
      List.getLast?_concat, List.length_append, List.length_singleton,
      List.length_range'] at hlast hlen
    rw [← hlen, List.range'_concat, List.getLast?_concat, Nat.one_mul] at hlast
    simp only [Option.some.inj hlast, ← hlen, Nat.add_assoc]

theorem exists_commitsLines (hg : g.StaysInLine)
    (hl : (LineTable.ofText text).start? l = some start) (hle : start + len ≤ text.length) (s : σ)
    (store : LineStore) (styles : Styles σ) :
    ∃ found writes, CommitsLines g text l start len s store styles found writes := by
  have hscan := scan_of_start? g hl hle s store styles
  obtain ⟨hcount, -, -⟩ := LineTable.take_start? hl
  obtain ⟨-, -, hlines, hrecords⟩ := Pass.ofPart_completes hg hle s store styles
  rw [hcount] at hlines
  have hruns := (tiles_scan hg hscan).1
  generalize Pass.ofPart g text start len s store styles = p at hscan hlines hrecords hruns
  have hstore : p.ended.reverse.foldl (fun st e => st.record e.1 e.2.encode) store =
      store.recordAll p.ended := List.foldl_reverse
  have hmem : ∀ i, i ∈ p.ended.map Prod.fst ↔ l ≤ i ∧ i < l + text.linesEnding start len := by
    intro i
    rw [← List.mem_reverse, ← List.map_reverse, hlines, List.mem_range'_1]
  have hnodup : (p.ended.map Prod.fst).Nodup := by
    rw [← List.nodup_reverse, ← List.map_reverse, hlines]
    exact List.nodup_range'
  refine ⟨p.outcome g l, p.ended.reverse, {
    answer := hstore ▸ hscan
    firstLine := rfl
    nextLine := nextLine_outcome hlines
    lines := hlines
    records := fun e he => hrecords e (List.mem_reverse.1 he)
    written := fun e he => ?_
    others := fun i hi => ?_
    runs := fun r hr => ?_ }⟩
  · rw [hstore]
    exact LineStore.word_recordAll hnodup (List.mem_reverse.1 he)
  · rw [hstore, LineStore.word_recordAll_of_notMem]
    rw [hmem]
    omega
  · obtain ⟨hstart, -, hstop⟩ := hruns.mem hr
    exact ⟨hstart, hstop⟩

end Session

open Session

end Highlight
