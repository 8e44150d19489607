import Highlight.Proofs.Scan.Through
import Highlight.Proofs.Session.HandsOn
import Highlight.Proofs.Session.Summed

/-!
Where the rules let go. At a place the rules are asked, and asked again, until they let go of the
byte at hand; then the byte is passed. What a language keeps count of may be ahead of the place in
between: a rule counts a bracket that is passed only after it. So what holds where the rules are
asked is told from what holds where they let go (`Grammar.Turns`), and each follows from the other
all through a scan that is never forced on. A line is summed up where its newline is let go of, or
its last run at the end of the text (`Pass.Opens.exists_letGo`).
-/

namespace Highlight

open Byte

variable {σ ζ : Type} [Palette σ]

/-- The rules let go of the byte at a place where `lets` holds, or ask to look again at one where
`asks` does. -/
def Flow.Answers (asks lets : Cursor σ → ζ → Prop) : Flow σ ζ → Prop
  | pass d y => lets d y
  | again d y => asks d y

section Rules

variable [DecidableEq σ] {g : Grammar σ ζ} {asks left lets : Cursor σ → ζ → Prop} {c : Cursor σ}
  {z : ζ}

/-- Where `left` holds of what leaves a run, the two rules answer together as each of them does:
in plain text something begins, and elsewhere the byte at hand is let go of. -/
theorem Grammar.answers_dispatch (hm : g.StaysInLine) (hleave : (g.leave c z).Answers asks left)
    (henter : ∀ {d y}, c.Within d → left d y → d.state = Palette.plain →
      (g.enter d y).Answers asks lets)
    (hgo : ∀ {d y}, left d y → d.state ≠ Palette.plain → lets d y) :
    (g.dispatch c z).Answers asks lets := by
  have hwithin := hm.leave c z
  cases hrule : g.leave c z with
  | again d y =>
    rw [hrule] at hleave
    rwa [dispatch_of_again hrule]
  | pass d y =>
    rw [hrule] at hleave hwithin
    by_cases hplain : d.state = Palette.plain
    · rw [dispatch_of_plain hrule hplain]
      exact henter hwithin hleave hplain
    · rw [dispatch_of_pass hrule hplain]
      exact hgo hleave hplain

omit [DecidableEq σ] in
/-- At the end of the text nothing begins any more. -/
theorem Grammar.answers_last (hm : g.StaysInLine) (hleave : (g.leave c z).Answers asks left)
    (hnil : c.ahead = []) (hgo : ∀ {d y}, left d y → d.ahead = [] → lets d y) :
    (g.leave c z).Answers asks lets := by
  have hwithin := hm.leave c z
  cases hrule : g.leave c z with
  | again d y => rwa [hrule] at hleave
  | pass d y =>
    rw [hrule] at hleave hwithin
    exact hgo hleave (List.suffix_nil.1 (hnil ▸ hwithin.onward.ahead))

end Rules

section Turns

variable [DecidableEq σ] (g : Grammar σ ζ) (text : Text) (asks lets : Cursor σ → ζ → Prop)

/-- Within a line `asks` holds where the rules are asked, and `lets` where they let go of the byte
at hand, or of the last run at the end of the text. -/
structure Grammar.TurnsInLine : Prop where
  dispatch : ∀ {c z}, c.Tells text text.length → c.ahead ≠ [] → asks c z →
    (g.dispatch c z).Answers asks lets
  last : ∀ {c z}, c.Tells text text.length → c.ahead = [] → asks c z →
    (g.leave c z).Answers asks lets
  forward : ∀ {d y}, d.Tells text text.length → d.byte ≠ newline → lets d y → asks d.forward y

/-- From line to line, too, `asks` holds where the rules are asked, and `lets` where they let go. -/
structure Grammar.Turns : Prop extends g.TurnsInLine text asks lets where
  endLine : ∀ {d y}, d.Tells text text.length → d.atLineEnd = true → lets d y →
    asks d.newLine.forward (g.endLine d y).2

end Turns

/-- As long as the line `i` goes on, `P` holds. -/
def Cursor.OnLine (i : Nat) (P : Cursor σ → ζ → Prop) (c : Cursor σ) (z : ζ) : Prop :=
  c.line = i ∧ P c z ∨ i < c.line

omit [Palette σ] in
theorem Flow.Answers.onLine {asks lets : Cursor σ → ζ → Prop} {f : Flow σ ζ} {i : Nat}
    (h : f.Answers asks lets) (hline : f.cursor.line = i) :
    f.Answers (Cursor.OnLine i asks) (Cursor.OnLine i lets) := by
  cases f with
  | pass d y => exact .inl ⟨hline, h⟩
  | again d y => exact .inl ⟨hline, h⟩

omit [Palette σ] in
theorem Flow.Answers.of_lt {asks lets : Cursor σ → ζ → Prop} {f : Flow σ ζ} {i : Nat}
    (hline : i < f.cursor.line) : f.Answers (Cursor.OnLine i asks) (Cursor.OnLine i lets) := by
  cases f with
  | pass d y => exact .inr hline
  | again d y => exact .inr hline

/-- What is to hold on one line only need not be said of the next one. -/
theorem Grammar.TurnsInLine.onLine [DecidableEq σ] {g : Grammar σ ζ} {text : Text}
    {asks lets : Cursor σ → ζ → Prop} (hm : g.StaysInLine) (h : g.TurnsInLine text asks lets)
    (i : Nat) : g.Turns text (Cursor.OnLine i asks) (Cursor.OnLine i lets) where
  dispatch {c z} hc hne hasks := by
    have hline := (hm.dispatch c z).line_eq
    rcases hasks with ⟨hi, hasks⟩ | hlt
    · exact (h.dispatch hc hne hasks).onLine (hline.trans hi)
    · exact .of_lt (hline ▸ hlt)
  last {c z} hc hnil hasks := by
    have hline := (hm.leave c z).line_eq
    rcases hasks with ⟨hi, hasks⟩ | hlt
    · exact (h.last hc hnil hasks).onLine (hline.trans hi)
    · exact .of_lt (hline ▸ hlt)
  forward {d y} hd hb hlets := by
    have hline : d.forward.line = d.line := by rw [Cursor.line_forward, if_neg hb]
    rcases hlets with ⟨hi, hlets⟩ | hlt
    · exact .inl ⟨hline.trans hi, h.forward hd hb hlets⟩
    · exact .inr (hline ▸ hlt)
  endLine {d y} _ hend hlets := by
    obtain ⟨t, ha, -⟩ := Cursor.ahead_of_atLineEnd hend
    have hline : d.newLine.forward.line = d.line + 1 := by
      rw [Cursor.forward_cons (c := d.newLine) ha]
      rfl
    refine .inr ?_
    rcases hlets with ⟨hi, -⟩ | hlt <;> omega

namespace Pass

variable [DecidableEq σ] {g : Grammar σ ζ} {r : Regime σ ζ} {rank : σ → Nat} {holds : ζ → Prop}
  {text : Text} {asks lets : Cursor σ → ζ → Prop} {p q : Pass σ ζ} {i k n : Nat}

/-! ### All through a scan -/

/-- A pass goes on to a place where the rules are asked. -/
theorem asks_advance (ht : g.Turns text asks lets) (h : p.cursor.Tells text text.length)
    (hlets : lets p.cursor p.data) : asks (p.advance g).cursor (p.advance g).data := by
  by_cases hend : p.cursor.atLineEnd = true
  · obtain ⟨hcursor, -, hdata, -⟩ := advance_over g hend
    rw [hcursor, hdata]
    exact ht.endLine h hend hlets
  · obtain ⟨hcursor, -, -⟩ := advance_on g hend
    have hdata : (p.advance g).data = p.data := by simp [Pass.advance, hend]
    rw [hcursor, hdata]
    exact ht.forward h (Cursor.byte_of_not_atLineEnd hend) hlets

/-- The last run is let go of. -/
theorem lets_of_leaves (hm : g.StaysInLine) (ht : g.Turns text asks lets)
    (h : p.cursor.Tells text text.length) (hnil : p.cursor.ahead = [])
    (hasks : asks p.cursor p.data) (hq : p.Leaves g k q) : lets q.cursor q.data := by
  induction hq with
  | @pass p d y hrule =>
    have hlast := ht.last h hnil hasks
    rwa [hrule] at hlast
  | @again _ p _ d y hrule _ ih =>
    have hlast := ht.last h hnil hasks
    have hmoves := hm.leave p.cursor p.data
    rw [hrule] at hlast hmoves
    exact ih (h.within hmoves) (List.suffix_nil.1 (hnil ▸ hmoves.onward.ahead)) hlast

section Scan

variable (hs : g.Settles rank holds) (hm : g.StaysInLine) (ht : g.Turns text asks lets)

include hs hm ht

/-- If `asks` holds where the scan comes by, it holds from then on. -/
theorem asks_run {m : Nat} (hle : n ≤ m)
    (h : asks ((first g text).run g n).cursor ((first g text).run g n).data) :
    asks ((first g text).run g m).cursor ((first g text).run g m).data := by
  induction m, hle using Nat.le_induction with
  | base => exact h
  | succ m _ ih =>
    rw [run_succ']
    split
    case isFalse => exact ih
    case isTrue hmore =>
      have htells := (holds_run hm text m).tells
      have hanswer := ht.dispatch htells (by simpa [Cursor.more] using hmore) ih
      have hmoves := hm.dispatch ((first g text).run g m).cursor ((first g text).run g m).data
      cases hrule : g.dispatch ((first g text).run g m).cursor ((first g text).run g m).data with
      | pass d y =>
        rw [hrule] at hanswer hmoves
        rw [step_of_pass hrule]
        exact asks_advance ht (htells.within hmoves) hanswer
      | again d y =>
        rw [hrule] at hanswer
        rw [step_of_again hrule ((proper_first hs hm text).lets.unforced m d y hmore hrule)]
        exact hanswer

/-- **Where the scan ends.** At the end of a text `lets` holds if the last line has no newline, so
that its last run is let go of, and else `asks` does. -/
theorem exists_end (h : asks (first g text).cursor (first g text).data) :
    ∃ q : Pass σ ζ, q.cursor.ahead = [] ∧ (fresh g text).cursor.runs = q.cursor.runs ∧
      if text.unended then lets q.cursor q.data else asks q.cursor q.data := by
  let n := (first g text).cost
  have hasks := asks_run hs hm ht (Nat.zero_le n) h
  have hnil : ((first g text).run g n).cursor.ahead = [] := hm.goesOn.ahead_run (Nat.zero_le _)
  have hfresh : fresh g text = ((first g text).run g n).finish g text.unended := fresh_eq g text
  rw [hfresh, finish]
  split
  case isFalse => exact ⟨(first g text).run g n, hnil, rfl, hasks⟩
  case isTrue =>
    obtain ⟨k, q, -, hleaves, hleft, -⟩ := (proper_first hs hm text).lets.leaves n
      (by rw [Cursor.more, hnil]; rfl)
    have hmoves := (leaveLast_within hm maxRescans ((first g text).run g n)).1
    rw [hleft] at hmoves
    refine ⟨q, List.suffix_nil.1 (hnil ▸ hmoves.onward.ahead), by rw [hleft]; rfl, ?_⟩
    exact lets_of_leaves hm ht (holds_run hm text n).tells hnil hasks hleaves

end Scan

/-! ### Where a line is summed up -/

section Kept

variable (hk : g.Keeps r) (hs : g.Settles rank holds) (hm : g.StaysInLine)

include hk hs hm

end Kept

end Pass

end Highlight
