import Highlight.Proofs.Scan.Orderly

/-!
The line in progress. A cursor knows how many visible bytes of its line it has passed, whatever the
rules did on the way (`Cursor.Tells`). What the rules of a grammar keep from place to place
(`Grammar.Maintains`) holds wherever a line is summed up, and the bytes of the line have by then the
categories that they are left with (`Pass.exists_summed`).
-/

namespace Highlight

open Byte

/-- The bytes before an offset that are on the same line, the last one first. -/
def Text.lineBehind (text : Text) (o : Nat) : Text :=
  (text.take o).reverse.takeWhile fun b => b ≠ newline

variable {σ ζ : Type} [Palette σ]

theorem Trail.visible_pass (t : Trail σ) (b : Byte) (s : σ) :
    (t.pass b s).visible = if isSpace b then t.visible else t.visible + 1 := by
  unfold Trail.pass
  split_ifs <;> rfl

namespace Cursor

/-- The bytes of the line so far, the last one first, each with its category. -/
def lineSoFar (text : Text) (c : Cursor σ) : List (Byte × σ) :=
  ((text.take c.pos).reverse.zip c.spent).takeWhile fun p => p.1 ≠ newline

/-- The cursor knows its place in the text, and of its line how many visible bytes are passed. -/
structure Tells (text : Text) (stop : Nat) (c : Cursor σ) : Prop extends c.Stands text stop where
  visible : c.visible = (text.lineBehind c.pos).countP fun b => !isSpace b

variable {text : Text} {stop : Nat} {c d : Cursor σ}

omit [Palette σ] in
theorem lineBehind_of_mem {p : Byte × σ} (h : p ∈ c.lineSoFar text) :
    p.1 ∈ text.lineBehind c.pos := by
  unfold lineSoFar at h
  unfold Text.lineBehind
  generalize (text.take c.pos).reverse = l at h
  generalize c.spent = k at h
  induction l generalizing k with
  | nil => simp at h
  | cons b l ih =>
    cases k with
    | nil => simp at h
    | cons s k =>
      by_cases hb : b = newline
      · simp [hb] at h
      · rw [List.zip_cons_cons, List.takeWhile_cons_of_pos (by simpa using hb)] at h
        rw [List.takeWhile_cons_of_pos (by simpa using hb)]
        rcases List.mem_cons.1 h with rfl | h
        · exact List.mem_cons_self
        · exact List.mem_cons_of_mem _ (ih k h)

omit [Palette σ] in
/-- A scan of a whole text has given a category to each byte before its place. -/
theorem Stands.length_take (h : c.Stands text text.length) (hstart : c.start = 0) :
    (text.take c.pos).length = c.passed.length := by
  rw [List.length_take, Nat.min_eq_left h.le, ← h.length_passed, hstart, Nat.zero_add]

/-! ### Going on -/

/-- A byte that ends no line joins the line. -/
theorem lineSoFar_forward {b : Byte} {t : Text} (h : c.Stands text stop) (ha : c.ahead = b :: t)
    (hb : b ≠ newline) : c.forward.lineSoFar text = (b, c.state) :: c.lineSoFar text := by
  have htake := (h.ahead_cons ha).2.2.1
  rw [lineSoFar, pos_forward_cons ha, htake, List.reverse_append, spent_forward ha]
  exact List.takeWhile_cons_of_pos (by simpa using hb)

omit [Palette σ] in
theorem lineBehind_succ {b : Byte} {t : Text} (h : c.Stands text stop) (ha : c.ahead = b :: t) :
    text.lineBehind (c.pos + 1) = if b = newline then [] else b :: text.lineBehind c.pos := by
  unfold Text.lineBehind
  rw [(h.ahead_cons ha).2.2.1, List.reverse_append]
  by_cases hb : b = newline <;> simp [hb]

namespace Tells

theorem forward (h : c.Tells text stop) (hb : c.byte ≠ newline) : c.forward.Tells text stop := by
  refine ⟨h.toStands.forward, ?_⟩
  cases ha : c.ahead with
  | nil => rw [forward_nil ha]; exact h.visible
  | cons b t =>
    have hvisible : c.trail.visible = _ := h.visible
    rw [byte_cons ha] at hb
    rw [Cursor.visible, forward_cons ha, Trail.visible_pass, lineBehind_succ h.toStands ha,
      if_neg hb, List.countP_cons, hvisible]
    cases isSpace b <;> simp

/-- Moves within the line keep count. -/
theorem within (h : c.Tells text stop) (hm : c.Within d) : d.Tells text stop := by
  induction hm with
  | refl => exact h
  | forward _ hb ih => exact ih.forward hb
  | switch _ s ih => exact ⟨ih.toStands.switch s, ih.visible⟩
  | recolor _ s ih => exact ⟨ih.toStands.recolor s, ih.visible⟩
  | remember _ s ih => exact ⟨ih.toStands.look _, ih.visible⟩

/-- Behind the end of a line the count begins again. -/
theorem overEnd (h : c.Tells text stop) (hend : c.atLineEnd = true) :
    c.newLine.forward.Tells text stop := by
  obtain ⟨t, ha, -⟩ := ahead_of_atLineEnd hend
  have hstands : c.newLine.Stands text stop := h.toStands.look _
  refine ⟨hstands.forward, ?_⟩
  rw [Cursor.visible, forward_cons (c := c.newLine) ha, Trail.visible_pass,
    lineBehind_succ hstands ha, if_pos rfl]
  rfl

omit [Palette σ] in
/-- If nothing visible was passed on the line, all its bytes are white space. -/
theorem isSpace_of_visible (h : c.Tells text stop) (hv : c.visible = 0) {p : Byte × σ}
    (hp : p ∈ c.lineSoFar text) : isSpace p.1 = true := by
  have hnone := List.countP_eq_zero.1 (h.visible ▸ hv) p.1 (lineBehind_of_mem hp)
  simpa using hnone

end Tells

end Cursor

/-! ### What holds at every place -/

/-- What `inv` says of a place and of the data there, the rules keep. -/
structure Grammar.Maintains (g : Grammar σ ζ) (text : Text) (stop : Nat)
    (inv : Cursor σ → ζ → Prop) : Prop where
  leave : ∀ {c z}, c.Tells text stop → inv c z → inv (g.leave c z).cursor (g.leave c z).data
  enter : ∀ {c z}, c.Tells text stop → c.state = Palette.plain → inv c z →
    inv (g.enter c z).cursor (g.enter c z).data
  forward : ∀ {c z b t}, c.Tells text stop → c.ahead = b :: t → b ≠ newline → inv c z →
    inv c.forward z
  endLine : ∀ {c z}, c.Tells text stop → c.atLineEnd = true → inv c z →
    inv c.newLine.forward (g.endLine c z).2

namespace Pass

variable {g : Grammar σ ζ} {text : Text} {start stop first : Nat} {inv : Cursor σ → ζ → Prop}
  {p : Pass σ ζ}

/-- The pass goes over its part in order, tells what it has passed, and `inv` holds of it. -/
structure Holds (text : Text) (start stop first : Nat) (inv : Cursor σ → ζ → Prop)
    (p : Pass σ ζ) : Prop where
  orderly : p.Orderly text start stop first
  tells : p.cursor.Tells text stop
  holds : inv p.cursor p.data

namespace Holds

theorem advance (hi : g.Maintains text stop inv) (h : p.Holds text start stop first inv) :
    (p.advance g).Holds text start stop first inv := by
  by_cases hend : p.cursor.atLineEnd = true
  · obtain ⟨hcursor, -, hdata, -⟩ := advance_over g hend
    refine ⟨h.orderly.advance, hcursor ▸ h.tells.overEnd hend, ?_⟩
    rw [hcursor, hdata]
    exact hi.endLine h.tells hend h.holds
  · obtain ⟨hcursor, -, -⟩ := advance_on g hend
    have hb := Cursor.byte_of_not_atLineEnd hend
    have hdata : (p.advance g).data = p.data := by simp [Pass.advance, hend]
    refine ⟨h.orderly.advance, hcursor ▸ h.tells.forward hb, ?_⟩
    rw [hcursor, hdata]
    cases ha : p.cursor.ahead with
    | nil =>
      rw [Cursor.forward_nil ha]
      exact h.holds
    | cons b t => exact hi.forward h.tells ha (Cursor.byte_cons ha ▸ hb) h.holds

theorem leaveLast (hg : g.StaysInLine) (hi : g.Maintains text stop inv)
    (h : p.Holds text start stop first inv) (n : Nat) :
    (p.leaveLast g n).Holds text start stop first inv := by
  refine leaveLast_invariant (Holds text start stop first inv) (fun p h => ?_) h n
  have hmoves := hg.leave p.cursor p.data
  exact ⟨h.orderly.within hmoves _ h.orderly.few, h.tells.within hmoves, hi.leave h.tells h.holds⟩

variable [DecidableEq σ]

theorem asked (hg : g.StaysInLine) (hi : g.Maintains text stop inv)
    (h : p.Holds text start stop first inv) {n : Nat} (hn : n ≤ maxRescans) :
    Holds text start stop first inv { p.asked g with rescans := n } := by
  have hmoves := hg.dispatch p.cursor p.data
  refine ⟨h.orderly.within hmoves _ hn, h.tells.within hmoves, ?_⟩
  have hleave := hi.leave h.tells h.holds
  change inv (g.dispatch p.cursor p.data).cursor (g.dispatch p.cursor p.data).data
  rcases dispatch_cases g p.cursor p.data with hrule | ⟨hplain, hrule⟩ <;> rw [hrule]
  · exact hleave
  · exact hi.enter (h.tells.within (hg.leave _ _)) hplain hleave

theorem step (hg : g.StaysInLine) (hi : g.Maintains text stop inv)
    (h : p.Holds text start stop first inv) : (p.step g).Holds text start stop first inv := by
  rcases step_cases g p with hstep | ⟨n, hn, -, hstep⟩ <;> rw [hstep]
  · exact (h.asked hg hi h.orderly.few).advance hi
  · exact h.asked hg hi hn

theorem run (hg : g.StaysInLine) (hi : g.Maintains text stop inv)
    (h : p.Holds text start stop first inv) (n : Nat) :
    (p.run g n).Holds text start stop first inv :=
  run_invariant (Holds text start stop first inv) (fun _ h _ => h.step hg hi) h n

end Holds

/-! ### Where a line is summed up -/

section Ends

variable [DecidableEq σ] {o q : Pass σ ζ}

/-- What the rules keep from place to place holds where the pass goes over the end of a line. -/
theorem GoesOver.holds (hg : g.StaysInLine) (hi : g.Maintains text stop inv)
    (h : o.Holds text start stop first inv) (hq : o.GoesOver g q) :
    q.Holds text start stop first inv := by
  obtain ⟨n, -, rfl, -, -⟩ := hq
  have hrun := h.run hg hi n
  exact hrun.asked hg hi hrun.orderly.few

/-- It holds where the pass arrives at its end. -/
theorem Arrives.holds (hg : g.StaysInLine) (hi : g.Maintains text stop inv)
    (h : o.Holds text start stop first inv) (hq : o.Arrives g q) :
    q.Holds text start stop first inv := by
  obtain ⟨n, -, rfl⟩ := hq
  exact (h.run hg hi n).leaveLast hg hi maxRescans

end Ends

theorem outset_zero (g : Grammar σ ζ) (text : Text) :
    outset g text 0 text.length Palette.plain #[] #[] = Pass.first g text := by
  rw [outset, Cursor.ofPart_zero]
  rfl

theorem holds_first (hg : g.StaysInLine)
    (hfirst : inv (Pass.first g text).cursor (Pass.first g text).data) :
    (Pass.first g text).Holds text 0 text.length 0 inv := by
  have horderly := orderly_outset hg (Nat.le_of_eq (Nat.zero_add text.length)) Palette.plain #[] #[]
  rw [outset_zero, Nat.zero_add] at horderly
  have hout : (Cursor.outset text : Cursor σ).Tells text text.length :=
    ⟨⟨rfl, Nat.zero_le _, by simp [Cursor.outset], rfl, rfl⟩, rfl⟩
  exact ⟨horderly, hout.within (hg.begin _ _), hfirst⟩

variable [DecidableEq σ] {r : Regime σ ζ}

/-- A run that is not at its end has gone on by as many steps as were made. -/
theorem cost_run_le (hg : g.GoesOn) (hfew : p.rescans ≤ maxRescans) {n : Nat}
    (hmore : (p.run g n).cursor.more = true) : n + (p.run g n).cost ≤ p.cost := by
  induction n generalizing p with
  | zero => exact Nat.le_of_eq (Nat.zero_add _)
  | succ n ih =>
    have hp : p.cursor.more = true := by
      cases hp : p.cursor.more with
      | true => rfl
      | false => rwa [run_of_not_more g _ p hp, hp] at hmore
    obtain ⟨hlt, hfew'⟩ := cost_step_lt (g := g) (hg.dispatch _ _).notBefore hp hfew
    rw [run_succ g n p hp] at hmore ⊢
    have := ih hfew' hmore
    omega

/-- A line of the text is summed up at `q`: the rules were asked where the newline of the line is,
or the last run was left at the end of the text. -/
inductive SumsUp (g : Grammar σ ζ) (text : Text) (q : Pass σ ζ) : Prop where
  | atNewline (n : Nat) (hmore : ((Pass.first g text).run g n).cursor.more = true)
      (hq : q = ((Pass.first g text).run g n).asked g) (hend : q.cursor.atLineEnd = true)
      (hstep : ((Pass.first g text).run g n).step g = q.advance g)
  | atEnd (n : Nat) (hmore : ((Pass.first g text).run g n).cursor.more = false)
      (hq : q = ((Pass.first g text).run g n).leaveLast g maxRescans) (hend : q.cursor.ahead = [])

omit [DecidableEq σ] in
theorem maintains_true (g : Grammar σ ζ) (text : Text) :
    g.Maintains text text.length fun _ _ => True :=
  ⟨fun _ _ => trivial, fun _ _ _ => trivial, fun _ _ _ _ => trivial, fun _ _ _ => trivial⟩

/-- The whole scan goes over its text in order. -/
theorem holds_run (hg : g.StaysInLine) (text : Text) (n : Nat) :
    ((Pass.first g text).run g n).Holds text 0 text.length 0 fun _ _ => True :=
  Holds.run hg (maintains_true g text) (holds_first hg trivial) n

/-- Where a line ends at its newline, the bytes before it and the newline keep what they have been
given. -/
theorem spent_of_step_over (hk : g.Keeps r) (hg : g.StaysInLine) {n : Nat}
    (hmore : ((Pass.first g text).run g n).cursor.more = true)
    (hend : (((Pass.first g text).run g n).asked g).cursor.atLineEnd = true)
    (hstep : ((Pass.first g text).run g n).step g =
      (((Pass.first g text).run g n).asked g).advance g) :
    ∃ y, (fresh g text).cursor.spent =
      y ++ (((Pass.first g text).run g n).asked g).cursor.forward.spent := by
  have hafter : (Pass.first g text).run g (n + 1) =
      (((Pass.first g text).run g n).asked g).advance g := by
    rw [run_add, ← hstep, run_succ _ _ _ hmore]
    rfl
  obtain ⟨hlt, -⟩ :=
    cost_step_lt (g := g) (hg.goesOn.dispatch _ _).notBefore hmore (holds_run hg text n).orderly.few
  have hfew : (first g text).rescans ≤ maxRescans := (holds_run hg text 0).orderly.few
  have hcost := cost_run_le hg.goesOn hfew hmore
  obtain ⟨hcursor, -⟩ := advance_over g hend
  obtain ⟨t, hahead, -⟩ := Cursor.ahead_of_atLineEnd hend
  -- the scan comes by the line that begins there
  have hcomes : ComesBy g r text ((((Pass.first g text).run g n).asked g).advance g) := by
    refine ⟨⟨n + 1, ?_, hafter⟩, hafter ▸ (first_sound hk text).run hk (n + 1), rfl, ?_⟩
    · rw [← hstep]
      omega
    · rw [hcursor, Cursor.forward_cons (c := Cursor.newLine _) hahead]
  obtain ⟨y, hy⟩ := (hcomes.stays hk).1
  refine ⟨y, ?_⟩
  rw [hy, hcursor, Cursor.spent_forward (c := Cursor.newLine _) hahead,
    Cursor.spent_forward hahead]
  rfl

/-- A scan that has come to the end of a text without a last newline leaves its last run there. -/
theorem spent_of_not_more (hg : g.StaysInLine) {n : Nat}
    (hmore : ((Pass.first g text).run g n).cursor.more = false) (hlast : text.unended = true) :
    (fresh g text).cursor.spent =
      (((Pass.first g text).run g n).leaveLast g maxRescans).cursor.spent := by
  have hnil : ((Pass.first g text).run g n).cursor.ahead = [] := by
    simpa [Cursor.more] using hmore
  have hrun : (Pass.first g text).run g (Pass.first g text).cost =
      (Pass.first g text).run g n := by
    have hnil' := hg.goesOn.ahead_run (g := g) (holds_run hg text 0).orderly.few
    rcases Nat.le_total n (Pass.first g text).cost with hle | hle
    · exact run_of_le g hnil hle
    · exact (run_of_le g hnil' hle).symm
  rw [fresh_eq, hrun, hlast, finish, if_pos rfl]
  rfl

/-- A line that a scan of the text has ended it has summed up somewhere; what the bytes before that
place have been given, and the newline, they keep. -/
theorem exists_sumsUp (hk : g.Keeps r) (hg : g.StaysInLine) {e : Nat × LineState}
    (he : e ∈ (fresh g text).ended) :
    ∃ q : Pass σ ζ, SumsUp g text q ∧ e = q.summary g ∧
      ∃ y, (fresh g text).cursor.spent = y ++ q.cursor.forward.spent := by
  obtain ⟨q, rfl, -, hq⟩ := (ofPart_completes hg (Nat.le_of_eq (Nat.zero_add text.length))
    Palette.plain #[] #[]).records e he
  rw [outset_zero] at hq
  rcases hq with ⟨⟨n, hmore, rfl, hend, hstep⟩, -⟩ | ⟨⟨n, hmore, rfl⟩, hpos, hlast⟩
  · exact ⟨_, .atNewline n hmore rfl hend hstep, rfl, spent_of_step_over hk hg hmore hend hstep⟩
  · have hnil : ((Pass.first g text).run g n).cursor.ahead = [] := by
      simpa [Cursor.more] using hmore
    obtain ⟨hmoves, -⟩ := leaveLast_within hg maxRescans ((Pass.first g text).run g n)
    have hahead := List.suffix_nil.1 (hnil ▸ hmoves.onward.ahead)
    have hunended : text.unended = true := by
      have hne : text ≠ [] := by
        rintro rfl
        have hlines := fresh_lines hk ([] : Text)
        rw [List.map_eq_nil_iff.1 hlines] at he
        cases he
      simpa [Text.unended, hne] using hlast
    refine ⟨_, .atEnd n hmore rfl hahead, rfl, [], ?_⟩
    rw [spent_of_not_more hg hmore hunended, Cursor.forward_nil hahead, List.nil_append]

namespace SumsUp

variable {q : Pass σ ζ}

theorem ends (h : SumsUp g text q) : q.cursor.ahead = [] ∨ q.cursor.atLineEnd = true := by
  cases h with
  | atNewline _ _ _ hend _ => exact .inr hend
  | atEnd _ _ _ hend => exact .inl hend

/-- What the rules keep from place to place holds there. -/
theorem holds (hg : g.StaysInLine) (hi : g.Maintains text text.length inv)
    (hfirst : inv (Pass.first g text).cursor (Pass.first g text).data) (h : SumsUp g text q) :
    q.Holds text 0 text.length 0 inv := by
  have hstart := holds_first hg hfirst
  cases h with
  | atNewline n hmore hq hend hstep => exact GoesOver.holds hg hi hstart ⟨n, hmore, hq, hend, hstep⟩
  | atEnd n hmore hq _ => exact Arrives.holds hg hi hstart ⟨n, hmore, hq⟩

end SumsUp

/-- **Where a line is summed up.** A line that a scan of the text has ended it has summed up at a
place where `inv` holds, at the newline of the line or at the end of the text; what the bytes before
that place have been given, and the newline, they keep. -/
theorem exists_summed (hk : g.Keeps r) (hg : g.StaysInLine)
    (hi : g.Maintains text text.length inv)
    (hfirst : inv (Pass.first g text).cursor (Pass.first g text).data) {e : Nat × LineState}
    (he : e ∈ (fresh g text).ended) :
    ∃ q : Pass σ ζ, q.Holds text 0 text.length 0 inv ∧ e = q.summary g ∧
      (q.cursor.ahead = [] ∨ q.cursor.atLineEnd = true) ∧
      ∃ y, (fresh g text).cursor.spent = y ++ q.cursor.forward.spent := by
  obtain ⟨q, hq, rfl, hy⟩ := exists_sumsUp hk hg he
  exact ⟨q, hq.holds hg hi hfirst, rfl, hq.ends, hy⟩

end Pass

end Highlight
