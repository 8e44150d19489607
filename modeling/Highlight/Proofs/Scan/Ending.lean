import Highlight.Proofs.Scan.Fresh
import Highlight.Proofs.Scan.LineEnd

/-!
Passes that differ in how their line ends. Behind the same bytes, one may have a newline ahead, one
a carriage return, and one nothing: as far as these bytes go all take the same steps, and all come
to rest with the same cursor, data and lines ended (`Pass.exists_rest`).
-/

namespace Highlight

open Byte

variable {σ ζ : Type}

/-! ### Other bytes ahead -/

namespace Text

variable {x u u' : Text}

theorem lineOnly_append (hu : AtEnd u) (hu' : AtEnd u') (x : Text) :
    lineOnly (x ++ u) = lineOnly (x ++ u') := by
  induction x with
  | nil => rw [List.nil_append, List.nil_append, lineOnly_of_atEnd hu, lineOnly_of_atEnd hu']
  | cons b x ih =>
    rcases atEnd_cases (b :: x) with hend | ⟨a, t, e, hb⟩
    · have hall : ∀ v, AtEnd (b :: x ++ v) := fun _ => hend
      rw [lineOnly_of_atEnd (hall u), lineOnly_of_atEnd (hall u')]
    · obtain ⟨rfl, rfl⟩ := List.cons.inj e
      rw [List.cons_append, List.cons_append, lineOnly_cons _ hb, lineOnly_cons _ hb, ih]

theorem length_lineOnly_append_le (hu : AtEnd u) (x : Text) :
    (lineOnly (x ++ u)).length ≤ x.length + 1 := by
  induction x with
  | nil => rw [List.nil_append, lineOnly_of_atEnd hu, List.length_singleton]; exact Nat.le_refl 1
  | cons b x ih =>
    rcases atEnd_cases (b :: x) with hend | ⟨a, t, e, hb⟩
    · have hall : AtEnd (b :: x ++ u) := hend
      rw [lineOnly_of_atEnd hall, List.length_singleton]
      omega
    · obtain ⟨rfl, rfl⟩ := List.cons.inj e
      rw [List.cons_append, lineOnly_cons _ hb, List.length_cons, List.length_cons]
      omega

end Text

/-- The cursor with other bytes ahead. -/
def Cursor.onto (c : Cursor σ) (t : Text) : Cursor σ := { c with ahead := t }

/-- The answer with other bytes ahead. -/
def Flow.onto (t : Text) : Flow σ ζ → Flow σ ζ
  | pass c z => pass (c.onto t) z
  | again c z => again (c.onto t) z

/-- The pass with other bytes ahead. -/
def Pass.onto (p : Pass σ ζ) (t : Text) : Pass σ ζ := { p with cursor := p.cursor.onto t }

theorem Cursor.lineOnly_onto {c : Cursor σ} {x u u' : Text} (hu : Text.AtEnd u)
    (hu' : Text.AtEnd u') (hc : c.ahead = x ++ u) : (c.onto (x ++ u')).lineOnly = c.lineOnly := by
  unfold Cursor.lineOnly Cursor.onto
  rw [hc, Text.lineOnly_append hu' hu]

/-- A cursor that has gone on from another has what is left ahead. -/
theorem Cursor.Onward.ahead_eq {c d : Cursor σ} {k : Nat} (h : c.Onward d)
    (hk : d.pos = c.pos + k) : d.ahead = c.ahead.drop k := by
  have hpos := h.pos
  have hle := h.ahead.length_le
  rw [List.suffix_iff_eq_drop.1 h.ahead]
  congr 1
  omega

theorem Flow.eq_onto {f f' : Flow σ ζ} (h : f.lineOnly = f'.lineOnly) :
    f' = f.onto f'.cursor.ahead := by
  have hcursor : ∀ {c c' : Cursor σ}, c.lineOnly = c'.lineOnly → c' = c.onto c'.ahead := by
    intro c c' h
    obtain ⟨_, _, _, _, _, _, _, _, _⟩ := c
    obtain ⟨_, _, _, _, _, _, _, _, _⟩ := c'
    simp only [Cursor.lineOnly, Cursor.mk.injEq] at h
    simp only [Cursor.onto, Cursor.mk.injEq]
    grind
  cases f <;> cases f' <;> simp only [Flow.lineOnly_pass, Flow.lineOnly_again, reduceCtorEq,
    Flow.pass.injEq, Flow.again.injEq] at h
  · rw [hcursor h.1, h.2]
    rfl
  · rw [hcursor h.1, h.2]
    rfl

/-- A rule that is shown the line alone answers alike at two places that differ in how the line
ends. -/
theorem Flow.onto_of_lineOnly (rule : Cursor σ → ζ → Flow σ ζ) {c : Cursor σ} {z : ζ}
    {x u w : Text} (hgo : ∀ (c : Cursor σ) z, c.Onward (rule c z).cursor) (hu : Text.AtEnd u)
    (hw : Text.AtEnd w) (hc : c.ahead = x ++ u)
    (hrule : rule c.lineOnly z = (rule c z).lineOnly)
    (hrule' : rule (c.onto (x ++ w)).lineOnly z = (rule (c.onto (x ++ w)) z).lineOnly) :
    ∃ y, y <:+ x ∧ (rule c z).cursor.ahead = y ++ u ∧
      rule (c.onto (x ++ w)) z = (rule c z).onto (y ++ w) := by
  have hsame : (rule c z).lineOnly = (rule (c.onto (x ++ w)) z).lineOnly := by
    rw [← hrule, ← hrule', Cursor.lineOnly_onto hu hw hc]
  have heq := Flow.eq_onto hsame
  have hlineOnly : ∀ f : Flow σ ζ, f.lineOnly.cursor = f.cursor.lineOnly := by
    intro f
    cases f <;> rfl
  have hline : c.lineOnly.Onward (rule c z).cursor.lineOnly := by
    rw [← hlineOnly, ← hrule]
    exact hgo _ _
  have hpos' : (rule (c.onto (x ++ w)) z).cursor.pos = (rule c z).cursor.pos := by
    rw [heq]
    cases rule c z <;> rfl
  have honward := hgo c z
  have honward' := hgo (c.onto (x ++ w)) z
  -- within the line there are no more bytes to pass than `x` has
  have hle : (rule c z).cursor.pos ≤ c.pos + x.length := by
    have hlength := hline.pos
    have hbound := Text.length_lineOnly_append_le hu x
    rw [← hc] at hbound
    simp only [Cursor.lineOnly, Text.lineOnly, List.length_append, List.length_singleton]
      at hlength hbound
    omega
  obtain ⟨k, hk⟩ := Nat.exists_eq_add_of_le honward.notBefore.pos
  have hkx : k ≤ x.length := by omega
  refine ⟨x.drop k, List.drop_suffix k x, ?_, ?_⟩
  · rw [honward.ahead_eq hk, hc, List.drop_append_of_le_length hkx]
  · rw [heq, honward'.ahead_eq (hpos'.trans hk)]
    change (rule c z).onto ((x ++ w).drop k) = _
    rw [List.drop_append_of_le_length hkx]

/-! ### Passes -/

variable [Palette σ] [DecidableEq σ] {g : Grammar σ ζ} {calm : σ → Trail σ → ζ → Prop}
  {rank : σ → Nat} {holds : ζ → Prop}

namespace Pass

variable {p q r r' : Pass σ ζ} {x u w : Text}

omit [Palette σ] [DecidableEq σ] in
theorem onto_eq (h : p.cursor.ahead = x) : p.onto x = p := by rw [← h]; rfl

/-! ### The last run -/

omit [Palette σ] [DecidableEq σ] in
theorem Leaves.unique {k l : Nat} (h : p.Leaves g k r) (h' : p.Leaves g l r') : r = r' := by
  induction h generalizing l with
  | pass hrule =>
    cases h' with
    | pass hrule' =>
      obtain ⟨rfl, rfl⟩ := Flow.pass.inj (hrule.symm.trans hrule')
      rfl
    | again hrule' _ => cases hrule.symm.trans hrule'
  | again hrule _ ih =>
    cases h' with
    | pass hrule' => cases hrule.symm.trans hrule'
    | again hrule' hrest' =>
      obtain ⟨rfl, rfl⟩ := Flow.again.inj (hrule.symm.trans hrule')
      exact ih hrest'

omit [Palette σ] [DecidableEq σ] in
/-- The last run is left no matter how often the rules have asked to look again. -/
theorem Leaves.rescans {k : Nat} (h : p.Leaves g k r) (n : Nat) :
    Leaves g k { p with rescans := n } { r with rescans := n } := by
  induction h with
  | @pass p d y hrule => exact .pass (p := { p with rescans := n }) hrule
  | @again k p q d y hrule _ ih => exact .again (p := { p with rescans := n }) hrule ih

/-! ### One step -/

/-- The pass `p` comes to rest with the cursor, the data and the lines ended of `q`: where the rules
let go of the byte there, or, if no byte is left, where the last run is left. -/
def RestsAs (g : Grammar σ ζ) (p q : Pass σ ζ) : Prop :=
  ∃ n, if q.cursor.ahead = [] then
    (p.run g n).cursor.ahead = [] ∧ ∃ k r, (p.run g n).Leaves g k r ∧ r.cursor = q.cursor ∧
      r.data = q.data ∧ r.ended = q.ended
  else
    (p.run g n).cursor.more = true ∧ (p.run g n).ended = q.ended ∧
      g.dispatch (p.run g n).cursor (p.run g n).data = .pass q.cursor q.data

theorem RestsAs.of_step (hmore : p.cursor.more = true) (h : (p.step g).RestsAs g q) :
    p.RestsAs g q := by
  obtain ⟨n, h⟩ := h
  refine ⟨n + 1, ?_⟩
  rwa [run_succ g n p hmore]

/-- Behind the byte that is passed the passes still differ only in what they have ahead. -/
theorem advance_onto (hg : g.EndsAlike calm) {b : Byte} (hp : p.cursor.ahead = b :: x ++ u)
    (w : Text) : (p.onto (b :: x ++ w)).advance g = (p.advance g).onto (x ++ w) := by
  have hforward : ∀ {c : Cursor σ}, c.ahead = b :: (x ++ u) →
      (c.onto (b :: (x ++ w))).forward = c.forward.onto (x ++ w) := by
    intro c hc
    have hto : (c.onto (b :: (x ++ w))).ahead = b :: (x ++ w) := rfl
    rw [Cursor.forward_cons hc, Cursor.forward_cons hto]
    rfl
  have hend : (p.onto (b :: x ++ w)).cursor.atLineEnd = p.cursor.atLineEnd := by
    simp [Pass.onto, Cursor.onto, Cursor.atLineEnd, hp]
  have hsum : g.endLine (p.onto (b :: x ++ w)).cursor (p.onto (b :: x ++ w)).data =
      g.endLine p.cursor p.data := hg.endLine _ rfl rfl
  unfold Pass.advance Pass.endLine
  rw [hend, hsum]
  split
  · exact congrArg (fun c => (⟨c, _, 0, _⟩ : Pass σ ζ)) (hforward (c := p.cursor.newLine) hp)
  · exact congrArg (fun c => (⟨c, _, 0, _⟩ : Pass σ ζ)) (hforward hp)

/-- At one place, what is answered does not depend on how the line ends. -/
theorem dispatch_onto (hg : g.EndsAlike calm) (hm : g.StaysInLine) (hu : Text.AtEnd u)
    (hp : p.cursor.ahead = x ++ u) (hne : u ≠ []) :
    ∃ y, y <:+ x ∧ (g.dispatch p.cursor p.data).cursor.ahead = y ++ u ∧
      ∀ w, Text.AtEnd w → x ++ w ≠ [] → g.dispatch (p.cursor.onto (x ++ w)) p.data =
        (g.dispatch p.cursor p.data).onto (y ++ w) := by
  have hgo : ∀ (c : Cursor σ) z, c.Onward (g.dispatch c z).cursor := fun c z =>
    (hm.dispatch c z).onward
  have hrule := hg.dispatch p.cursor p.data (by simp [hp, hne])
  have honto : p.cursor.onto (x ++ u) = p.cursor := by rw [← hp]; rfl
  obtain ⟨y, hy, hahead, -⟩ := Flow.onto_of_lineOnly g.dispatch hgo hu hu hp hrule (honto ▸ hrule)
  refine ⟨y, hy, hahead, fun w hw hne' => ?_⟩
  obtain ⟨y', -, hahead', hsame⟩ :=
    Flow.onto_of_lineOnly g.dispatch hgo hu hw hp hrule (hg.dispatch _ _ hne')
  rwa [List.append_cancel_right (hahead.symm.trans hahead')]

/-- At the end of a line nothing begins, so that it is answered what is answered there at the end
of the text. -/
theorem dispatch_atEnd (hg : g.EndsAlike calm) (hm : g.StaysInLine) {c : Cursor σ} {z : ζ}
    (hend : c.AtEnd) (hne : c.ahead ≠ []) :
    g.dispatch c z = g.leave c z ∧ (g.leave c z).cursor.ahead = c.ahead ∧
      ∀ w, Text.AtEnd w → g.leave (c.onto w) z = (g.leave c z).onto w := by
  have honto : ∀ w, Text.AtEnd w → (g.leave c z).cursor.ahead = c.ahead ∧
      g.leave (c.onto w) z = (g.leave c z).onto w := by
    intro w hw
    obtain ⟨y, hy, hahead, hleave⟩ := Flow.onto_of_lineOnly g.leave (x := [])
      (fun c z => (hm.leave c z).onward) hend hw rfl (hg.leave c z) (hg.leave _ z)
    obtain rfl := List.suffix_nil.1 hy
    exact ⟨hahead, hleave⟩
  have hahead := (honto [] Text.atEnd_nil).1
  refine ⟨?_, hahead, fun w hw => (honto w hw).2⟩
  unfold Grammar.dispatch
  cases hrule : g.leave c z with
  | again d y => rfl
  | pass d y =>
    rw [hrule] at hahead
    change d.ahead = c.ahead at hahead
    have henter : g.enter d y = .pass d y := by
      refine hg.idle d y ?_ (hahead ▸ hne)
      rwa [Cursor.AtEnd, hahead]
    simp only [henter, ite_self]

/-- The step is the same if the rules ask to look again, or let go before the line ends. -/
theorem step_onto (hg : g.EndsAlike calm) (hm : g.StaysInLine) (hu : Text.AtEnd u)
    (hp : p.cursor.ahead = x ++ u) (hne : u ≠ [])
    (hfew : ∀ d y, g.dispatch p.cursor p.data = .again d y →
      (if d.pos = p.cursor.pos then p.rescans + 1 else 1) ≤ maxRescans)
    (hinner : ∀ d y, g.dispatch p.cursor p.data = .pass d y → d.ahead ≠ u) :
    ∃ y, (p.step g).cursor.ahead = y ++ u ∧ ∀ w, Text.AtEnd w → x ++ w ≠ [] →
      (p.onto (x ++ w)).step g = (p.step g).onto (y ++ w) := by
  obtain ⟨y, -, hahead, honto⟩ := dispatch_onto hg hm hu hp hne
  cases hrule : g.dispatch p.cursor p.data with
  | again d z =>
    rw [hrule] at hahead honto
    have hgo := step_of_again hrule (hfew d z hrule)
    refine ⟨y, hgo ▸ hahead, fun w hw hne' => ?_⟩
    rw [hgo]
    exact step_of_again (p := p.onto (x ++ w)) (honto w hw hne') (hfew d z hrule)
  | pass d z =>
    rw [hrule] at hahead honto
    cases y with
    | nil => exact absurd hahead (hinner d z hrule)
    | cons b y =>
      refine ⟨y, ?_, fun w hw hne' => ?_⟩
      · rw [step_of_pass hrule, ahead_advance]
        exact congrArg List.tail hahead
      · rw [step_of_pass hrule, step_of_pass (p := p.onto (x ++ w)) (honto w hw hne')]
        exact advance_onto hg (p := { p with cursor := d, data := z }) hahead w

/-! ### The end of a line -/

/-- Where the rules let go of the end of a line, the pass comes to rest, whatever ends it. -/
theorem restsAs_of_pass (hg : g.EndsAlike calm) (hm : g.StaysInLine) (hu : Text.AtEnd u)
    (hp : p.cursor.ahead = x ++ u) (hne : u ≠ []) {d : Cursor σ} {z : ζ}
    (hrule : g.dispatch p.cursor p.data = .pass d z) (hd : d.ahead = u)
    (hcalm : calm d.state d.trail z) (hw : Text.AtEnd w) :
    (p.onto (x ++ w)).RestsAs g ({ p with cursor := d, data := z }.onto w) := by
  obtain ⟨y, -, hahead, honto⟩ := dispatch_onto hg hm hu hp hne
  rw [hrule] at hahead honto
  obtain rfl : y = [] := List.append_left_eq_self.1 (hahead.symm.trans hd)
  by_cases hnil : w = []
  · subst hnil
    by_cases hx : x = []
    · -- nothing is left of the text: the last run is left here
      subst hx
      have hend : p.cursor.AtEnd := by rwa [Cursor.AtEnd, hp]
      obtain ⟨hdispatch, -, hleave⟩ := dispatch_atEnd hg hm (z := p.data) hend (by simp [hp, hne])
      have hpass : g.leave (p.onto []).cursor (p.onto []).data = .pass (d.onto []) z :=
        (hleave [] Text.atEnd_nil).trans (by rw [← hdispatch, hrule]; rfl)
      exact ⟨0, (if_pos rfl).mpr ⟨rfl, 0, _, .pass hpass, rfl, rfl, rfl⟩⟩
    · -- the last byte of the text is passed, and then the last run is left
      have hmoved : d.atLineStart = false := by
        have hwithin := hm.dispatch p.cursor p.data
        rw [hrule] at hwithin
        change p.cursor.Within d at hwithin
        rcases hwithin.moved with ⟨hsame, -⟩ | ⟨b, hprev, hb⟩
        · exact absurd (List.append_left_eq_self.1 ((hp.symm.trans hsame.symm).trans hd)) hx
        · simp [Cursor.atLineStart, hprev, hb]
      have hstep : (p.onto (x ++ [])).step g =
          { p.onto [] with cursor := d.onto [], data := z, rescans := 0 } := by
        have hanswer := honto [] Text.atEnd_nil (by simpa using hx)
        rw [step_of_pass (p := p.onto (x ++ [])) hanswer]
        rfl
      have hrun : (p.onto (x ++ [])).run g 1 = (p.onto (x ++ [])).step g :=
        run_succ g 0 _ (by simpa [Pass.onto, Cursor.onto, Cursor.more] using hx)
      refine ⟨1, (if_pos rfl).mpr ?_⟩
      rw [hrun, hstep]
      exact ⟨rfl, 0, _, .pass (hg.calm (d.onto []) z hcalm Text.atEnd_nil hmoved), rfl, rfl, rfl⟩
  · refine ⟨0, (if_neg hnil).mpr ⟨?_, rfl, honto w hw (by simp [hnil])⟩⟩
    simp [Pass.run, Pass.onto, Cursor.onto, Cursor.more, hnil]

/-- Where the rules ask to look again at the end of a line, they do so at the end of the text. -/
theorem restsAs_of_again (hg : g.EndsAlike calm) (hm : g.StaysInLine) (hu : p.cursor.AtEnd)
    (hne : p.cursor.ahead ≠ []) {d : Cursor σ} {z : ζ} {n : Nat}
    (hrule : g.dispatch p.cursor p.data = .again d z) (hq : q.cursor.ahead = [])
    (h : (({ p with cursor := d, data := z, rescans := n } : Pass σ ζ).onto []).RestsAs g q) :
    (p.onto []).RestsAs g q := by
  obtain ⟨hdispatch, -, hleave⟩ := dispatch_atEnd hg hm (z := p.data) hu hne
  have hagain : g.leave (p.onto []).cursor (p.onto []).data = .again (d.onto []) z :=
    (hleave [] Text.atEnd_nil).trans (by rw [← hdispatch, hrule]; rfl)
  obtain ⟨l, h⟩ := h
  rw [if_pos hq, run_of_not_more g l _ rfl] at h
  obtain ⟨-, k, r, hleaves, hcursor, hdata, hended⟩ := h
  exact ⟨0, (if_pos hq).mpr ⟨rfl, k + 1, { r with rescans := p.rescans },
    .again hagain (hleaves.rescans p.rescans), hcursor, hdata, hended⟩⟩

/-! ### A whole line -/

/-- **At the end of a line a pass comes to rest alike, whatever ends it.** -/
theorem exists_rest (hg : g.EndsAlike calm) (hs : g.Settles rank holds) (hm : g.StaysInLine)
    (hu : Text.AtEnd u) (hne : u ≠ []) (hp : p.cursor.ahead = x ++ u)
    (h : p.Unforced rank holds) :
    ∃ q : Pass σ ζ, q.cursor.ahead = u ∧ calm q.cursor.state q.cursor.trail q.data ∧
      ∀ w, Text.AtEnd w → (p.onto (x ++ w)).RestsAs g (q.onto w) := by
  induction hc : p.cost using Nat.strongRecOn generalizing p x with
  | ind c ih =>
    have hmore : p.cursor.more = true := by simp [Cursor.more, hp, hne]
    obtain ⟨hstep, -, hfew⟩ := h.step hs hm hmore (looked_nil p)
    have hrescans : p.rescans ≤ maxRescans := by
      have := h.few
      omega
    obtain ⟨hcost, -⟩ :=
      cost_step_lt (g := g) (hm.dispatch _ _).onward.notBefore hmore hrescans
    by_cases hlet : ∃ d z, g.dispatch p.cursor p.data = .pass d z ∧ d.ahead = u
    · obtain ⟨d, z, hrule, hd⟩ := hlet
      have hcalm := hg.rests p.cursor p.data (by simp [hp, hne])
      rw [hrule] at hcalm
      have hcalm : calm d.state d.trail z := hcalm (by rwa [Cursor.AtEnd, hd])
      exact ⟨{ p with cursor := d, data := z }, hd, hcalm,
        fun w hw => restsAs_of_pass hg hm hu hp hne hrule hd hcalm hw⟩
    · obtain ⟨y, hahead, honto⟩ :=
        step_onto hg hm hu hp hne hfew fun d z hrule hd => hlet ⟨d, z, hrule, hd⟩
      obtain ⟨q, hq, hcalm, hrest⟩ := ih _ (hc ▸ hcost) hahead hstep rfl
      refine ⟨q, hq, hcalm, fun w hw => ?_⟩
      by_cases hnil : x ++ w = []
      · -- no byte is left of the text, and the rules must have asked to look again
        obtain ⟨rfl, rfl⟩ := List.append_eq_nil_iff.1 hnil
        have hend : p.cursor.AtEnd := by rwa [Cursor.AtEnd, hp]
        have hne' : p.cursor.ahead ≠ [] := by rwa [hp]
        obtain ⟨hdispatch, hsame, -⟩ := dispatch_atEnd hg hm (z := p.data) hend hne'
        rw [← hdispatch, hp] at hsame
        cases hrule : g.dispatch p.cursor p.data with
        | pass d z =>
          rw [hrule] at hsame
          exact absurd ⟨d, z, hrule, hsame⟩ hlet
        | again d z =>
          rw [hrule] at hsame
          have hd : d.ahead = u := hsame
          rw [step_of_again hrule (hfew d z hrule)] at hahead hrest
          obtain rfl : y = [] := List.append_left_eq_self.1 (hahead.symm.trans hd)
          exact restsAs_of_again hg hm hend hne' hrule rfl (hrest [] Text.atEnd_nil)
      · refine .of_step (by simpa [Pass.onto, Cursor.onto, Cursor.more] using hnil) ?_
        rw [honto w hw hnil]
        exact hrest w hw

/-! ### Scans of whole texts -/

omit [DecidableEq σ] in
theorem Unforced.of_idle (hs : g.Settles rank holds) (hz : holds p.data) (hidle : p.rescans = 0) :
    p.Unforced rank holds := by
  have hlow := hs.low p.cursor.state
  exact ⟨hz, by omega⟩

/-- Texts that differ in how a line ends are scanned alike up to there. -/
theorem first_onto (hg : g.EndsAlike calm) (hm : g.StaysInLine) (t : Text) (hu : Text.AtEnd u) :
    ∃ x, (first g (t ++ u)).cursor.ahead = x ++ u ∧
      ∀ w, Text.AtEnd w → first g (t ++ w) = (first g (t ++ u)).onto (x ++ w) := by
  have hbegin : ∀ c : Cursor σ, (Flow.pass (g.begin c.lineOnly {}).1 (g.begin c.lineOnly {}).2) =
      (Flow.pass (g.begin c {}).1 (g.begin c {}).2).lineOnly := by
    intro c
    rw [hg.begin]
    rfl
  have honto : ∀ w, Text.AtEnd w → ∃ y, (first g (t ++ u)).cursor.ahead = y ++ u ∧
      first g (t ++ w) = (first g (t ++ u)).onto (y ++ w) := by
    intro w hw
    obtain ⟨y, -, hahead, hpass⟩ := Flow.onto_of_lineOnly
      (fun c _ => .pass (g.begin c {}).1 (g.begin c {}).2) (c := Cursor.outset (t ++ u))
      (z := (first g (t ++ u)).data) (fun c _ => (hm.begin c {}).onward) hu hw rfl
      (hbegin _) (hbegin _)
    obtain ⟨hcursor, hdata⟩ := Flow.pass.inj hpass
    have hfirst : first g (t ++ w) = ⟨(g.begin (Cursor.outset (t ++ w)) {}).1,
      (g.begin (Cursor.outset (t ++ w)) {}).2, 0, []⟩ := rfl
    refine ⟨y, hahead, hfirst.trans ?_⟩
    have hto : Cursor.outset (t ++ w) = (Cursor.outset (t ++ u) : Cursor σ).onto (t ++ w) := rfl
    rw [hto, hcursor, hdata]
    rfl
  obtain ⟨x, hx, -⟩ := honto u hu
  refine ⟨x, hx, fun w hw => ?_⟩
  obtain ⟨y, hy, hfirst⟩ := honto w hw
  rwa [List.append_cancel_right (hx.symm.trans hy)]

/-- **Before the end of a line a scan comes to rest alike, whatever ends it.** -/
theorem exists_rest_first (hg : g.EndsAlike calm) (hs : g.Settles rank holds) (hm : g.StaysInLine)
    (t : Text) (hu : Text.AtEnd u) (hne : u ≠ []) :
    ∃ q : Pass σ ζ, q.cursor.ahead = u ∧ calm q.cursor.state q.cursor.trail q.data ∧
      ∀ w, Text.AtEnd w → (first g (t ++ w)).RestsAs g (q.onto w) := by
  obtain ⟨x, hx, hfirst⟩ := first_onto hg hm t hu
  have hbegin : (first g (t ++ u)).Unforced rank holds := .of_idle hs (hs.begin _ _) rfl
  obtain ⟨q, hq, hcalm, hrest⟩ := exists_rest hg hs hm hu hne hx hbegin
  refine ⟨q, hq, hcalm, fun w hw => ?_⟩
  rw [hfirst w hw]
  exact hrest w hw

/-- From where it comes to rest a pass goes on. -/
theorem RestsAs.advance (h : p.RestsAs g q) (hne : q.cursor.ahead ≠ []) :
    ∃ n, p.run g n = q.advance g := by
  obtain ⟨n, h⟩ := h
  obtain ⟨hmore, hended, hrule⟩ := if_neg hne ▸ h
  refine ⟨n + 1, ?_⟩
  rw [run_succ', if_pos hmore, step, hrule]
  simp only
  rw [← advance_rescans g q (p.run g n).rescans, ← hended]

/-- At the end of the text it leaves its last run. -/
theorem RestsAs.leaveLast (h : p.RestsAs g q) (hnil : q.cursor.ahead = []) (hp : p.LetsGo g) :
    ∃ n, (p.run g n).cursor.ahead = [] ∧ ∃ r, (p.run g n).leaveLast g maxRescans = r ∧
      r.cursor = q.cursor ∧ r.data = q.data ∧ r.ended = q.ended := by
  obtain ⟨n, h⟩ := h
  obtain ⟨hend, k, r, hleaves, hsame⟩ := if_pos hnil ▸ h
  obtain ⟨l, r', -, hleaves', hlast, -⟩ := hp.leaves n (by simp [Cursor.more, hend])
  exact ⟨n, hend, r, hleaves.unique hleaves' ▸ hlast, hsame⟩

end Pass

end Highlight
