import Highlight.Proofs.Session.Lines

/-!
What one line hands on to the next. A language may keep among its data something that stays the
same through a line and is set anew at its end. Where the scan of a text begins a line and where it
begins the next one, what is known there and what was written down of the line between belong
together (`Pass.Opens.linked`).
-/

namespace Highlight

open Byte

variable {σ ζ β : Type} [Palette σ]

/-- `memo` is what the language remembers from line to line: it is the same all through a line, and
at the end `link` holds between what was remembered, the state that is written down, and what is
remembered from then on. All along, `ok` holds of the data. -/
structure Grammar.HandsOn (g : Grammar σ ζ) (ok : ζ → Prop) (memo : ζ → β)
    (link : β → LineState → β → Prop) : Prop where
  begin : ∀ c b, ok (g.begin c b).2
  leave : ∀ c z, ok z → ok (g.leave c z).data ∧ memo (g.leave c z).data = memo z
  enter : ∀ c z, ok z → ok (g.enter c z).data ∧ memo (g.enter c z).data = memo z
  endLine : ∀ c z, ok z →
    ok (g.endLine c z).2 ∧ link (memo z) (g.endLine c z).1 (memo (g.endLine c z).2)

/-- The lines, the last one first, hand on what was remembered before them as what is remembered
behind them. -/
inductive HandedOn (link : β → LineState → β → Prop) (a : β) :
    List (Nat × LineState) → β → Prop where
  | none : HandedOn link a [] a
  | line {es : List (Nat × LineState)} {b c : β} (i : Nat) {st : LineState}
      (h : HandedOn link a es b) (hst : link b st c) : HandedOn link a ((i, st) :: es) c

/-- The first of the lines begins with what was remembered before them. -/
theorem HandedOn.first {link : β → LineState → β → Prop} {a b : β} {es : List (Nat × LineState)}
    (h : HandedOn link a es b) (hne : es ≠ []) :
    ∃ rest i st c, es = rest ++ [(i, st)] ∧ link a st c ∧ (rest = [] → c = b) := by
  induction h with
  | none => exact absurd rfl hne
  | @line es b c i st h hst ih =>
    cases h with
    | none => exact ⟨[], i, st, c, rfl, hst, fun _ => rfl⟩
    | line =>
      obtain ⟨rest, i', st', c', hes, hlink, -⟩ := ih (List.cons_ne_nil _ _)
      exact ⟨(i, st) :: rest, i', st', c', by rw [hes]; rfl, hlink, fun h => by cases h⟩

namespace Pass

variable {g : Grammar σ ζ} {ok : ζ → Prop} {memo : ζ → β} {link : β → LineState → β → Prop}
  {p q : Pass σ ζ}

/-- The lines that the pass has ended since it was `q` hand on what was remembered then. -/
structure Since (ok : ζ → Prop) (memo : ζ → β) (link : β → LineState → β → Prop)
    (q p : Pass σ ζ) : Prop where
  ok : ok p.data
  lines : ∃ newer, p.ended = newer ++ q.ended ∧ HandedOn link (memo q.data) newer (memo p.data)

namespace Since

omit [Palette σ] in
theorem refl (h : ok q.data) : Since ok memo link q q := ⟨h, [], rfl, .none⟩

theorem endLine (hg : g.HandsOn ok memo link) (h : Since ok memo link q p) :
    Since ok memo link q (p.endLine g) := by
  obtain ⟨newer, hended, hlines⟩ := h.lines
  obtain ⟨hok, hlink⟩ := hg.endLine p.cursor p.data h.ok
  refine ⟨hok, (p.cursor.line, (g.endLine p.cursor p.data).1) :: newer, ?_, hlines.line _ hlink⟩
  change _ :: p.ended = _
  rw [hended]
  rfl

theorem advance (hg : g.HandsOn ok memo link) (h : Since ok memo link q p) :
    Since ok memo link q (p.advance g) := by
  unfold Pass.advance
  split
  · exact ⟨(h.endLine hg).ok, (h.endLine hg).lines⟩
  · exact ⟨h.ok, h.lines⟩

omit [Palette σ] in
theorem leaveLast (hg : g.HandsOn ok memo link) (n : Nat) (h : Since ok memo link q p) :
    Since ok memo link q (p.leaveLast g n) := by
  refine leaveLast_invariant (Since ok memo link q) (fun p h => ?_) h n
  obtain ⟨hok, hmemo⟩ := hg.leave p.cursor p.data h.ok
  exact ⟨hok, by rw [hmemo]; exact h.lines⟩

theorem finish (hg : g.HandsOn ok memo link) (last : Bool) (h : Since ok memo link q p) :
    Since ok memo link q (p.finish g last) := by
  unfold Pass.finish
  split
  · exact (h.leaveLast hg _).endLine hg
  · exact h

variable [DecidableEq σ]

theorem step (hg : g.HandsOn ok memo link) (h : Since ok memo link q p) :
    Since ok memo link q (p.step g) := by
  have hasked : Since ok memo link q (p.asked g) := by
    obtain ⟨hok, hmemo⟩ := hg.leave p.cursor p.data h.ok
    unfold Pass.asked
    rcases dispatch_cases g p.cursor p.data with hrule | ⟨-, hrule⟩ <;> rw [hrule]
    · exact ⟨hok, by rw [hmemo]; exact h.lines⟩
    · obtain ⟨hok', hmemo'⟩ := hg.enter (g.leave p.cursor p.data).cursor _ hok
      exact ⟨hok', by rw [hmemo', hmemo]; exact h.lines⟩
  rcases step_cases g p with hstep | ⟨n, -, -, hstep⟩ <;> rw [hstep]
  · exact hasked.advance hg
  · exact ⟨hasked.ok, hasked.lines⟩

theorem run (hg : g.HandsOn ok memo link) (h : ok q.data) (n : Nat) :
    Since ok memo link q (q.run g n) :=
  run_invariant (Since ok memo link q) (fun _ h _ => h.step hg) (.refl h) n

end Since

/-! ### Where a line begins -/

omit [Palette σ] in
/-- Between two places where lines begin, the first line that ends is the one that begins at the
first of them. -/
theorem Since.exists_line {i k : Nat} (h : Since ok memo link q p)
    (hq : q.ended.map Prod.fst = (List.range i).reverse)
    (hp : p.ended.map Prod.fst = (List.range k).reverse) (hlt : i < k) :
    ∃ st c, (i, st) ∈ p.ended ∧ link (memo q.data) st c ∧ (k = i + 1 → c = memo p.data) := by
  obtain ⟨newer, hended, hlines⟩ := h.lines
  have hqlen : q.ended.length = i := by simpa using congrArg List.length hq
  have hplen : p.ended.length = k := by simpa using congrArg List.length hp
  have hlen : newer.length + i = k := by rw [← hqlen, ← hplen, hended, List.length_append]
  obtain ⟨rest, j, st, c, rfl, hlink, hlast⟩ := hlines.first (by rintro rfl; simp at hlen; omega)
  have hj : i = j := by
    rw [hended, List.append_assoc, List.map_append, List.map_append, hq] at hp
    have hrange := congrArg List.reverse hp
    simp only [List.reverse_append, List.reverse_reverse, List.map_cons, List.map_nil,
      List.append_assoc, List.reverse_cons, List.singleton_append] at hrange
    have hat := congrArg (fun l => l[i]?) hrange
    simpa [List.getElem?_append_right, hlt] using hat.symm
  subst hj
  refine ⟨st, c, by rw [hended]; simp, hlink, fun hk => hlast ?_⟩
  simp only [List.length_append, List.length_singleton] at hlen
  exact List.eq_nil_of_length_eq_zero (by omega)

variable [DecidableEq σ] {r : Regime σ ζ} {text : Text} {i o : Nat} {q' : Pass σ ζ}

/-- The scan of the text goes through the pass, and has ended just the first `i` lines by then. -/
structure Opens (g : Grammar σ ζ) (text : Text) (i : Nat) (q : Pass σ ζ) : Prop where
  reached : ∃ n ≤ (first g text).cost, (first g text).run g n = q
  lines : q.ended.map Prod.fst = (List.range i).reverse

theorem opens_first (g : Grammar σ ζ) (text : Text) : Opens g text 0 (first g text) :=
  ⟨⟨0, Nat.zero_le _, rfl⟩, rfl⟩

theorem ComesBy.opens (h : ComesBy g r text q) : Opens g text q.cursor.line q :=
  let ⟨n, hn, hq⟩ := h.reached
  ⟨⟨n, by omega, hq⟩, h.sound.lines⟩

namespace Opens

theorem length_ended (h : Opens g text i q) : q.ended.length = i := by
  simpa using congrArg List.length h.lines

theorem holds (hg : g.HandsOn ok memo link) (h : Opens g text i q) : ok q.data := by
  obtain ⟨n, -, rfl⟩ := h.reached
  exact (Since.run hg (hg.begin _ _) n).ok

theorem since_fresh (hg : g.HandsOn ok memo link) (h : Opens g text i q) :
    Since ok memo link q (fresh g text) := by
  obtain ⟨n, hn, hq⟩ := h.reached
  have hsince := (Since.run hg (h.holds hg) ((first g text).cost - n)).finish hg text.unended
  rwa [← hq, ← run_add, Nat.add_sub_cancel' hn, hq, ← fresh_eq] at hsince

/-- From one line to the next. -/
theorem linked (hg : g.HandsOn ok memo link) (h : Opens g text i q)
    (h' : Opens g text (i + 1) q') :
    ∃ st, (i, st) ∈ (fresh g text).ended ∧ link (memo q.data) st (memo q'.data) := by
  obtain ⟨n, -, hq⟩ := h.reached
  obtain ⟨n', -, hq'⟩ := h'.reached
  -- lines once ended stay so, so the pass that has ended one more comes later
  have hle : n ≤ n' := by
    refine Nat.le_of_not_lt fun hlt => ?_
    have hrun : q'.run g (n - n') = q := by
      rw [← hq', ← run_add, Nat.add_sub_cancel' (Nat.le_of_lt hlt), hq]
    obtain ⟨newer, hended, -⟩ := (Since.run hg (h'.holds hg) (n - n')).lines
    have hlen := congrArg List.length hended
    rw [hrun, List.length_append, h.length_ended, h'.length_ended] at hlen
    omega
  have hrun : q.run g (n' - n) = q' := by
    rw [← hq, ← run_add, Nat.add_sub_cancel' hle, hq']
  have hsince := Since.run hg (h.holds hg) (n' - n)
  rw [hrun] at hsince
  obtain ⟨st, c, hmem, hlink, hc⟩ := hsince.exists_line h.lines h'.lines (Nat.lt_succ_self i)
  obtain ⟨later, hended, -⟩ := (h'.since_fresh hg).lines
  exact ⟨st, hended ▸ List.mem_append_right later hmem, hc rfl ▸ hlink⟩

/-- Through a line that has any bytes, be it the last one. -/
theorem linked_fresh (hk : g.Keeps r) (hg : g.HandsOn ok memo link) (h : Opens g text i q)
    (hi : i < text.committed) :
    ∃ st c, (i, st) ∈ (fresh g text).ended ∧ link (memo q.data) st c := by
  obtain ⟨st, c, hmem, hlink, -⟩ := (h.since_fresh hg).exists_line h.lines (fresh_lines hk text) hi
  exact ⟨st, c, hmem, hlink⟩

end Opens

omit [Palette σ] [DecidableEq σ] in
/-- A line has bytes if it does not begin at the end of the text. -/
theorem lt_committed_iff (ho : (LineTable.ofText text).start? i = some o) :
    i < text.committed ↔ o < text.length := by
  obtain ⟨hcount, hle, hlast⟩ := LineTable.take_start? ho
  have hall : text.count newline = i + (text.drop o).count newline := by
    rw [← hcount, ← List.count_append, List.take_append_drop]
  constructor
  · intro hi
    by_contra hlt
    obtain rfl : o = text.length := by omega
    have hunended : text.unended = false := by
      rcases hlast with ⟨-, hnil⟩ | hlast
      · simp [List.eq_nil_of_length_eq_zero hnil, Text.unended]
      · exact Text.unended_of_newline (by rwa [List.take_length] at hlast)
    simp [Text.committed, hunended, hall] at hi
  · intro hlt
    have hne : text.drop o ≠ [] := by simpa using hlt
    by_cases hmem : newline ∈ text.drop o
    · have hpos := List.count_pos_iff.2 hmem
      have := text.count_le_committed
      omega
    · have hunended : text.unended = true := by
        have hget : text.getLast? = some ((text.drop o).getLast hne) := by
          rw [← List.getLast?_eq_some_getLast, List.getLast?_drop, if_neg (by omega)]
        have hnewline : (text.drop o).getLast hne ≠ newline := fun h =>
          hmem (h ▸ List.getLast_mem hne)
        have htext : text ≠ [] := by
          rintro rfl
          simp at hne
        simpa [Text.unended, hget, htext] using hnewline
      simp only [Text.committed, hunended, hall, Bool.toNat_true]
      omega

/-- Every line of a text is begun, the first by the scan itself and every other where the scan comes
by. -/
theorem exists_opens (hk : g.Keeps r) (ho : (LineTable.ofText text).start? i = some o) :
    ∃ q, Opens g text i q ∧ (i = 0 ∧ o = 0 ∧ q = first g text ∨
      0 < o ∧ ComesBy g r text q ∧ Begins g r (text.take o) text q) := by
  obtain ⟨hcount, hle, hlast⟩ := LineTable.take_start? ho
  rcases hlast with ⟨rfl, rfl⟩ | hlast
  · exact ⟨_, opens_first g text, .inl ⟨rfl, rfl, rfl⟩⟩
  · obtain ⟨q, -, hq, -, -, hahead, -⟩ := comesBy hk hlast (text.drop o) (text.drop o)
    rw [List.take_append_drop] at hq
    have hbegins := hq.begins (a := text.take o) (by rw [hahead, List.take_append_drop])
    have hpos : 0 < o := by
      rcases Nat.eq_zero_or_pos o with rfl | hpos
      · simp at hlast
      · exact hpos
    exact ⟨q, hcount ▸ hbegins.line ▸ hq.opens, .inr ⟨hpos, hq, hbegins⟩⟩

end Pass

end Highlight
