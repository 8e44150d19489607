import Highlight.Proofs.Styles
import Mathlib.Data.List.Chain
import Mathlib.Data.List.Induction

/-!
Runs end to end. The runs of a list of categories can be laid one behind the other as the list is
read (`Run.encode_concat`): a run joins the last one if it has the same category, and an empty one
is not laid at all. Runs that are laid like that lie end to end (`Tiles`), and no two neighbours
could have been one (`Maximal`). Of runs that lie end to end just one covers each offset, and what
is painted there is its category.
-/

namespace Highlight

variable {σ : Type}

namespace Run

/-- The byte at the offset is one of the run. -/
def Covers (r : Run σ) (i : Nat) : Prop := r.start ≤ i ∧ i < r.stop

/-- The runs lie end to end from `lo` to `hi`, and none of them is empty. -/
def Tiles : Nat → List (Run σ) → Nat → Prop
  | lo, [], hi => lo = hi
  | lo, r :: rs, hi => r.start = lo ∧ 0 < r.len ∧ Tiles r.stop rs hi

/-- No two neighbours have the same category. -/
def Maximal (rs : List (Run σ)) : Prop := rs.IsChain fun r r' => r.category ≠ r'.category

/-! ### Laying a run -/

section Lay

variable [DecidableEq σ]

/-- The runs with one more laid behind them. -/
def lay (r : Run σ) : List (Run σ) → List (Run σ)
  | [] => if r.len = 0 then [] else [r]
  | [a] =>
    if r.len = 0 then [a]
    else if a.category = r.category then [{ a with len := a.len + r.len }]
    else [a, r]
  | a :: b :: rs => a :: lay r (b :: rs)

/-- Behind a run that is there already, the first one keeps its place and its category. -/
theorem lay_cons (r a : Run σ) (rs : List (Run σ)) :
    ∃ b rest, lay r (a :: rs) = b :: rest ∧ b.start = a.start ∧ b.category = a.category := by
  cases rs with
  | nil =>
    unfold lay
    split_ifs <;> exact ⟨_, _, rfl, rfl, rfl⟩
  | cons b rs => exact ⟨a, _, rfl, rfl, rfl⟩

/-- Runs may be laid from either end. -/
theorem cons_lay (s : σ) (i : Nat) {r : Run σ} (hr : r.len ≠ 0) (rs : List (Run σ)) :
    cons s i (lay r rs) = lay r (cons s i rs) := by
  match rs with
  | [] =>
    simp only [lay, cons, if_neg hr]
    by_cases h : r.category = s
    · simp [h, Nat.add_comm]
    · simp [h, Ne.symm h]
  | [a] =>
    by_cases h : a.category = r.category <;> by_cases h' : a.category = s
    · simp [lay, cons, hr, ← h, h', Nat.add_right_comm]
    · simp [lay, cons, hr, h, h ▸ h']
    · simp [lay, cons, hr, h', h' ▸ h]
    · simp [lay, cons, hr, h, h']
  | a :: b :: rs =>
    by_cases h : a.category = s <;> simp [lay, cons, h]

/-- An empty run is not laid. -/
theorem lay_of_len_eq_zero {r : Run σ} (hr : r.len = 0) (rs : List (Run σ)) : lay r rs = rs := by
  match rs with
  | [] => exact if_pos hr
  | [a] => exact if_pos hr
  | a :: b :: rs => rw [lay, lay_of_len_eq_zero hr (b :: rs)]

/-- The run of one more byte is laid behind the runs of those before it. -/
theorem encode_concat (start : Nat) (l : List σ) (s : σ) :
    encode start (l ++ [s]) = lay ⟨start + l.length, 1, s⟩ (encode start l) := by
  induction l generalizing start with
  | nil => rfl
  | cons a l ih =>
    rw [List.cons_append, encode_cons, encode_cons, ih, cons_lay _ _ Nat.one_ne_zero,
      List.length_cons, Nat.add_right_comm, Nat.add_assoc]

/-- A run may be laid in two pieces. -/
theorem lay_lay (i n : Nat) (s : σ) (rs : List (Run σ)) :
    lay ⟨i + n, 1, s⟩ (lay ⟨i, n, s⟩ rs) = lay ⟨i, n + 1, s⟩ rs := by
  match rs with
  | [] => by_cases h : n = 0 <;> simp [lay, h]
  | [a] =>
    by_cases h : n = 0 <;> by_cases h' : a.category = s <;> simp [lay, h, h', Nat.add_assoc]
  | a :: b :: rs =>
    have ih := lay_lay i n s (b :: rs)
    obtain ⟨c, rest, hlay, -, -⟩ := lay_cons ⟨i, n, s⟩ b rs
    rw [hlay] at ih
    simp only [lay, hlay, ih]

/-- A whole run is laid behind the runs of what is before it. -/
theorem encode_append_replicate (start : Nat) (l : List σ) (n : Nat) (s : σ) :
    encode start (l ++ List.replicate n s) = lay ⟨start + l.length, n, s⟩ (encode start l) := by
  induction n with
  | zero => rw [List.replicate_zero, List.append_nil, lay_of_len_eq_zero rfl]
  | succ n ih =>
    rw [List.replicate_succ', ← List.append_assoc, encode_concat, ih, List.length_append,
      List.length_replicate, ← Nat.add_assoc, lay_lay]

/-- Laid where the others end, a run carries them on. -/
theorem Tiles.lay {lo hi : Nat} {rs : List (Run σ)} (h : Tiles lo rs hi) (n : Nat) (s : σ) :
    Tiles lo (lay ⟨hi, n, s⟩ rs) (hi + n) := by
  match rs with
  | [] =>
    obtain rfl : lo = hi := h
    by_cases hn : n = 0
    · simp [Run.lay, hn, Tiles]
    · simp [Run.lay, hn, Tiles, stop, Nat.pos_of_ne_zero hn]
  | [a] =>
    obtain ⟨hstart, hlen, hstop⟩ := h
    obtain rfl : a.stop = hi := hstop
    unfold Run.lay
    split_ifs with hn hcat
    · exact ⟨hstart, hlen, by simp [Tiles, show n = 0 from hn]⟩
    · exact ⟨hstart, Nat.add_pos_left hlen n, (Nat.add_assoc _ _ _).symm⟩
    · exact ⟨hstart, hlen, rfl, Nat.pos_of_ne_zero hn, rfl⟩
  | a :: b :: rs =>
    obtain ⟨hstart, hlen, hrest⟩ := h
    exact ⟨hstart, hlen, Tiles.lay hrest n s⟩

/-- What is laid behind runs that lie end to end leaves them as they are, but for the last one: that
one carries it on if it has the same category. -/
theorem Tiles.of_mem_lay {lo : Nat} {a r : Run σ} {rs : List (Run σ)} (h : Tiles lo rs a.start)
    (hr : r ∈ Run.lay a rs) :
    r ∈ rs ∨ r = a ∨
      ∃ b ∈ rs, b.stop = a.start ∧ b.category = a.category ∧ r = { b with len := b.len + a.len } := by
  match rs with
  | [] =>
    unfold Run.lay at hr
    split at hr
    · cases hr
    · exact .inr (.inl (List.mem_singleton.1 hr))
  | [b] =>
    obtain ⟨-, -, hstop⟩ := h
    unfold Run.lay at hr
    split_ifs at hr with hn hcat
    · exact .inl hr
    · exact .inr (.inr ⟨b, List.mem_singleton_self _, hstop, hcat, List.mem_singleton.1 hr⟩)
    · rcases List.mem_cons.1 hr with rfl | hr
      · exact .inl (List.mem_singleton_self _)
      · exact .inr (.inl (List.mem_singleton.1 hr))
  | b :: b' :: rs =>
    obtain ⟨-, -, hrest⟩ := h
    rcases List.mem_cons.1 hr with rfl | hr
    · exact .inl List.mem_cons_self
    · rcases hrest.of_mem_lay hr with hr | rfl | ⟨e, he, hr⟩
      · exact .inl (List.mem_cons_of_mem _ hr)
      · exact .inr (.inl rfl)
      · exact .inr (.inr ⟨e, List.mem_cons_of_mem _ he, hr⟩)

/-- Whatever becomes of the last run, it ends where what was laid does, in the same category. -/
theorem Tiles.mem_lay {lo : Nat} {a r : Run σ} {rs : List (Run σ)} (h : Tiles lo rs a.start)
    (hr : r ∈ Run.lay a rs) :
    r ∈ rs ∨ r.stop = a.stop ∧ r.category = a.category ∧ a.len ≤ r.len := by
  rcases h.of_mem_lay hr with hr | rfl | ⟨b, -, hstop, hcat, rfl⟩
  · exact .inl hr
  · exact .inr ⟨rfl, rfl, Nat.le_refl _⟩
  · refine .inr ⟨?_, hcat, Nat.le_add_left _ _⟩
    simp only [stop] at hstop ⊢
    omega

/-- Laid behind maximal runs, a run leaves them maximal. -/
theorem Maximal.lay {rs : List (Run σ)} (h : Maximal rs) (r : Run σ) : Maximal (lay r rs) := by
  unfold Maximal at h ⊢
  match rs with
  | [] =>
    unfold Run.lay
    split <;> simp
  | [a] =>
    unfold Run.lay
    split_ifs with hn hcat
    · exact h
    · exact .singleton _
    · simpa using hcat
  | a :: b :: rs =>
    obtain ⟨hne, hrest⟩ := List.isChain_cons_cons.1 h
    have ih := Maximal.lay hrest r
    obtain ⟨c, rest, hlay, -, hcat⟩ := lay_cons r b rs
    unfold Maximal at ih
    rw [hlay] at ih
    rw [Run.lay, hlay]
    exact List.isChain_cons_cons.2 ⟨hcat ▸ hne, ih⟩

/-- The runs of a list of categories lie end to end. -/
theorem tiles_encode (start : Nat) (l : List σ) :
    Tiles start (encode start l) (start + l.length) := by
  induction l using List.reverseRecOn with
  | nil => rfl
  | append_singleton l s ih =>
    rw [encode_concat, List.length_append, List.length_singleton, ← Nat.add_assoc]
    exact ih.lay 1 s

/-- No two neighbours among them have the same category. -/
theorem maximal_encode (start : Nat) (l : List σ) : Maximal (encode start l) := by
  induction l using List.reverseRecOn with
  | nil => exact .nil
  | append_singleton l s ih =>
    rw [encode_concat]
    exact ih.lay _

end Lay

/-! ### Runs that lie end to end -/

/-- What no run covers is not painted. -/
theorem getElem?_paint_of_not_covers {rs : List (Run σ)} {i : Nat} (h : ∀ r ∈ rs, ¬r.Covers i)
    (a : Styles σ) : (a.paint rs)[i]? = a[i]? := by
  induction rs generalizing a with
  | nil => rfl
  | cons r rs ih =>
    obtain ⟨hr, hrest⟩ := List.forall_mem_cons.1 h
    rw [Styles.paint_cons_run, ih hrest, Styles.getElem?_paintRun,
      if_neg fun hi => hr ⟨hi.1, hi.2.1⟩]

namespace Tiles

variable {lo hi i : Nat} {r r' : Run σ} {rs : List (Run σ)}

theorem le (h : Tiles lo rs hi) : lo ≤ hi := by
  induction rs generalizing lo with
  | nil => exact Nat.le_of_eq h
  | cons r rs ih =>
    obtain ⟨rfl, -, hrest⟩ := h
    exact Nat.le_trans (Nat.le_add_right _ _) (ih hrest)

/-- Every run lies within the whole. -/
theorem mem (h : Tiles lo rs hi) (hr : r ∈ rs) : lo ≤ r.start ∧ 0 < r.len ∧ r.stop ≤ hi := by
  induction rs generalizing lo with
  | nil => simp at hr
  | cons a rs ih =>
    obtain ⟨rfl, hlen, hrest⟩ := h
    rcases List.mem_cons.1 hr with rfl | hr
    · exact ⟨Nat.le_refl _, hlen, hrest.le⟩
    · obtain ⟨hstart, hlen', hstop⟩ := ih hrest hr
      exact ⟨Nat.le_trans (Nat.le_add_right _ _) hstart, hlen', hstop⟩

/-- A run begins where the whole does or where another one ends. -/
theorem exists_before (h : Tiles lo rs hi) (hr : r ∈ rs) :
    r.start = lo ∨ ∃ r' ∈ rs, r'.stop = r.start := by
  induction rs generalizing lo with
  | nil => simp at hr
  | cons a rs ih =>
    obtain ⟨rfl, -, hrest⟩ := h
    rcases List.mem_cons.1 hr with rfl | hr
    · exact .inl rfl
    · right
      rcases ih hrest hr with hstart | ⟨r', hr', hstop⟩
      · exact ⟨a, List.mem_cons_self, hstart.symm⟩
      · exact ⟨r', List.mem_cons_of_mem _ hr', hstop⟩

/-- Every offset within the whole is covered. -/
theorem exists_covers (h : Tiles lo rs hi) (hlo : lo ≤ i) (hhi : i < hi) :
    ∃ r ∈ rs, r.Covers i := by
  induction rs generalizing lo with
  | nil =>
    obtain rfl : lo = hi := h
    omega
  | cons a rs ih =>
    obtain ⟨rfl, -, hrest⟩ := h
    by_cases hi' : i < a.stop
    · exact ⟨a, List.mem_cons_self, hlo, hi'⟩
    · obtain ⟨r, hr, hcovers⟩ := ih hrest (Nat.le_of_not_lt hi')
      exact ⟨r, List.mem_cons_of_mem _ hr, hcovers⟩

/-- No offset is covered twice. -/
theorem covers_unique (h : Tiles lo rs hi) (hr : r ∈ rs) (hr' : r' ∈ rs) (hi : r.Covers i)
    (hi' : r'.Covers i) : r = r' := by
  induction rs generalizing lo with
  | nil => simp at hr
  | cons a rs ih =>
    obtain ⟨rfl, -, hrest⟩ := h
    -- what comes behind the first run begins where that one ends
    have hbehind : ∀ {b : Run σ}, b ∈ rs → b.Covers i → ¬a.Covers i := fun hb hcovers ha =>
      absurd (Nat.lt_of_lt_of_le ha.2 (hrest.mem hb).1) (Nat.not_lt.2 hcovers.1)
    rcases List.mem_cons.1 hr with hr | hr <;> rcases List.mem_cons.1 hr' with hr' | hr'
    · rw [hr, hr']
    · exact absurd (hr ▸ hi) (hbehind hr' hi')
    · exact absurd (hr' ▸ hi') (hbehind hr hi)
    · exact ih hrest hr hr'

/-- Every byte is painted in the category of the run that covers it. -/
theorem getElem?_paint (h : Tiles lo rs hi) (hr : r ∈ rs) (hi : r.Covers i) {a : Styles σ}
    (hsize : i < a.size) : (a.paint rs)[i]? = some r.category := by
  induction rs generalizing lo a with
  | nil => simp at hr
  | cons b rs ih =>
    obtain ⟨rfl, -, hrest⟩ := h
    rw [Styles.paint_cons_run]
    rcases List.mem_cons.1 hr with rfl | hr
    · have hbehind : ∀ r' ∈ rs, ¬r'.Covers i := fun r' hr' hi' =>
        absurd (Nat.lt_of_lt_of_le hi.2 (hrest.mem hr').1) (Nat.not_lt.2 hi'.1)
      rw [getElem?_paint_of_not_covers hbehind, Styles.getElem?_paintRun,
        if_pos ⟨hi.1, hi.2, hsize⟩]
    · exact ih hrest hr (by rwa [Styles.size_paintRun])

end Tiles

end Run

end Highlight
