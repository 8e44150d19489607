import Highlight.Fold.Outline
import Mathlib.Data.List.Chain
import Mathlib.Data.List.TakeWhile

/-!
Which section a line lies in. A plain line lies one deeper than the nearest heading above it, and a
maximal run of comment lines where the heading directly behind it stands, or else where a plain line
would. Folding by headings walks over the lines with the level of plain lines and, within a run, the
level of its further lines; said line by line, the fold levels are those (`levels_by_sections`). The
same walk may take a run of comment lines at once: these stretches are the lines again, each one
once.
-/

namespace Highlight

namespace FoldLevel

/-- The fold level of a line, from the list of the levels at which lines start. -/
theorem getElem?_ofStarts {last : Nat} {states : List LineState} {starts : List Nat} {i : Nat}
    {f : FoldLevel} (h : (ofStarts last states starts)[i]? = some f) :
    ∃ s start, states[i]? = some s ∧ starts[i]? = some start ∧
      f = between start (starts[i + 1]?.getD last) s.flags.blank := by
  induction states generalizing starts i with
  | nil => simp [ofStarts] at h
  | cons s states ih =>
    cases starts with
    | nil => simp [ofStarts] at h
    | cons start starts =>
      rw [ofStarts] at h
      cases i with
      | zero => exact ⟨s, start, rfl, rfl, by simpa [List.head?_eq_getElem?] using h.symm⟩
      | succ i => exact ih h

theorem length_ofStarts {last : Nat} {states : List LineState} {starts : List Nat}
    (h : starts.length = states.length) : (ofStarts last states starts).length = states.length := by
  induction states generalizing starts with
  | nil => simp [ofStarts]
  | cons s states ih =>
    cases starts with
    | nil => simp at h
    | cons start starts =>
      rw [ofStarts, List.length_cons, List.length_cons, ih (by simpa using h)]

/-- Levels that may be reported are reported as they are. -/
theorem between_eq {start stop : Nat} (hstart : start ≤ greatest) (hstop : stop ≤ greatest)
    (blank : Bool) : between start stop blank = ⟨start, stop, start < stop, blank⟩ := by
  rw [between, Nat.min_eq_left hstart, Nat.min_eq_left hstop]

end FoldLevel

namespace Outline

open FoldLevel

/-! ### Headings and runs of comments -/

/-- The level of a plain line at a place: one more than the nearest heading above has, and `0` if
there is none. -/
inductive PlainLevel (store : LineStore) (i : Nat) : Nat → Prop where
  | top (h : ∀ k < i, (store.state k).headingLevel? = none) : PlainLevel store i 0
  | below {k n : Nat} (hk : k < i) (h : (store.state k).headingLevel? = some n)
    (hnone : ∀ j, k < j → j < i → (store.state j).headingLevel? = none) :
    PlainLevel store i (n + 1)

/-- The lines from `i` to before `j` are a maximal run of comment lines that are not headings, among
the first `count` lines. -/
structure CommentRun (store : LineStore) (count i j : Nat) : Prop where
  lt : i < j
  le : j ≤ count
  comments : ∀ k, i ≤ k → k < j → isComment (store.state k) = true
  /-- The line before is none of them. -/
  before : ∀ k, k + 1 = i → isComment (store.state k) = false
  /-- Neither is the line behind. -/
  behind : j < count → isComment (store.state j) = false

instance (store : LineStore) (count i j : Nat) : Decidable (CommentRun store count i j) :=
  decidable_of_iff
    (i < j ∧ j ≤ count ∧ (∀ k < j, i ≤ k → isComment (store.state k) = true) ∧
      (∀ k < i, k + 1 = i → isComment (store.state k) = false) ∧
      (j < count → isComment (store.state j) = false))
    ⟨fun ⟨hlt, hle, hall, hbefore, hbehind⟩ =>
      ⟨hlt, hle, fun k hi hk => hall k hk hi, fun k hk => hbefore k (by omega) hk, hbehind⟩,
      fun h => ⟨h.lt, h.le, fun k hk hi => h.comments k hi hk, fun k _ hk => h.before k hk,
        h.behind⟩⟩

/-- What the headings and the comments say of the fold level of a line, among the fold levels of all
lines. -/
structure Places (store : LineStore) (levels : List FoldLevel) (i : Nat) (f : FoldLevel) :
    Prop where
  heading : ∀ n, (store.state i).headingLevel? = some n → f.start = n
  plain : (store.state i).headingLevel? = none → (store.state i).flags.comment = false →
    PlainLevel store i f.start
  /-- A run of comments starts where the heading behind it does. -/
  run_above : ∀ j n, CommentRun store levels.length i j → j < levels.length →
    (store.state j).headingLevel? = some n → f.start = n
  /-- If there is none, it starts where a plain line would. -/
  run : ∀ j, CommentRun store levels.length i j →
    (j < levels.length → (store.state j).headingLevel? = none) → PlainLevel store i f.start
  /-- Its other lines start one deeper than the first. -/
  run_inner : ∀ j k f', CommentRun store levels.length i j → i < k → k < j →
    levels[k]? = some f' → f'.start = f.start + 1
  stop : ∀ f', levels[i + 1]? = some f' → f.stop = f'.start
  stop_end : i + 1 = levels.length → f.stop = f.start
  header : f.header = true ↔ f.start < f.stop

/-! ### The stretches of a walk -/

/-- What a walk over the lines takes at once: a line, and behind a comment line the further ones of
its run. -/
structure Stretch where
  first : LineState
  inner : List LineState

/-- The lines of a stretch. -/
def Stretch.lines (st : Stretch) : List LineState := st.first :: st.inner

/-- The stretches of a list of lines. -/
def stretches : List LineState → List Stretch
  | [] => []
  | s :: rest =>
    if isComment s then ⟨s, rest.takeWhile isComment⟩ :: stretches (rest.dropWhile isComment)
    else ⟨s, []⟩ :: stretches rest
termination_by states => states.length
decreasing_by
  · exact Nat.lt_succ_of_le (List.dropWhile_suffix isComment).length_le
  · exact Nat.lt_succ_self _

/-- The levels at which the lines of stretches start, from the level of plain lines. -/
def startsBy (body : Nat) : List Stretch → List Nat
  | [] => []
  | st :: rest =>
    match st.first.headingLevel? with
    | some n => n :: startsBy (n + 1) rest
    | none =>
      if st.first.flags.comment then
        let level := (rest.head?.bind (·.first.headingLevel?)).getD body
        level :: st.inner.map (fun _ => level + 1) ++ startsBy body rest
      else body :: startsBy body rest

/-- Stretches tile a list of lines: they are the lines again, only comments are taken together, and
no run of comments is cut. -/
structure Tiles (L : List Stretch) (states : List LineState) : Prop where
  lines : L.flatMap Stretch.lines = states
  alike : ∀ st ∈ L, ∀ s ∈ st.inner, isComment st.first = true ∧ isComment s = true
  maximal : L.IsChain fun st st' => isComment st.first = true → isComment st'.first = false

variable {store : LineStore} {count i j k n m : Nat}

theorem isComment_iff {s : LineState} :
    isComment s = true ↔ s.headingLevel? = none ∧ s.flags.comment = true := by
  simp [isComment, LineState.headingLevel?, and_comm]

theorem head?_stretches (states : List LineState) :
    (stretches states).head?.map Stretch.first = states.head? := by
  cases states with
  | nil => simp [stretches]
  | cons s rest =>
    rw [stretches]
    split <;> rfl

/-- Behind a run of comments the next stretch is none. -/
theorem isComment_first_of_head? {states : List LineState} {st : Stretch}
    (h : (stretches (states.dropWhile isComment)).head? = some st) :
    isComment st.first = false := by
  have hhead := head?_stretches (states.dropWhile isComment)
  rw [h, Option.map_some, ← List.find?_not_eq_head?_dropWhile] at hhead
  simpa using List.find?_some hhead.symm

/-- **Every line is in one stretch.** -/
theorem tiles_stretches (states : List LineState) : Tiles (stretches states) states := by
  induction states using stretches.induct with
  | case1 => exact ⟨by simp [stretches], by simp [stretches], by simp [stretches]⟩
  | case2 s rest hs ih =>
    rw [stretches, if_pos hs]
    refine ⟨?_, ?_, ih.maximal.cons fun st hst _ => isComment_first_of_head? hst⟩
    · rw [List.flatMap_cons, ih.lines, Stretch.lines, List.cons_append,
        List.takeWhile_append_dropWhile]
    · rintro st hst s' hs'
      rcases List.mem_cons.1 hst with rfl | hst
      · exact ⟨hs, List.mem_takeWhile_imp hs'⟩
      · exact ih.alike st hst s' hs'
  | case3 s rest hs ih =>
    rw [stretches, if_neg hs]
    refine ⟨?_, ?_, ih.maximal.cons fun st _ hfirst => absurd hfirst hs⟩
    · rw [List.flatMap_cons, ih.lines, Stretch.lines, List.singleton_append]
    · rintro st hst s' hs'
      rcases List.mem_cons.1 hst with rfl | hst
      · cases hs'
      · exact ih.alike st hst s' hs'

/-- Within a run the walk gives every line the same level. -/
theorem startsFrom_some (body level : Nat) (states : List LineState) :
    startsFrom body (some level) states =
      (states.takeWhile isComment).map (fun _ => level) ++
        startsFrom body none (states.dropWhile isComment) := by
  induction states with
  | nil => rfl
  | cons s rest ih =>
    cases hs : isComment s with
    | true =>
      obtain ⟨hnone, hcomment⟩ := isComment_iff.1 hs
      simp [startsFrom, hs, hnone, hcomment, ih]
    | false =>
      -- a line that ends the run is taken no other way than behind any line
      rw [List.takeWhile_cons_of_neg (by simp [hs]), List.dropWhile_cons_of_neg (by simp [hs]),
        List.map_nil, List.nil_append]
      cases hheading : s.headingLevel? with
      | some n => simp [startsFrom, hheading]
      | none =>
        have hcomment : s.flags.comment = false :=
          Bool.eq_false_iff.2 fun h => by simp [isComment_iff.2 ⟨hheading, h⟩] at hs
        simp [startsFrom, hheading, hcomment]

/-- The walk line by line is the walk by stretches. -/
theorem startsFrom_eq_startsBy (body : Nat) (states : List LineState) :
    startsFrom body none states = startsBy body (stretches states) := by
  induction states using stretches.induct generalizing body with
  | case1 => simp [startsFrom, startsBy, stretches]
  | case2 s rest hs ih =>
    obtain ⟨hnone, hcomment⟩ := isComment_iff.1 hs
    have hheading : (stretches (rest.dropWhile isComment)).head?.bind (·.first.headingLevel?) =
        headingAfterComments rest := by
      rw [headingAfterComments, ← head?_stretches, Option.bind_map]
      rfl
    rw [stretches, if_pos hs]
    simp [startsFrom, startsBy, hnone, hcomment, hheading, startsFrom_some, ih]
  | case3 s rest hs ih =>
    rw [stretches, if_neg hs]
    cases hheading : s.headingLevel? with
    | some n => simp [startsFrom, startsBy, hheading, ih]
    | none =>
      have hcomment : s.flags.comment = false :=
        Bool.eq_false_iff.2 fun h => hs (isComment_iff.2 ⟨hheading, h⟩)
      simp [startsFrom, startsBy, hheading, hcomment, ih]

/-! ### The walk, line by line -/

/-- The level of plain lines at a line. -/
def bodyAt (store : LineStore) : Nat → Nat
  | 0 => 0
  | i + 1 => ((store.state i).headingLevel?.map (· + 1)).getD (bodyAt store i)

/-- The level at which a run of comments starts. -/
def runLevel (store : LineStore) (count i : Nat) : Nat :=
  (headingAfterComments ((List.range' (i + 1) (count - (i + 1))).map store.state)).getD
    (bodyAt store i)

/-- The level of the further lines of a run of comments, if the line before is in one. -/
def innerAt (store : LineStore) (count : Nat) : Nat → Option Nat
  | 0 => none
  | i + 1 =>
    if isComment (store.state i) then
      some ((innerAt store count i).getD (runLevel store count i + 1))
    else none

/-- The level at which a line starts. -/
def startAt (store : LineStore) (count i : Nat) : Nat :=
  match (store.state i).headingLevel? with
  | some n => n
  | none =>
    if (store.state i).flags.comment then (innerAt store count i).getD (runLevel store count i)
    else bodyAt store i

theorem startsFrom_range (h : n + m = count) :
    startsFrom (bodyAt store n) (innerAt store count n) ((List.range' n m).map store.state) =
      (List.range' n m).map (startAt store count) := by
  induction m generalizing n with
  | zero => rfl
  | succ m ih =>
    have ih := ih (n := n + 1) (by omega)
    rw [bodyAt, innerAt] at ih
    rw [List.range'_succ, List.map_cons, List.map_cons, startAt]
    cases hheading : (store.state n).headingLevel? with
    | some level =>
      have hcomment : isComment (store.state n) = false :=
        Bool.eq_false_iff.2 fun h => by simp [(isComment_iff.1 h).1] at hheading
      simpa [startsFrom, hheading, hcomment] using ih
    | none =>
      cases hcomment : (store.state n).flags.comment with
      | false =>
        have hcomment' : isComment (store.state n) = false := by simp [isComment, hcomment]
        simpa [startsFrom, hheading, hcomment, hcomment'] using ih
      | true =>
        have hcomment' := isComment_iff.2 ⟨hheading, hcomment⟩
        have hlevel : (headingAfterComments ((List.range' (n + 1) m).map store.state)).getD
            (bodyAt store n) = runLevel store count n := by
          rw [runLevel, show count - (n + 1) = m by omega]
        cases hinner : innerAt store count n <;>
          simpa [startsFrom, hheading, hcomment, hcomment', hinner, hlevel] using ih

/-! ### What the walk finds -/

/-- The walk keeps the level of plain lines. -/
theorem plainLevel_bodyAt (i : Nat) : PlainLevel store i (bodyAt store i) := by
  induction i with
  | zero => exact .top fun k hk => absurd hk (Nat.not_lt_zero k)
  | succ i ih =>
    rw [bodyAt]
    cases hheading : (store.state i).headingLevel? with
    | some n => exact .below (Nat.lt_succ_self i) hheading fun j hij hj => by omega
    | none =>
      have hlast : ∀ k, k < i + 1 → k < i ∨ (store.state k).headingLevel? = none := fun k hk =>
        (Nat.lt_succ_iff_lt_or_eq.1 hk).imp id fun heq => by rw [heq, hheading]
      rw [Option.map_none, Option.getD_none]
      revert ih
      generalize bodyAt store i = level
      rintro (htop | ⟨hk, hsome, hnone⟩)
      · exact .top fun k hk => (hlast k hk).elim (htop k) id
      · exact .below (Nat.lt_succ_of_lt hk) hsome fun j hkj hj => (hlast j hj).elim (hnone j hkj) id

namespace CommentRun

theorem innerAt_first (h : CommentRun store count i j) : innerAt store count i = none := by
  cases i with
  | zero => rfl
  | succ i => rw [innerAt, h.before i rfl, if_neg Bool.false_ne_true]

/-- Behind the first line of a run the walk knows where its lines start. -/
theorem innerAt_succ (h : CommentRun store count i j) (hi : i ≤ k) (hk : k < j) :
    innerAt store count (k + 1) = some (runLevel store count i + 1) := by
  induction k, hi using Nat.le_induction with
  | base => rw [innerAt, h.comments i (Nat.le_refl i) h.lt, h.innerAt_first, if_pos rfl]; rfl
  | succ k hi ih =>
    rw [innerAt, ih (by omega), h.comments (k + 1) (by omega) hk, if_pos rfl, Option.getD_some]

theorem startAt_first (h : CommentRun store count i j) :
    startAt store count i = runLevel store count i := by
  have hfirst := isComment_iff.1 (h.comments i (Nat.le_refl i) h.lt)
  rw [startAt, hfirst.1, hfirst.2, if_pos rfl, h.innerAt_first, Option.getD_none]

theorem startAt_inner (h : CommentRun store count i j) (hi : i < k) (hk : k < j) :
    startAt store count k = startAt store count i + 1 := by
  have hline := isComment_iff.1 (h.comments k (Nat.le_of_lt hi) hk)
  have hinner := h.innerAt_succ (k := k - 1) (by omega) (by omega)
  rw [Nat.sub_add_cancel (by omega)] at hinner
  rw [h.startAt_first, startAt, hline.1, hline.2, if_pos rfl, hinner, Option.getD_some]

/-- What the walk sees behind the comments of a run. -/
theorem headingAfterComments_eq (h : CommentRun store count i j) :
    headingAfterComments ((List.range' (i + 1) (count - (i + 1))).map store.state) =
      if j < count then (store.state j).headingLevel? else none := by
  have hlt := h.lt
  have hle := h.le
  have hrun : ∀ s ∈ (List.range' (i + 1) (j - (i + 1))).map store.state, isComment s = true := by
    intro s hs
    obtain ⟨k, hk, rfl⟩ := List.mem_map.1 hs
    rw [List.mem_range'_1] at hk
    exact h.comments k (by omega) (by omega)
  have hsplit : List.range' (i + 1) (count - (i + 1)) =
      List.range' (i + 1) (j - (i + 1)) ++ List.range' j (count - j) := by
    rw [show count - (i + 1) = j - (i + 1) + (count - j) by omega, ← List.range'_append_1,
      show i + 1 + (j - (i + 1)) = j by omega]
  rw [headingAfterComments, hsplit, List.map_append, List.dropWhile_append_of_pos hrun]
  split
  case isTrue hj =>
    rw [show count - j = count - j - 1 + 1 by omega, List.range'_succ, List.map_cons,
      List.dropWhile_cons_of_neg (by simp [h.behind hj]), List.head?_cons, Option.bind_some]
  case isFalse hj => simp [show count - j = 0 by omega]

end CommentRun

/-! ### Levels -/

theorem headingLevel?_le {s : LineState} (h : s.headingLevel? = some n) :
    n ≤ LineState.maxDepth := by
  obtain ⟨-, rfl⟩ : s.flags.heading = true ∧ s.depth.toNat = n := by
    simpa [LineState.headingLevel?] using h
  exact Nat.le_of_lt_succ s.depth.toNat_lt

theorem bodyAt_le (store : LineStore) (i : Nat) : bodyAt store i ≤ LineState.maxDepth + 1 := by
  induction i with
  | zero => exact Nat.zero_le _
  | succ i ih =>
    rw [bodyAt]
    cases hheading : (store.state i).headingLevel? with
    | some n => exact Nat.succ_le_succ (headingLevel?_le hheading)
    | none => exact ih

theorem runLevel_le (store : LineStore) (count i : Nat) :
    runLevel store count i ≤ LineState.maxDepth + 1 := by
  rw [runLevel]
  cases hheading :
    headingAfterComments ((List.range' (i + 1) (count - (i + 1))).map store.state) with
  | none => exact bodyAt_le store i
  | some n =>
    obtain ⟨s, -, hs⟩ := Option.bind_eq_some_iff.1 hheading
    exact Nat.le_succ_of_le (headingLevel?_le hs)

theorem innerAt_le (store : LineStore) (count i : Nat) :
    ∀ n ∈ innerAt store count i, n ≤ LineState.maxDepth + 2 := by
  induction i with
  | zero => rintro n ⟨⟩
  | succ i ih =>
    have hlevel := runLevel_le store count i
    rw [innerAt]
    cases hinner : innerAt store count i <;> split <;> rintro n ⟨⟩
    · exact Nat.succ_le_succ hlevel
    · exact ih _ hinner

/-- No line starts deeper than is reported. -/
theorem startAt_le (store : LineStore) (count i : Nat) : startAt store count i ≤ greatest := by
  have hbound : LineState.maxDepth + 2 ≤ greatest := by decide
  refine Nat.le_trans ?_ hbound
  have hbody := bodyAt_le store i
  have hlevel := runLevel_le store count i
  rw [startAt]
  split
  case h_1 n hheading => exact Nat.le_trans (headingLevel?_le hheading) (by omega)
  case h_2 =>
    split
    case isTrue =>
      cases hinner : innerAt store count i with
      | none => exact Nat.le_succ_of_le hlevel
      | some n => exact innerAt_le store count i n hinner
    case isFalse => exact Nat.le_succ_of_le hbody

/-- The levels at which the first lines of a store start. -/
theorem startsFrom_statesOf (store : LineStore) (count : Nat) :
    startsFrom 0 none (statesOf store count) = (List.range count).map (startAt store count) := by
  rw [statesOf, List.range_eq_range']
  exact startsFrom_range (Nat.zero_add count)

theorem length_levels (store : LineStore) (count : Nat) : (levels store count).length = count := by
  have hlen : (statesOf store count).length = count := by
    rw [statesOf, List.length_map, List.length_range]
  have hstarts : (startsFrom 0 none (statesOf store count)).length = count := by
    rw [startsFrom_statesOf, List.length_map, List.length_range]
  rw [levels, length_ofStarts (hstarts.trans hlen.symm), hlen]

/-- The fold level of a line, by where it and the next line start; the last line ends where it
starts. -/
theorem getElem?_levels {f : FoldLevel} (h : (levels store count)[i]? = some f) :
    i < count ∧ f.start = startAt store count i ∧
      f.stop = startAt store count (if i + 1 < count then i + 1 else i) ∧
      (f.header = true ↔ f.start < f.stop) := by
  have hi : i < count := by
    rw [← length_levels store count]
    exact (List.getElem?_eq_some_iff.1 h).1
  obtain ⟨s, start, hs, hstart, rfl⟩ := getElem?_ofStarts h
  have hlast : ((startsFrom 0 none (statesOf store count))[i + 1]?).getD
      ((startsFrom 0 none (statesOf store count)).getLastD 0) =
        startAt store count (if i + 1 < count then i + 1 else i) := by
    rw [startsFrom_statesOf]
    split
    case isTrue hlt => simp [hlt]
    case isFalse hlt =>
      obtain rfl : count = i + 1 := by omega
      simp [List.range_succ, List.getLastD_eq_getLast?]
  obtain rfl : startAt store count i = start := by
    simpa [startsFrom_statesOf, hi] using hstart
  rw [hlast, between_eq (startAt_le store count _) (startAt_le store count _)]
  exact ⟨hi, rfl, rfl, decide_eq_true_iff⟩

/-- **Lines fold by the headings above them.** The walk line by line is the walk by stretches, and
these tile the lines. -/
theorem levels_by_sections (store : LineStore) (count : Nat) :
    (levels store count).length = count ∧
      Tiles (stretches (statesOf store count)) (statesOf store count) ∧
      startsFrom 0 none (statesOf store count) = startsBy 0 (stretches (statesOf store count)) ∧
      ∀ i f, (levels store count)[i]? = some f → Places store (levels store count) i f := by
  refine ⟨length_levels store count, tiles_stretches _, startsFrom_eq_startsBy 0 _,
    fun i f hf => ?_⟩
  obtain ⟨hi, hstart, hstop, hheader⟩ := getElem?_levels hf
  refine ⟨fun n hheading => ?_, fun hheading hcomment => ?_, fun j n hrun hj hheading => ?_,
    fun j hrun hnone => ?_, fun j k f' hrun hik hkj hf' => ?_, fun f' hf' => ?_, fun hlast => ?_,
    hheader⟩
  · rw [hstart, startAt, hheading]
  · rw [hstart, startAt, hheading, hcomment]
    exact plainLevel_bodyAt i
  · rw [length_levels] at hrun hj
    rw [hstart, hrun.startAt_first, runLevel, hrun.headingAfterComments_eq, if_pos hj, hheading,
      Option.getD_some]
  · rw [length_levels] at hrun hnone
    have hheading : (if j < count then (store.state j).headingLevel? else none) = none := by
      split
      case isTrue hj => exact hnone hj
      case isFalse => rfl
    rw [hstart, hrun.startAt_first, runLevel, hrun.headingAfterComments_eq, hheading]
    exact plainLevel_bodyAt i
  · rw [length_levels] at hrun
    rw [hstart, (getElem?_levels hf').2.1, hrun.startAt_inner hik hkj]
  · obtain ⟨hlt, hstart', -⟩ := getElem?_levels hf'
    rw [hstop, if_pos hlt, hstart']
  · rw [length_levels] at hlast
    rw [hstop, if_neg (by omega), hstart]

/-- The comments at the top belong to the heading below them, and so does the one above the line
that is a heading and a comment; the last run starts where a plain line would. -/
theorem levels_by_sections_run :
    let line := fun (flags : LineFlags) depth => (LineState.of flags depth 0).encode
    let comment := line { comment := true } 0
    let store : LineStore := #[comment, comment, line { heading := true } 2, line {} 0, comment,
      line { heading := true, comment := true } 1, comment, comment, line {} 0]
    (levels store 9).map FoldLevel.start = [2, 3, 2, 3, 1, 1, 2, 3, 2] ∧
      (levels store 9)[6]? = some ⟨2, 3, true, false⟩ ∧
      Places store (levels store 9) 6 ⟨2, 3, true, false⟩ ∧ CommentRun store 9 6 8 ∧
      CommentRun store 9 4 5 := by
  intro line comment store
  have h : (levels store 9)[6]? = some ⟨2, 3, true, false⟩ := by decide +kernel
  obtain ⟨-, -, -, hplaces⟩ := levels_by_sections store 9
  exact ⟨by decide +kernel, h, hplaces 6 _ h, by decide +kernel, by decide +kernel⟩

end Outline

end Highlight
