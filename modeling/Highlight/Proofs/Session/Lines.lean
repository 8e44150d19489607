import Highlight.Proofs.Session.Exact

/-!
One line of two texts. If the scans of two texts begin a line abreast, and the line is the same in
both, they find the same in it (`Abreast.same_line`), whatever stands before it and behind it.
-/

namespace Highlight

open Byte

variable {σ ζ : Type} [Palette σ] [DecidableEq σ]

namespace Pass

variable {g : Grammar σ ζ} {r : Regime σ ζ} {text a b l u u' : Text} {p p' q q' P P' : Pass σ ζ}

/-- The scan of the text begins the line behind `a` in the pass `q`. -/
structure Begins (g : Grammar σ ζ) (r : Regime σ ζ) (a : Text) (text : Text) (q : Pass σ ζ) :
    Prop where
  reached : ∃ n, n + q.cost ≤ (first g text).cost ∧ (first g text).run g n = q
  sound : q.Sound g r text
  crosses : r.crosses q.cursor.state = true
  idle : q.rescans = 0
  prev : q.cursor.prev.getD newline = newline
  split : text = a ++ q.cursor.ahead

theorem ComesBy.begins (h : ComesBy g r text q) (hsplit : text = a ++ q.cursor.ahead) :
    Begins g r a text q :=
  ⟨h.reached, h.sound, h.atLineStart.crosses, h.idle, by rw [h.prev, Option.getD_some], hsplit⟩

/-- Of all that the scan of a text finds, the pass has found a part by now. -/
structure Finds (g : Grammar σ ζ) (text : Text) (p : Pass σ ζ) : Prop where
  spent : ∃ y, (fresh g text).cursor.spent = y ++ p.cursor.spent
  ended : ∃ e, (fresh g text).ended = e ++ p.ended

theorem Finds.all (g : Grammar σ ζ) (text : Text) : Finds g text (fresh g text) :=
  ⟨⟨[], rfl⟩, [], rfl⟩

theorem ComesBy.finds (hg : g.Keeps r) (h : ComesBy g r text q) : Finds g text q :=
  ⟨(h.stays hg).1, (h.stays hg).2⟩

namespace Begins

theorem behind (h : Begins g r a text q) :
    ∃ old, q.cursor.Follows r.toConduct text old ∧ old ++ q.cursor.word.reverse = a := by
  obtain ⟨old, hf⟩ := h.sound.follows
  have hsplit := h.split
  subst hsplit
  exact ⟨old, hf, hf.behind_eq⟩

theorem line (h : Begins g r a text q) : q.cursor.line = a.count newline := by
  obtain ⟨old, hf, ha⟩ := h.behind
  rw [hf.line, ha]

theorem length_spent (h : Begins g r a text q) : q.cursor.spent.length = a.length := by
  obtain ⟨old, hf, ha⟩ := h.behind
  rw [← List.length_reverse, ← Cursor.passed_eq, hf.length_passed, hf.pos, ha]

/-- No line is left open before a line that begins. -/
theorem unended (h : Begins g r a text q) : a.unended = false := by
  obtain ⟨old, hf, ha⟩ := h.behind
  have hprev := h.prev
  rw [hf.prev, ha] at hprev
  cases hlast : a.getLast? with
  | none => simp [List.getLast?_eq_none_iff.1 hlast, Text.unended]
  | some b => exact Text.unended_of_newline (by simpa [hlast] using hprev)

theorem cost_eq (h : Begins g r a (a ++ (l ++ u)) q) :
    q.cost = (maxRescans + 1) * l.length + (maxRescans + 1) * u.length := by
  have ha : q.cursor.ahead = l ++ u := List.append_cancel_left h.split.symm
  rw [cost, h.idle, ha, List.length_append, Nat.mul_add, Nat.sub_zero]

/-- Behind the line that it begins, if a newline closes it, the scan comes by. -/
theorem comesBy (hg : g.Keeps r) (h : Begins g r a (a ++ (l ++ u)) q)
    (hl : l.getLast? = some newline) {n : Nat} (hn : n ≤ (maxRescans + 1) * l.length)
    (ha : (q.run g n).cursor.ahead = u) (hr : u = [] ∨ (q.run g n).rescans = 0) :
    ComesBy g r (a ++ (l ++ u)) (q.run g n) := by
  obtain ⟨m, hm, hq⟩ := h.reached
  have hs := h.sound.run hg n
  have hprev : (q.run g n).cursor.prev = some newline := by
    obtain ⟨old, hf⟩ := hs.follows
    subst ha
    rw [← List.append_assoc] at hf
    rw [hf.prev, hf.behind_eq, List.getLast?_append, hl, Option.some_or]
  have hcost : n + (q.run g n).cost ≤ q.cost := by
    rw [h.cost_eq, cost, ha]
    omega
  refine ⟨⟨m + n, by omega, by rw [run_add, hq]⟩, hs, ?_, hprev⟩
  rcases hr with hu | hr
  · exact hs.idle (ha.trans hu) hprev
  · exact hr

/-- A scan that has come to the end of its last line has found all there is to find. -/
theorem finish_eq (h : Begins g r a (a ++ (l ++ [])) q) {n : Nat}
    (hn : n ≤ (maxRescans + 1) * l.length) (ha : (q.run g n).cursor.ahead = []) :
    (q.run g n).finish g (a ++ (l ++ [])).unended = fresh g (a ++ (l ++ [])) := by
  obtain ⟨m, hm, hq⟩ := h.reached
  have hcost := h.cost_eq
  have hrun : (first g (a ++ (l ++ []))).run g (m + n) = q.run g n := by rw [run_add, hq]
  have e : (first g (a ++ (l ++ []))).run g (first g (a ++ (l ++ []))).cost = q.run g n :=
    (run_of_le g (hrun ▸ ha) (by omega)).trans hrun
  rw [fresh_eq, e]

end Begins

/-! ### Through the line -/

omit [DecidableEq σ] in
theorem origin_settle (q : Pass σ ζ) (u : Text) : (q.settle r).origin u = q.origin u := by
  unfold settle
  split
  · rfl
  · rw [origin, origin, Cursor.spent_switch]
    rfl

/-- Two scans that begin the same line, abreast once what they were in the middle of is left, come
alike to its end. -/
theorem Abreast.run_line (hg : g.Keeps r) (h : Abreast r (q.settle r) (q'.settle r))
    (hq : Begins g r a (a ++ (l ++ u)) q) (hq' : Begins g r b (b ++ (l ++ u')) q')
    (hl : l.getLast? = some newline ∨ u = [] ∧ u' = []) (hne : l ≠ []) :
    ∃ n, n ≤ (maxRescans + 1) * l.length ∧
      Kin r (q.origin u) (q'.origin u') (q.run g n) (q'.run g n) ∧ (q.run g n).Ready r ∧
      (q.run g n).cursor.ahead = u ∧ (q'.run g n).cursor.ahead = u' ∧
      (u = [] ∨ (q.run g n).rescans = 0) := by
  have ha : q.cursor.ahead = l ++ u := List.append_cancel_left hq.split.symm
  have ha' : q'.cursor.ahead = l ++ u' := List.append_cancel_left hq'.split.symm
  have hagree : Text.Agree u u' (q.settle r).cursor.ahead (q'.settle r).cursor.ahead := by
    rw [ahead_settle, ahead_settle, ha, ha']
    exact ⟨l, rfl, rfl, hl⟩
  obtain ⟨n, hn, hk, hr, ⟨hleft, hright⟩, hidle⟩ :=
    h.run hg hagree (by simp [ahead_settle, ha, hne])
  -- the first step is made, and with it the passes are no more to be told from settled ones
  cases n with
  | zero =>
    have : l ++ u = u := by rw [← ha, ← ahead_settle]; exact hleft
    exact absurd (List.append_left_eq_self.1 this) hne
  | succ n =>
    have e := run_settle hg hq.crosses (atLineStart_of_prev hq.prev) (by simp [ha, hne]) n
    have e' := run_settle hg hq'.crosses (atLineStart_of_prev hq'.prev) (by simp [ha', hne]) n
    rw [e] at hn hk hr hleft hidle
    rw [e'] at hk hright
    rw [origin_settle, origin_settle] at hk
    change (q.run g (n + 1)).cursor.ahead = u at hleft
    refine ⟨n + 1, ?_, hk, hr, hleft, hright, hidle⟩
    rw [cost_settle, hq.cost_eq, cost, hleft] at hn
    rcases hidle with rfl | hidle
    · rw [List.length_nil] at hn
      omega
    · rw [hidle] at hn
      omega

/-- **The same line is found the same.** What two scans of which one begins a line as the other one
does have found by the end of the line is the same, and stays. -/
theorem Abreast.same_line (hg : g.Keeps r) (h : Abreast r (q.settle r) (q'.settle r))
    (hq : Begins g r a (a ++ (l ++ u)) q) (hq' : Begins g r b (b ++ (l ++ u')) q')
    (hl : l.IsLine) (hu : l.count newline = 0 → u = [] ∧ u' = []) (hne : l ≠ []) :
    ∃ p p', Tally r (q.origin u) (q'.origin u') p p' ∧
      Finds g (a ++ (l ++ u)) p ∧ Finds g (b ++ (l ++ u')) p' ∧
      p.cursor.spent.length = (a ++ l).length ∧
      p.ended.map Prod.fst = (List.range (a.count newline + 1)).reverse := by
  obtain ⟨n, hn, hk, hr, hleft, hright, hidle⟩ :=
    h.run_line hg hq hq' (hl.imp And.left hu) hne
  rcases hl with ⟨hl, hcount⟩ | hcount
  · have hc := hq.comesBy hg hl hn hleft hidle
    have hc' := hq'.comesBy hg hl hn hright (.inr (hk.rescans.symm.trans hc.idle))
    have hb : Begins g r (a ++ l) (a ++ (l ++ u)) (q.run g n) :=
      hc.begins (by rw [hleft, List.append_assoc])
    refine ⟨_, _, hk.tally, hc.finds hg, hc'.finds hg, hb.length_spent, ?_⟩
    rw [hc.sound.lines, hb.line, List.count_append, hcount]
  · obtain ⟨rfl, rfl⟩ := hu hcount
    have hlast : ∀ w : Text, (w ++ (l ++ [])).unended = true := by
      intro w
      have hnot : newline ∉ l := List.count_eq_zero.1 hcount
      rw [List.append_nil, Text.unended, List.getLast?_append, List.getLast?_eq_some_getLast hne]
      have : l.getLast hne ≠ newline := fun h => hnot (h ▸ List.getLast_mem hne)
      simpa [hne] using this
    have e := hq.finish_eq hn hleft
    have e' := hq'.finish_eq hn hright
    rw [hlast] at e e'
    have htally := (hk.finish hg true hr hleft hright).tally
    rw [e, e'] at htally
    refine ⟨_, _, htally, .all g _, .all g _, ?_, ?_⟩
    · rw [← List.length_reverse, ← Cursor.passed_eq, fresh_length hg, List.append_nil]
    · rw [fresh_lines hg, Text.committed, hlast, List.append_nil, List.count_append, hcount]
      rfl

end Pass

/-! ### The last visible byte -/

/-- The last visible byte of a text that is neither plain nor in a comment. -/
def Styles.lastVisible? (text : Text) (styles : Styles σ) : Option Byte :=
  ((styles.styled text).filter fun p => Trail.counts p.1 p.2).getLast?.map Prod.fst

/-- What a search backwards through a styled text finds: the last byte that counts as visible, with
its category, or a zero byte in the plain category. -/
def Trail.searchBack (l : List (Byte × σ)) : Byte × σ :=
  (l.findRev? fun p => counts p.1 p.2).getD (0, Palette.plain)

omit [DecidableEq σ] in
/-- The last of what was remembered on the way is the first that a search backwards finds. -/
theorem Trail.ofStyled_eq_searchBack (l : List (Byte × σ)) :
    ((ofStyled l).byte, (ofStyled l).category) = searchBack l := by
  have key : ∀ t : Trail σ, ((l.foldl glance t).byte, (l.foldl glance t).category) =
      (l.findRev? fun p => counts p.1 p.2).getD (t.byte, t.category) := by
    induction l with
    | nil => exact fun _ => rfl
    | cons p l ih =>
      intro t
      rw [List.foldl_cons, ih, glance, List.findRev?]
      cases l.findRev? fun p => counts p.1 p.2 with
      | some q => rfl
      | none => cases counts p.1 p.2 <;> rfl
  exact key start

omit [DecidableEq σ] in
theorem Trail.byte_ofStyled (l : List (Byte × σ)) :
    (ofStyled l).byte = ((l.filter fun p => counts p.1 p.2).getLast?.map Prod.fst).getD 0 := by
  have h := congrArg Prod.fst (ofStyled_eq_searchBack l)
  rw [searchBack, List.findRev?_eq_find?_reverse, ← List.getLast?_filter] at h
  cases hlast : (l.filter fun p => counts p.1 p.2).getLast? <;> simpa [hlast] using h

open Pass

namespace Session

variable {g : Grammar σ ζ} {r : Regime σ ζ} {text a b l u u' : Text} {q q' : Pass σ ζ}

/-- The byte that a scan remembers where it begins a line is the last visible one. -/
theorem byte_of_begins (hg : g.Keeps r) (h : Begins g r a text q) (hf : Finds g text q) :
    q.cursor.trail.byte = (Styles.lastVisible? a (fresh g text).styles).getD 0 := by
  obtain ⟨old, hfollows, ha⟩ := h.behind
  obtain ⟨y, hy⟩ := hf.spent
  have hstyled : (fresh g text).styles.styled a = q.cursor.styledBytes old := by
    rw [← ha, fresh_eq hg]
    refine hfollows.styled_eq fun i hi => ?_
    rw [Styles.categoryAt_toArray, Cursor.getD_passed hy (hfollows.length_passed ▸ hi)]
  rw [hfollows.trail.byte, ← hstyled, Trail.byte_ofStyled]
  rfl

theorem getElem?_store_fresh (hg : g.Keeps r) {i : Nat} {st : LineState}
    (h : (i, st) ∈ (Pass.fresh g text).ended) :
    (fresh g text).store[i]? = some st.encode := by
  have hsize : i < (fresh g text).store.size := by
    rw [fresh_eq hg]
    exact LineStore.lt_size_recordAll (List.mem_map.2 ⟨_, h, rfl⟩)
  have hword : (fresh g text).store.word i = st.encode := by
    rw [fresh_eq hg]
    exact LineStore.word_recordAll (nodup_fresh_lines hg text) h
  rw [LineStore.word, Array.getD_eq_getD_getElem?, Array.getElem?_eq_getElem hsize] at hword
  rw [Array.getElem?_eq_getElem hsize]
  exact congrArg some hword

/-- The scans have ended the line alike. -/
theorem exists_ended {p p' : Pass σ ζ} (hq : Begins g r a text q)
    (h : Tally r (q.origin u) (q'.origin u') p p')
    (hlines : p.ended.map Prod.fst = (List.range (a.count newline + 1)).reverse) :
    ∃ st, (q.cursor.line, st) ∈ p.ended ∧ (q'.cursor.line, st) ∈ p'.ended := by
  obtain ⟨e, he, he'⟩ := h.ended
  have hmem : a.count newline ∈ p.ended.map Prod.fst := by
    rw [hlines, List.mem_reverse, List.mem_range]
    exact Nat.lt_succ_self _
  rw [he, List.map_append, List.mem_append] at hmem
  rcases hmem with hmem | hmem
  · obtain ⟨x, hx, hline⟩ := List.mem_map.1 hmem
    obtain ⟨⟨i, st⟩, hst, rfl⟩ := List.mem_map.1 hx
    obtain rfl : i = 0 := by
      change q.cursor.line + i = _ at hline
      rw [hq.line] at hline
      omega
    refine ⟨st, ?_, ?_⟩
    · rw [he]
      exact List.mem_append_left _ (List.mem_map.2 ⟨_, hst, rfl⟩)
    · rw [he']
      exact List.mem_append_left _ (List.mem_map.2 ⟨_, hst, rfl⟩)
  · -- it was not ended before
    change _ ∈ q.ended.map Prod.fst at hmem
    rw [hq.sound.lines, List.mem_reverse, List.mem_range, hq.line] at hmem
    exact absurd hmem (Nat.lt_irrefl _)

omit [Palette σ] [DecidableEq σ] in
/-- What was found in a line, seen from the end of the text. -/
theorem getElem?_found (w : List σ) {y s : List σ} {n k : Nat} (hn : s.length = n)
    (hk : k < y.length) : (w ++ (y ++ s)).reverse[n + k]? = y.reverse[k]? := by
  subst hn
  rw [← List.append_assoc, List.reverse_append, List.getElem?_append_right (by simp),
    List.length_reverse, Nat.add_sub_cancel_left, List.reverse_append,
    List.getElem?_append_left (by simpa using hk)]

/-- The same line of two texts gets the same categories and the same word. -/
theorem fresh_line (hg : g.Keeps r) (h : Abreast r (q.settle r) (q'.settle r))
    (hq : Begins g r a (a ++ (l ++ u)) q) (hq' : Begins g r b (b ++ (l ++ u')) q')
    (hl : l.IsLine) (hu : l.count newline = 0 → u = [] ∧ u' = []) :
    (∀ k < l.length, (fresh g (a ++ (l ++ u))).styles[a.length + k]? =
      (fresh g (b ++ (l ++ u'))).styles[b.length + k]?) ∧
    (fresh g (a ++ (l ++ u))).store[a.count newline]? =
      (fresh g (b ++ (l ++ u'))).store[b.count newline]? := by
  by_cases hne : l = []
  · -- an empty last line has no word
    subst hne
    obtain ⟨rfl, rfl⟩ := hu rfl
    have hnone : ∀ {w : Text}, w.unended = false →
        (fresh g (w ++ ([] ++ []))).store[w.count newline]? = none := by
      intro w hw
      rw [Array.getElem?_eq_none_iff, size_store_fresh hg, Text.committed]
      simp [hw]
    exact ⟨fun k hk => absurd hk (Nat.not_lt_zero k), by rw [hnone hq.unended, hnone hq'.unended]⟩
  · obtain ⟨p, p', htally, ⟨⟨w, hw⟩, f, hf⟩, ⟨⟨w', hw'⟩, f', hf'⟩, hlen, hlines⟩ :=
      h.same_line hg hq hq' hl hu hne
    obtain ⟨y, hy, hy'⟩ := htally.spent
    have hylen : y.length = l.length := by
      have hspent := hq.length_spent
      rw [hy, List.length_append, List.length_append] at hlen
      change _ + q.cursor.spent.length = _ at hlen
      omega
    obtain ⟨st, hst, hst'⟩ := exists_ended hq htally hlines
    constructor
    · intro k hk
      rw [← hylen] at hk
      rw [fresh_eq hg, fresh_eq hg]
      simp only [List.getElem?_toArray]
      rw [Cursor.passed_eq, Cursor.passed_eq, hw, hy, hw', hy']
      exact (getElem?_found w hq.length_spent hk).trans
        (getElem?_found w' hq'.length_spent hk).symm
    · rw [← hq.line, ← hq'.line, getElem?_store_fresh hg (hf ▸ List.mem_append_right f hst),
        getElem?_store_fresh hg (hf' ▸ List.mem_append_right f' hst')]

end Session

end Highlight
