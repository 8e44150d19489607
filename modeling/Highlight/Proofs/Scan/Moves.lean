import Highlight.Proofs.Scan.Progress

/-!
The moves of rules. `Cursor.InStep` says that two cursors came from two others by the same moves,
none of them over the end of a line; `Flow.Twin` says that two rules answered alike. The main fact
is `InStep.alike`: the same moves lead from alike places to alike places. With both places the
same, `InStep` says of one scan that it moved within its line, and `InStep.follows` that it still
knows what stands behind it: where it is in the text, and which visible byte was the last.
-/

namespace Highlight

open Byte

variable {σ ζ : Type} [Palette σ]

namespace Cursor

/-- The cursors `d` and `d'` came from `c` and `c'` by the same moves within their lines. -/
inductive InStep (q : Conduct σ) (c c' : Cursor σ) : Cursor σ → Cursor σ → Prop where
  | refl : InStep q c c' c c'
  | forward {d d' : Cursor σ} (h : InStep q c c' d d') (hb : d.byte ≠ newline) :
      InStep q c c' d.forward d'.forward
  | switch {d d' : Cursor σ} (h : InStep q c c' d d') (s : σ) :
      InStep q c c' (d.switch s) (d'.switch s)
  | recolor {d d' : Cursor σ} (h : InStep q c c' d d') (s : σ) (hs : q.stable d.state = false)
      (hq : Palette.isQuiet s = Palette.isQuiet d.state) (ht : q.tidy → Palette.isQuiet s = true) :
      InStep q c c' (d.recolor s) (d'.recolor s)
  | rename {d d' : Cursor σ} (h : InStep q c c' d d') (s : σ) (hs : q.stable d.state = false)
      (hq : Palette.isQuiet d.state = false) (hq' : Palette.isQuiet s = false) (hn : d.HasName) :
      InStep q c c' ((d.recolor s).remember s) ((d'.recolor s).remember s)

namespace InStep

variable {q : Conduct σ} {k k' : List σ} {u u' : Text} {c c' d d' e e' : Cursor σ}

theorem trans (h₁ : InStep q c c' d d') (h₂ : InStep q d d' e e') : InStep q c c' e e' := by
  induction h₂ with
  | refl => exact h₁
  | forward _ hb ih => exact ih.forward hb
  | switch _ s ih => exact ih.switch s
  | recolor _ s hs hq ht ih => exact ih.recolor s hs hq ht
  | rename _ s hs hq hq' hn ih => exact ih.rename s hs hq hq' hn

/-- The same moves lead from alike places to alike places. -/
theorem alike (hm : InStep q c c' d d') (h : Alike q k k' u u' c c') :
    Alike q k k' u u' d d' := by
  induction hm with
  | refl => exact h
  | forward _ hb ih =>
    refine ⟨ih.toKin.forward ih.ahead.head?_eq, ?_⟩
    rw [ahead_forward, ahead_forward]
    exact ih.ahead.tail hb
  | switch _ s ih => exact ⟨ih.toKin.switch s, ih.ahead⟩
  | recolor _ s hs _ _ ih => exact ⟨ih.toKin.recolor s hs, ih.ahead⟩
  | rename _ s hs _ _ _ ih => exact ⟨(ih.toKin.recolor s hs).remember s, ih.ahead⟩

theorem line_eq (hm : InStep q c c' d d') (h : Alike q k k' u u' c c') :
    d.line = c.line ∧ d'.line = c'.line := by
  induction hm with
  | refl => exact ⟨rfl, rfl⟩
  | forward hm hb ih =>
    have hb' := (hm.alike h).byte_eq ▸ hb
    rwa [line_forward, line_forward, if_neg hb, if_neg hb']
  | switch _ s ih => exact ih
  | recolor _ s _ _ _ ih => exact ih
  | rename _ s _ _ _ _ ih => exact ih

theorem start_eq (hm : InStep q c c' d d') : d.start = c.start ∧ d'.start = c'.start := by
  induction hm with
  | refl => exact ⟨rfl, rfl⟩
  | forward _ _ ih => rwa [start_forward, start_forward]
  | switch _ s ih => exact ih
  | recolor _ s _ _ _ ih => exact ih
  | rename _ s _ _ _ _ ih => exact ih

/-- What is read is taken from what was to be read. -/
theorem ahead_suffix (hm : InStep q c c' d d') : d.ahead <:+ c.ahead := by
  induction hm with
  | refl => exact List.suffix_refl _
  | forward _ _ ih =>
    rw [ahead_forward]
    exact (List.tail_suffix _).trans ih
  | switch _ s ih => exact ih
  | recolor _ s _ _ _ ih => exact ih
  | rename _ s _ _ _ _ ih => exact ih

theorem pos_add (hm : InStep q c c' d d') :
    d.pos + d.ahead.length = c.pos + c.ahead.length ∧
      d'.pos + d'.ahead.length = c'.pos + c'.ahead.length := by
  induction hm with
  | refl => exact ⟨rfl, rfl⟩
  | forward _ _ ih => rwa [pos_forward, pos_forward]
  | switch _ s ih => exact ih
  | recolor _ s _ _ _ ih => exact ih
  | rename _ s _ _ _ _ ih => exact ih

theorem onward (hm : InStep q c c' d d') : c.Onward d := ⟨hm.ahead_suffix, hm.pos_add.1⟩

/-- Both cursors have moved on, or neither has. -/
theorem same_pos (hm : InStep q c c' d d') (h : Alike q k k' u u' c c') :
    d.pos = c.pos ↔ d'.pos = c'.pos := by
  obtain ⟨hpos, hpos'⟩ := hm.pos_add
  obtain ⟨l, h₁, h₂, -⟩ := h.ahead
  obtain ⟨l', h₃, h₄, -⟩ := (hm.alike h).ahead
  have hle := hm.ahead_suffix.length_le
  simp only [h₁, h₂, h₃, h₄, List.length_append] at hpos hpos' hle
  omega

/-- A cursor that has moved at all stands behind a byte that ends no line. -/
theorem moved (hm : InStep q c c' d d') :
    d.ahead = c.ahead ∧ d.prev = c.prev ∨ ∃ b, d.prev = some b ∧ b ≠ newline := by
  induction hm with
  | refl => exact .inl ⟨rfl, rfl⟩
  | @forward d d' _ hb ih =>
    cases h : d.ahead with
    | nil => rwa [forward_nil h]
    | cons b t =>
      exact .inr ⟨b, by simp [forward_cons h], by simpa [byte, peek, h] using hb⟩
  | switch _ s ih => exact ih
  | recolor _ s _ _ _ ih => exact ih
  | rename _ s _ _ _ _ ih => exact ih

/-- Both cursors go on by the same bytes, none of which ends a line. -/
theorem forwardN (hm : InStep q c c' d d') (h : Alike q k k' u u' d d') {n : Nat}
    (hn : d.ahead.Clear n) :
    InStep q c c' (d.forwardN n) (d'.forwardN n) := by
  induction n generalizing d d' with
  | zero => exact hm
  | succ n ih =>
    unfold Cursor.forwardN
    rw [← h.more_eq]
    by_cases hmore : d.more = true
    · rw [if_pos hmore, if_pos hmore]
      have hb : d.byte ≠ newline := (hn.mono (Nat.le_add_left 1 n)).getD_zero
      refine ih (hm.forward hb) ((InStep.refl.forward hb).alike h) ?_
      rw [ahead_forward, ← List.drop_one]
      exact Text.Clear.drop (by rwa [Nat.add_comm])
    · rw [if_neg hmore, if_neg hmore]
      exact hm

/-- Both cursors go on to the last byte of the run of equal bytes here. -/
theorem toLastOfRun (hm : InStep q c c' d d') (h : Alike q k k' u u' d d')
    (hb : d.byte ≠ newline) : InStep q c c' d.toLastOfRun d'.toLastOfRun := by
  have hkind : (newline == d.byte) = false := beq_eq_false_iff_ne.2 (Ne.symm hb)
  unfold Cursor.toLastOfRun
  rw [← h.byte_eq, ← (h.ahead.tail hb).takeWhile_eq hkind]
  exact hm.forwardN h (clear_run hb)

end InStep

end Cursor

/-! ### The last visible byte -/

namespace Trail

/-- The memory after a byte given in its category, as far as it does not concern the line. -/
def glance (t : Trail σ) (p : Byte × σ) : Trail σ :=
  if counts p.1 p.2 then { t with byte := p.1, category := p.2 } else t

theorem ofStyled_eq (l : List (Byte × σ)) : ofStyled l = l.foldl glance start := rfl

theorem glance_pass (t : Trail σ) (b : Byte) (s : σ) :
    (t.pass b s).byte = (t.glance (b, s)).byte ∧
      (t.pass b s).category = (t.glance (b, s)).category := by
  unfold pass glance counts
  by_cases hb : isSpace b
  · simp only [hb, if_true, Bool.not_true, Bool.false_and, Bool.false_eq_true, if_false]
    split_ifs <;> exact ⟨rfl, rfl⟩
  · by_cases hs : Palette.isQuiet s <;> simp [hb, hs]

/-- A whole run in a quiet category leaves no memory. -/
theorem foldl_glance_quiet {s : σ} (hs : Palette.isQuiet s = true) (w : Text) (t : Trail σ) :
    (w.map fun b => (b, s)).foldl glance t = t := by
  induction w with
  | nil => rfl
  | cons b w ih => simpa [glance, counts, hs] using ih

/-- Which byte is remembered after a run depends on its category only in being quiet or not. -/
theorem byte_foldl_glance {s s' : σ} (hs : Palette.isQuiet s = Palette.isQuiet s') (w : Text) :
    ∀ t t' : Trail σ, t.byte = t'.byte →
      ((w.map fun b => (b, s)).foldl glance t).byte =
        ((w.map fun b => (b, s')).foldl glance t').byte := by
  induction w with
  | nil => exact fun _ _ h => h
  | cons b w ih =>
    intro t t' h
    refine ih _ _ ?_
    unfold glance counts
    rw [hs]
    split_ifs <;> simp [h]

/-- The memory `t` says of the bytes behind it what their categories say, and of the category of
the last visible one too if the language is tidy. -/
structure Recalls (q : Conduct σ) (t : Trail σ) (l : List (Byte × σ)) : Prop where
  byte : t.byte = (ofStyled l).byte
  category : q.tidy → t.category = (ofStyled l).category

end Trail

/-! ### Following a text -/

/-- The bytes that a cursor has passed, each with its category; `old` are those before the run in
progress. -/
def Cursor.styledBytes (old : Text) (c : Cursor σ) : List (Byte × σ) :=
  old.zip c.closed.reverse ++ c.word.reverse.map fun b => (b, c.state)

/-- The cursor has come from the beginning of the text, where `old` stands before the run in
progress, and remembers what it has passed. -/
structure Cursor.Follows (q : Conduct σ) (text old : Text) (c : Cursor σ) : Prop where
  old_length : old.length = c.closed.length
  text_eq : text = old ++ c.word.reverse ++ c.ahead
  start : c.start = 0
  pos : c.pos = (old ++ c.word.reverse).length
  line : c.line = (old ++ c.word.reverse).count newline
  prev : c.prev = (old ++ c.word.reverse).getLast?
  trail : c.trail.Recalls q (c.styledBytes old)

namespace Cursor.Follows

variable {q : Conduct σ} {text old : Text} {c : Cursor σ}

theorem styledBytes_eq (h : c.Follows q text old) :
    c.styledBytes old = (old ++ c.word.reverse).zip c.passed := by
  have hz : ∀ (w : Text) (s : σ), w.map (fun b => (b, s)) = w.zip (List.replicate w.length s) := by
    intro w s
    induction w with
    | nil => rfl
    | cons b w ih => simp [List.replicate_succ, ih]
  rw [passed_eq, spent, List.reverse_append, List.reverse_replicate,
    List.zip_append (by simp [h.old_length]), styledBytes, hz, List.length_reverse]

theorem length_passed (h : c.Follows q text old) : c.passed.length = c.pos := by
  rw [h.pos, passed_eq, spent]
  simp [h.old_length]

/-- What is behind is the text without what is ahead. -/
theorem behind_eq {a : Text} (h : c.Follows q (a ++ c.ahead) old) : old ++ c.word.reverse = a :=
  (List.append_cancel_right h.text_eq).symm

theorem switch (h : c.Follows q text old) (s : σ) :
    (c.switch s).Follows q text (old ++ c.word.reverse) where
  old_length := by simp [Cursor.switch, h.old_length, Nat.add_comm]
  text_eq := by simpa [Cursor.switch] using h.text_eq
  start := h.start
  pos := by simpa [Cursor.switch] using h.pos
  line := by simpa [Cursor.switch] using h.line
  prev := by simpa [Cursor.switch] using h.prev
  trail := by
    have e : (c.switch s).styledBytes (old ++ c.word.reverse) = c.styledBytes old := by
      rw [h.styledBytes_eq]
      simp [styledBytes, Cursor.switch, passed]
    rw [e]
    exact h.trail

theorem forward (h : c.Follows q text old) : c.forward.Follows q text old := by
  cases ha : c.ahead with
  | nil => rwa [forward_nil ha]
  | cons b t =>
    have e : c.forward.styledBytes old = c.styledBytes old ++ [(b, c.state)] := by
      simp [styledBytes, forward_cons ha]
    rw [forward_cons ha] at e ⊢
    refine ⟨h.old_length, by simp [h.text_eq, ha], h.start, ?_, ?_, ?_, ?_, ?_⟩
    · simp [h.pos]
      omega
    · by_cases hb : b = newline <;> simp [h.line, hb, ← List.append_assoc]
    · simp [← List.append_assoc]
    · rw [e, Trail.ofStyled_eq, List.foldl_append, ← Trail.ofStyled_eq, (Trail.glance_pass ..).1]
      simp only [List.foldl_cons, List.foldl_nil, Trail.glance]
      split_ifs
      · rfl
      · exact h.trail.byte
    · intro ht
      rw [e, Trail.ofStyled_eq, List.foldl_append, ← Trail.ofStyled_eq, (Trail.glance_pass ..).2]
      simp only [List.foldl_cons, List.foldl_nil, Trail.glance]
      split_ifs
      · rfl
      · exact h.trail.category ht

theorem newLine (h : c.Follows q text old) : c.newLine.Follows q text old :=
  ⟨h.old_length, h.text_eq, h.start, h.pos, h.line, h.prev, h.trail.byte, h.trail.category⟩

theorem recolor (h : c.Follows q text old) {s : σ}
    (hq : Palette.isQuiet s = Palette.isQuiet c.state)
    (ht : q.tidy → Palette.isQuiet s = true) : (c.recolor s).Follows q text old := by
  refine ⟨h.old_length, h.text_eq, h.start, h.pos, h.line, h.prev, ?_, ?_⟩
  · refine h.trail.byte.trans ?_
    simp only [styledBytes, Trail.ofStyled_eq, List.foldl_append]
    exact Trail.byte_foldl_glance hq.symm _ _ _ rfl
  · intro h'
    refine (h.trail.category h').trans ?_
    simp only [styledBytes, Trail.ofStyled_eq, List.foldl_append, Cursor.recolor]
    rw [Trail.foldl_glance_quiet (ht h'), Trail.foldl_glance_quiet (hq ▸ ht h')]

theorem rename (h : c.Follows q text old) {s : σ} (hq : Palette.isQuiet c.state = false)
    (hq' : Palette.isQuiet s = false) (hn : c.HasName) :
    ((c.recolor s).remember s).Follows q text old := by
  obtain ⟨b, w, hw, hb⟩ := hn
  refine ⟨h.old_length, h.text_eq, h.start, h.pos, h.line, h.prev, ?_, ?_⟩
  · refine h.trail.byte.trans ?_
    simp only [styledBytes, Trail.ofStyled_eq, List.foldl_append]
    exact Trail.byte_foldl_glance (hq.trans hq'.symm) _ _ _ rfl
  · intro _
    simp [styledBytes, Trail.ofStyled_eq, Cursor.remember, Cursor.recolor, hw, Trail.glance,
      Trail.counts, hb, hq']

end Cursor.Follows

/-- A scan that moves within its line goes on following its text. -/
theorem Cursor.InStep.follows {q : Conduct σ} {text old : Text} {c c' d d' : Cursor σ}
    (hm : InStep q c c' d d') (h : c.Follows q text old) : ∃ old', d.Follows q text old' := by
  induction hm with
  | refl => exact ⟨old, h⟩
  | forward _ _ ih =>
    obtain ⟨o, ih⟩ := ih
    exact ⟨o, ih.forward⟩
  | switch _ s ih =>
    obtain ⟨o, ih⟩ := ih
    exact ⟨_, ih.switch s⟩
  | recolor _ s _ hq ht ih =>
    obtain ⟨o, ih⟩ := ih
    exact ⟨o, ih.recolor hq ht⟩
  | rename _ s _ hq hq' hn ih =>
    obtain ⟨o, ih⟩ := ih
    exact ⟨o, ih.rename hq hq' hn⟩

end Highlight
