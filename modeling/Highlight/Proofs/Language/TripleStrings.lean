import Highlight.Proofs.Language.ScalaEnds
import Highlight.Proofs.Language.TomlEnds
import Highlight.Proofs.Run
import Highlight.Proofs.Scan.Hidden
import Highlight.Proofs.Scan.Part

/-!
Strings in triple quotes. The first maximal run of three or more quotes that no backslash hides ends
such a string: of the quotes in it the last three close the string, and the others belong to it.
Scala and TOML look for that run in the same way (`Grammar.TripleQuoted`), one byte after the other
and with three quotes ahead, and find the one that a reader of the whole string finds
(`Pass.closes_of_comes`).
-/

namespace Highlight

open Byte

/-! ### Runs of marks -/

/-- From `a` to before `b` there is a maximal run of three or more marks. -/
structure ClosingRun (marks : List Bool) (a b : Nat) : Prop where
  long : a + 3 ≤ b
  marked : ∀ i, a ≤ i → i < b → marks[i]? = some true
  before : ∀ i, i + 1 = a → marks[i]? = some false
  behind : marks[b]? ≠ some true

/-- It is the first one. -/
structure FirstClosingRun (marks : List Bool) (a b : Nat) : Prop extends ClosingRun marks a b where
  first : ∀ a' b', ClosingRun marks a' b' → a ≤ a'

/-- The end of the first run of three or more marks, found from the left. -/
def runEnd? : List Bool → Option Nat
  | [] => none
  | x :: l =>
    if 3 ≤ ((x :: l).takeWhile id).length then some ((x :: l).takeWhile id).length
    else (runEnd? l).map (· + 1)

section Runs

variable {l marks : List Bool} {a b a' b' n : Nat} {x : Bool}

theorem le_length_takeWhile_iff {α : Type} {p : α → Bool} {l : List α} :
    n ≤ (l.takeWhile p).length ↔ ∀ i < n, ∃ x, l[i]? = some x ∧ p x = true := by
  induction l generalizing n with
  | nil =>
    refine ⟨fun h i hi => absurd (Nat.lt_of_lt_of_le hi h) (Nat.not_lt_zero i), fun h => ?_⟩
    cases n with
    | zero => exact Nat.le_refl 0
    | succ n =>
      obtain ⟨x, hx, -⟩ := h 0 (Nat.succ_pos n)
      cases hx
  | cons x l ih =>
    cases n with
    | zero => simp
    | succ n =>
      rw [Nat.forall_lt_succ_left]
      by_cases hx : p x = true
      · rw [List.takeWhile_cons_of_pos hx, List.length_cons, Nat.succ_le_succ_iff, ih]
        simp [hx]
      · simp [List.takeWhile_cons_of_neg hx, hx]

theorem le_length_marks_iff : n ≤ (l.takeWhile id).length ↔ ∀ i < n, l[i]? = some true := by
  rw [le_length_takeWhile_iff]
  simp

theorem getElem?_takeWhile_ne (l : List Bool) : l[(l.takeWhile id).length]? ≠ some true := by
  induction l with
  | nil => simp
  | cons x l ih =>
    cases x with
    | false => simp
    | true => simpa using ih

/-- A run that the marks begin with is the first one. -/
theorem firstClosingRun_head (h : 3 ≤ (l.takeWhile id).length) :
    FirstClosingRun l 0 (l.takeWhile id).length :=
  ⟨⟨by omega, fun i _ hi => le_length_marks_iff.1 (Nat.le_refl _) i hi, nofun,
      getElem?_takeWhile_ne l⟩,
    fun _ _ _ => Nat.zero_le _⟩

/-- If they begin with none, the runs are those behind the first mark. -/
theorem closingRun_cons (h : ¬3 ≤ ((x :: l).takeWhile id).length) :
    ClosingRun (x :: l) a b ↔ ∃ a' b', a = a' + 1 ∧ b = b' + 1 ∧ ClosingRun l a' b' := by
  constructor
  · rintro ⟨hlong, hmarked, hbefore, hbehind⟩
    obtain ⟨b, rfl⟩ : ∃ b', b = b' + 1 := ⟨b - 1, by omega⟩
    cases a with
    | zero =>
      refine absurd (le_length_marks_iff.2 fun i hi => ?_) h
      exact hmarked i (Nat.zero_le i) (by omega)
    | succ a =>
      refine ⟨a, b, rfl, rfl, by omega, fun i hi hb => ?_, fun i hi => ?_, by simpa using hbehind⟩
      · simpa using hmarked (i + 1) (by omega) (by omega)
      · simpa using hbefore (i + 1) (by omega)
  · rintro ⟨a, b, rfl, rfl, hlong, hmarked, hbefore, hbehind⟩
    refine ⟨by omega, fun i hi hb => ?_, fun i hi => ?_, by simpa using hbehind⟩
    · obtain ⟨i, rfl⟩ : ∃ i', i = i' + 1 := ⟨i - 1, by omega⟩
      simpa using hmarked i (by omega) (by omega)
    · cases i with
      | succ i => simpa using hbefore i (by omega)
      | zero =>
        -- a mark before the run would belong to it
        cases x with
        | false => rfl
        | true =>
          obtain rfl : a = 0 := by omega
          have hle := le_length_marks_iff.2 fun i hi => hmarked i (Nat.zero_le i) hi
          rw [List.takeWhile_cons_of_pos rfl, List.length_cons] at h
          omega

/-- **What is found from the left is the first run.** -/
theorem runEnd?_spec (marks : List Bool) :
    match runEnd? marks with
    | some b => ∃ a, FirstClosingRun marks a b
    | none => ∀ a b, ¬ClosingRun marks a b := by
  induction marks with
  | nil =>
    rintro a b ⟨hlong, hmarked, -, -⟩
    simpa using hmarked a (Nat.le_refl a) (by omega)
  | cons x l ih =>
    rw [runEnd?]
    by_cases h : 3 ≤ ((x :: l).takeWhile id).length
    · rw [if_pos h]
      exact ⟨0, firstClosingRun_head h⟩
    · rw [if_neg h]
      cases hfound : runEnd? l with
      | none =>
        rw [hfound] at ih
        rintro a b hrun
        obtain ⟨a', b', -, -, hrun⟩ := (closingRun_cons h).1 hrun
        exact ih a' b' hrun
      | some b =>
        rw [hfound] at ih
        obtain ⟨a, hrun, hfirst⟩ := ih
        refine ⟨a + 1, (closingRun_cons h).2 ⟨a, b, rfl, rfl, hrun⟩, fun a' b' hrun' => ?_⟩
        obtain ⟨a', b', rfl, -, hrun'⟩ := (closingRun_cons h).1 hrun'
        exact Nat.succ_le_succ (hfirst a' b' hrun')

theorem FirstClosingRun.unique (h : FirstClosingRun marks a b)
    (h' : FirstClosingRun marks a' b') : b = b' := by
  obtain rfl : a = a' := Nat.le_antisymm (h.first _ _ h'.toClosingRun) (h'.first _ _ h.toClosingRun)
  have hlong := h.long
  have hlong' := h'.long
  rcases Nat.lt_trichotomy b b' with hlt | rfl | hlt
  · exact absurd (h'.marked b (by omega) hlt) h.behind
  · rfl
  · exact absurd (h.marked b' (by omega) hlt) h'.behind

theorem runEnd?_eq_some_iff : runEnd? marks = some b ↔ ∃ a, FirstClosingRun marks a b := by
  have hspec := runEnd?_spec marks
  constructor
  · intro hb
    rwa [hb] at hspec
  · rintro ⟨a, h⟩
    cases hfound : runEnd? marks with
    | none =>
      rw [hfound] at hspec
      exact absurd h.toClosingRun (hspec a b)
    | some b' =>
      rw [hfound] at hspec
      obtain ⟨a', h'⟩ := hspec
      rw [h'.unique h]

theorem runEnd?_eq_none (h : ∀ a b, ¬ClosingRun marks a b) : runEnd? marks = none := by
  have hspec := runEnd?_spec marks
  cases hfound : runEnd? marks with
  | none => rfl
  | some b =>
    rw [hfound] at hspec
    obtain ⟨a, hrun⟩ := hspec
    exact absurd hrun.toClosingRun (h a b)

theorem runEnd?_cons (h : ¬3 ≤ ((x :: l).takeWhile id).length) :
    runEnd? (x :: l) = (runEnd? l).map (· + 1) := by rw [runEnd?, if_neg h]

/-- What is not marked is in no run. -/
theorem runEnd?_replicate_append (n : Nat) (l : List Bool) :
    runEnd? (List.replicate n false ++ l) = (runEnd? l).map (· + n) := by
  induction n with
  | zero => simp
  | succ n ih =>
    rw [List.replicate_succ, List.cons_append, runEnd?_cons (by simp), ih, Option.map_map]
    congr 1

end Runs

/-! ### Strings of a scan -/

variable {σ ζ : Type} [Palette σ]

/-- How a grammar treats strings of the category `s` in triple quotes `q`. If `hides`, backslashes
begin escapes there. -/
structure Grammar.TripleQuoted (g : Grammar σ ζ) (k : EscapeKeeping σ ζ) (e : EscapeSyntax) (s : σ)
    (q : Byte) (hides : Bool) : Prop where
  serves : k.Serves g
  plain : ∀ {c z}, c.state = Palette.plain → g.leave c z = .pass c z
  opens : ∀ {c z d y}, c.state = Palette.plain → g.enter c z = .pass d y → d.state = s →
    d = (c.switch s).forwardN 2 ∧ c.byte = q ∧ c.readsNext q q = true
  escapes : ∀ {c z}, c.state = s → hides = true → c.byte = backslash →
    g.leave c z = Escape.enter e k.category c z fun e => k.put e z
  closes : ∀ {c z}, c.state = s → c.byte = q → c.readsNext q q = true →
    g.leave c z = .again (c.toLastOfRun.forwardSwitch Palette.plain) z
  stays : ∀ {c z}, c.state = s → ¬(hides = true ∧ c.byte = backslash) →
    ¬(c.byte = q ∧ c.readsNext q q = true) → g.leave c z = .pass c z
  ne_plain : s ≠ Palette.plain
  mark : q ≠ backslash ∧ q ≠ newline ∧ q ≠ 0 ∧ q.inEscape = false

/-- What is hidden is no mark of a run, and what begins no escape is read alone. -/
theorem Text.takeWhile_unhidden (hides : Bool) {q : Byte} (hq : q ≠ backslash) (t : Text) :
    ((Text.unhidden hides (· == q) t).takeWhile id).length = (t.takeWhile (· == q)).length := by
  induction t with
  | nil => rfl
  | cons b t ih =>
    by_cases hb : b = q
    · subst hb
      rw [Text.unhidden_cons (Text.hidesNext_of_ne hides hq _),
        List.takeWhile_cons_of_pos (by simp), List.takeWhile_cons_of_pos (by simp),
        List.length_cons, List.length_cons, ih]
    · have hhead : ∃ l, Text.unhidden hides (· == q) (b :: t) = false :: l := by
        cases t with
        | nil => exact ⟨[], by simp [Text.unhidden, hb]⟩
        | cons x t =>
          rw [Text.unhidden, beq_eq_false_iff_ne.2 hb]
          split <;> exact ⟨_, rfl⟩
      obtain ⟨l, hl⟩ := hhead
      rw [hl, List.takeWhile_cons_of_neg (by simp), List.takeWhile_cons_of_neg (by simpa using hb)]
      rfl

omit [Palette σ] in
/-- A run of three quotes is seen by looking at the next two bytes. -/
theorem Cursor.three_le_iff {c : Cursor σ} {q : Byte} (hq : q ≠ 0) :
    3 ≤ (c.ahead.takeWhile (· == q)).length ↔ c.byte = q ∧ c.readsNext q q = true := by
  have hpeek : ∀ i, (∃ b, c.ahead[i]? = some b ∧ (b == q) = true) ↔ c.peek i = q := fun i => by
    rw [peek, List.getD_eq_getElem?_getD]
    cases c.ahead[i]? <;> simp [hq.symm]
  rw [le_length_takeWhile_iff, forall₂_congr fun i _ => hpeek i, Nat.forall_lt_succ_left,
    Nat.forall_lt_succ_left, Nat.forall_lt_succ_left, readsNext, Bool.and_eq_true, beq_iff_eq,
    beq_iff_eq]
  simp only [Nat.not_lt_zero, false_imp_iff, implies_true, and_true]
  rfl

namespace Pass

variable [DecidableEq σ] {g : Grammar σ ζ} {k : EscapeKeeping σ ζ} {e : EscapeSyntax} {s : σ}
  {q : Byte} {hides : Bool} {o : Pass σ ζ} {text t : Text} {start stop first i n m : Nat}
  {c d : Cursor σ} {y z : ζ} {b : Byte}

/-- At the offset `i` the scan begins a construct of the category `s`. -/
def Enters (g : Grammar σ ζ) (o : Pass σ ζ) (s : σ) (i : Nat) : Prop :=
  ∃ c z d y e w, o.ComesTo g c z ∧ c.more = true ∧ g.leave c z = .pass d y ∧
    d.state = Palette.plain ∧ d.pos = i ∧ g.enter d y = .pass e w ∧ e.state = s

/-- Where a string that began at the offset `i` ends, seen from the offset `n`: so many bytes
further, and the scan is in the plain category there; or not before the end of the part. -/
def Closes (g : Grammar σ ζ) (k : EscapeKeeping σ ζ) (s : σ) (i : Nat) (o : Pass σ ζ) (n : Nat) :
    Option Nat → Prop
  | some m => ∃ d y, o.ComesTo g d y ∧ d.state = Palette.plain ∧ d.word = [] ∧ d.pos = n + m ∧
      d.AllFrom (fun a => a = s ∨ a = k.category) i
  | none => ∃ d y, o.ComesTo g d y ∧ d.ahead = [] ∧
      d.AllFrom (fun a => a = s ∨ a = k.category) i ∧
      (d.state = s ∨ d.state = k.category ∧ (k.get y).outer = s)

/-- With some bytes before. -/
theorem Closes.behind {r : Option Nat} (h : Closes g k s i o (n + m) r) :
    Closes g k s i o n (r.map (· + m)) := by
  cases r with
  | none => exact h
  | some l =>
    obtain ⟨d, y, hcomes, hplain, hword, hpos, hall⟩ := h
    exact ⟨d, y, hcomes, hplain, hword, by rw [hpos, Nat.add_assoc, Nat.add_comm m], hall⟩

/-- The end of a string is passed with all the quotes before. -/
theorem closes_of_run (ht : g.TripleQuoted k e s q hides) (hp : o.Proper g text start stop first)
    (h : o.ComesTo g c z) (hstate : c.state = s)
    (hall : c.AllFrom (fun a => a = s ∨ a = k.category) i)
    (hrun : 3 ≤ (c.ahead.takeWhile (· == q)).length) :
    Closes g k s i o c.pos (some (c.ahead.takeWhile (· == q)).length) := by
  obtain ⟨hbyte, hreads⟩ := (Cursor.three_le_iff ht.mark.2.2.1).1 hrun
  obtain ⟨t, ha⟩ : ∃ t, c.ahead = q :: t := by
    cases ha : c.ahead with
    | nil => simp [ha] at hrun
    | cons b t => exact ⟨t, by rw [← hbyte, Cursor.byte_cons ha]⟩
  have hmore : c.more = true := Cursor.more_cons ha
  have hcomes := h.again hp hmore (Grammar.dispatch_of_again (ht.closes hstate hbyte hreads))
  have hlength : (c.ahead.takeWhile (· == q)).length = (t.takeWhile (· == q)).length + 1 := by
    rw [ha, List.takeWhile_cons_of_pos (by simp), List.length_cons]
  have hle : (t.takeWhile (· == q)).length ≤ t.length := (List.takeWhile_prefix _).length_le
  have hlast : c.toLastOfRun = c.forwardN (t.takeWhile (· == q)).length := by
    rw [Cursor.toLastOfRun, ha, hbyte, List.tail_cons]
  have hahead : ∃ b u, c.toLastOfRun.ahead = b :: u := by
    refine List.exists_cons_of_length_pos ?_
    rw [hlast, Cursor.ahead_forwardN, ha, List.length_drop, List.length_cons]
    omega
  obtain ⟨b, u, hahead⟩ := hahead
  have hpos : c.toLastOfRun.pos = c.pos + (t.takeWhile (· == q)).length := by
    rw [hlast]
    exact Cursor.pos_forwardN (by rw [ha, List.length_cons]; omega)
  have hstate' : c.toLastOfRun.state = s := by rw [hlast, Cursor.state_forwardN, hstate]
  have hall' : c.toLastOfRun.AllFrom (fun a => a = s ∨ a = k.category) i := by
    rw [hlast]
    exact hall.forwardN (.inl hstate) _
  refine ⟨_, z, hcomes, rfl, rfl, ?_, (hall'.forward (.inl hstate')).switch _⟩
  change c.toLastOfRun.forward.pos = _
  rw [Cursor.pos_forward_cons hahead, hlength, hpos, Nat.add_assoc]

/-- A string begins with its three quotes, which are passed at once. -/
theorem comesTo_of_enters (ht : g.TripleQuoted k e s q hides)
    (hp : o.Proper g text start stop first) (h : o.Enters g s i) :
    ∃ d y, o.ComesTo g d y ∧ d.state = s ∧ d.pos = i + 3 ∧
      d.ahead = (text.take stop).drop (i + 3) ∧ start ≤ i ∧
      d.AllFrom (fun a => a = s ∨ a = k.category) i := by
  obtain ⟨c, z, d, y, e, w, hcomes, hmore, hrule, hplain, rfl, henter, hstate⟩ := h
  obtain ⟨rfl, hbyte, hreads⟩ := ht.opens hplain henter hstate
  obtain ⟨hc, hstart⟩ := hcomes.stands hp
  have hmoves := hp.within hrule
  have hd := hc.within hmoves
  have hlen : 3 ≤ d.ahead.length :=
    Nat.le_trans ((Cursor.three_le_iff ht.mark.2.2.1).2 ⟨hbyte, hreads⟩)
      (List.takeWhile_prefix _).length_le
  have hlen' : (d.switch s).ahead.length = d.ahead.length := rfl
  have hlast : ((d.switch s).forwardN 2).byte = q := by
    simp only [Cursor.readsNext, Bool.and_eq_true, beq_iff_eq] at hreads
    rw [Cursor.byte, Cursor.peek_forwardN]
    exact hreads.2
  have hall : ((d.switch s).forwardN 2).AllFrom (fun a => a = s ∨ a = k.category) d.pos :=
    ((Cursor.AllFrom.here _ d).switch s).forwardN (.inl rfl) 2
  have hstate' : ((d.switch s).forwardN 2).state = s := Cursor.state_forwardN 2
  have hpass := hcomes.pass hmore ((Grammar.dispatch_of_plain hrule hplain).trans henter)
  rw [Grammar.goOn_of_ne g (hlast ▸ ht.mark.2.1)] at hpass
  have hahead : ((d.switch s).forwardN 2).ahead = d.ahead.drop 2 := Cursor.ahead_forwardN 2
  obtain ⟨b, t, ha⟩ := List.exists_cons_of_length_pos
    (show 0 < ((d.switch s).forwardN 2).ahead.length by rw [hahead, List.length_drop]; omega)
  refine ⟨_, w, hpass, by rw [Cursor.state_forward, hstate'], ?_, ?_, ?_,
    hall.forward (.inl hstate')⟩
  · rw [Cursor.pos_forward_cons ha, Cursor.pos_forwardN (by omega)]
    rfl
  · rw [Cursor.ahead_forward, hahead, ← List.drop_one, List.drop_drop, hd.ahead, List.drop_drop]
  · rw [hd.pos, hmoves.start_eq, hstart]
    exact Nat.le_add_right _ _

/-- **The string ends where a reader of all of it finds the first run of quotes.** -/
theorem closes_of_comes (ht : g.TripleQuoted k e s q hides)
    (hp : o.Proper g text start stop first) (h : o.ComesTo g c z) (hstate : c.state = s)
    (hall : c.AllFrom (fun a => a = s ∨ a = k.category) i) :
    Closes g k s i o c.pos (runEnd? (Text.unhidden hides (· == q) c.ahead)) := by
  induction hlen : c.ahead.length using Nat.strongRecOn generalizing c z with
  | _ len ih =>
    subst hlen
    obtain ⟨hback, -, hzero, hinner⟩ := ht.mark
    cases ha : c.ahead with
    | nil => exact ⟨c, z, h, ha, hall, .inl hstate⟩
    | cons b t =>
      have hmore : c.more = true := Cursor.more_cons ha
      have hbyte : c.byte = b := Cursor.byte_cons ha
      have hnext : c.next = t.getD 0 0 := Cursor.next_cons ha
      by_cases hhides : Text.hidesNext hides b (t.getD 0 0) = true
      · -- an escape
        obtain ⟨rfl, rfl, x, t, rfl, hx⟩ := Text.exists_of_hidesNext hhides
        obtain ⟨w, d, y, hw, hd⟩ := exists_back_of_enter hp ht.serves e (.inr rfl) h hall ha hx
          (ht.escapes hstate rfl hbyte)
        have hkind : ∀ b : Byte, b.inEscape = true → (b == q) = false := fun b hb =>
          beq_eq_false_iff_ne.2 (ne_of_inEscape hb hinner)
        have hkind' : (backslash == q) = false := beq_eq_false_iff_ne.2 (Ne.symm hback)
        have hmarks : Text.unhidden true (· == q) (backslash :: x :: t) =
            List.replicate (w.length + 2) false ++ Text.unhidden true (· == q) d.ahead := by
          rw [← ha, hd.ahead]
          exact Text.unhidden_escape hx hkind' hkind hw d.ahead
        have hpos : d.pos = c.pos + (w.length + 2) := hd.pos
        rw [hmarks, runEnd?_replicate_append]
        refine Closes.behind ?_
        rw [← hpos]
        rcases hd.state with hs | ⟨hs, houter, hnil⟩
        · refine ih _ ?_ hd.comes (hs.trans hstate) hd.all rfl
          rw [hd.ahead, List.length_append, List.length_cons]
          omega
        · rw [hnil]
          exact ⟨d, y, hd.comes, hnil, hd.all, .inr ⟨hs, houter.trans hstate⟩⟩
      · have hhides : Text.hidesNext hides b (t.getD 0 0) = false := by simpa using hhides
        have hmark : ((Text.unhidden hides (· == q) (b :: t)).takeWhile id).length =
            (c.ahead.takeWhile (· == q)).length := by rw [Text.takeWhile_unhidden hides hback, ha]
        by_cases hrun : 3 ≤ (c.ahead.takeWhile (· == q)).length
        · -- the quotes that end the string
          have hend := closes_of_run ht hp h hstate hall hrun
          rw [Text.unhidden_cons hhides] at hmark ⊢
          rwa [runEnd?, hmark, if_pos hrun]
        · -- a byte that is passed alone
          have hrule : g.leave c z = .pass c z := by
            by_cases hescape : hides = true ∧ c.byte = backslash
            · rw [ht.escapes hstate hescape.1 hescape.2]
              refine Escape.enter_of_hidesNext e _ z _ ?_
              rwa [← hescape.1, ← hescape.2, hbyte, hnext]
            · exact ht.stays hstate hescape fun h => hrun ((Cursor.three_le_iff hzero).2 h)
          have hcomes := h.pass hmore
            (Grammar.dispatch_of_pass hrule (by rw [hstate]; exact ht.ne_plain))
          have hnext := ih _ (by rw [Grammar.ahead_goOn, ha]; exact Nat.lt_succ_self _) hcomes
            (by rw [Grammar.state_goOn, hstate]) (Grammar.allFrom_goOn g hall (.inl hstate) z) rfl
          rw [Grammar.ahead_goOn, ha, List.tail_cons, Grammar.pos_goOn g ha] at hnext
          rw [Text.unhidden_cons hhides] at hmark ⊢
          rw [runEnd?_cons (by rwa [hmark])]
          exact hnext.behind

omit [DecidableEq σ] in
/-- Where the text ends within the string, the last run is left in it. -/
theorem leave_at_end (ht : g.TripleQuoted k e s q hides) (hnil : c.ahead = [])
    (hall : c.AllFrom (fun a => a = s ∨ a = k.category) i)
    (hstate : c.state = s ∨ c.state = k.category ∧ (k.get z).outer = s) :
    let d := (g.leave c z).cursor
    let y := (g.leave c z).data
    d.AllFrom (fun a => a = s ∨ a = k.category) i ∧
      (d.state = s ∨ d.state = k.category ∧ (k.get y).outer = s) := by
  intro d y
  have hbyte := Cursor.byte_nil hnil
  rcases hstate with hs | ⟨hs, houter⟩
  · have hrule : g.leave c z = .pass c z := by
      refine ht.stays hs (fun h => ?_) fun h => ht.mark.2.2.1 (h.1.symm.trans hbyte)
      exact absurd (hbyte.symm.trans h.2) (by decide)
    simp only [d, y, hrule]
    exact ⟨hall, .inl hs⟩
  · have hrule := ht.serves.leave_at_end (z := z) hnil hs
    simp only [d, y, hrule]
    exact ⟨hall.switch _, .inl houter⟩

/-- What the pass over a part has filled is found so. -/
theorem Fills.found (hm : g.StaysInLine) {len : Nat} {initial : σ} {store store' : LineStore}
    {styles : Styles σ} {found : Outcome σ} {kind : σ → Prop}
    (hscan : scan g text start len initial store styles = .ok (found, store'))
    (h : (ofPart g text start len initial store styles).Fills kind n m) {j : Nat} (hn : n ≤ j)
    (hj : j < m) : ∃ a, (Run.expand found.runs)[j - start]? = some a ∧ kind a := by
  obtain ⟨hle, hfound, -⟩ := of_scan_ok hscan
  obtain ⟨a, ha, hkind⟩ := h j hn hj
  have hbegins := (ofPart_completes hm hle initial store styles).begins
  refine ⟨a, ?_, hkind⟩
  rw [hfound]
  change (Run.expand (Run.encode _ _))[j - start]? = some a
  rw [Run.expand_encode, ← ha, hbegins]

end Pass

open Pass

/-- Strings of the category `s` in three quotes `q` end with the first run of quotes. A scan that
begins such a string at the offset `p` gives all its bytes that category or the one of escapes. They
go as far as the first maximal run of three or more quotes that no backslash hides, if backslashes
hide anything there, and behind that run the scan is in the plain category. If there is no such run
before the end of the part, they go as far as that. -/
def EndsAtQuotes [DecidableEq σ] (g : Grammar σ ζ) (s escape : σ) (q : Byte) (hides : Bool) :
    Prop :=
  ∀ {text : Text} {start len : Nat} {initial : σ} {store store' : LineStore} {styles : Styles σ}
    {found : Outcome σ} {p : Nat},
    scan g text start len initial store styles = .ok (found, store') →
    (outset g text start len initial store styles).Enters g s p →
    let stop := start + len
    let marks := Text.unhidden hides (· == q) ((text.take stop).drop (p + 3))
    let filled := fun stop => ∀ i, p ≤ i → i < stop →
      ∃ a, (Run.expand found.runs)[i - start]? = some a ∧ (a = s ∨ a = escape)
    (∀ a b, FirstClosingRun marks a b → filled (p + 3 + b) ∧
      (outset g text start len initial store styles).PlainAt g (p + 3 + b)) ∧
    ((∀ a b, ¬ClosingRun marks a b) → filled stop)

theorem endsAtQuotes_of_tripleQuoted [DecidableEq σ] {g : Grammar σ ζ} {k : EscapeKeeping σ ζ}
    {e : EscapeSyntax} {s : σ} {q : Byte} {hides : Bool} {rank : σ → Nat} {holds : ζ → Prop}
    (ht : g.TripleQuoted k e s q hides) (hs : g.Settles rank holds) (hm : g.StaysInLine) :
    EndsAtQuotes g s k.category q hides := by
  intro text start len initial store store' styles found p hscan henters stop marks filled
  obtain ⟨hle, -, -⟩ := of_scan_ok hscan
  have hp := proper_outset hs hm hle initial store styles
  obtain ⟨c, z, hcomes, hstate, hpos, hahead, hstart, hall⟩ := comesTo_of_enters ht hp henters
  have hcloses := closes_of_comes ht hp hcomes hstate hall
  rw [hahead, hpos] at hcloses
  have hfilled : ∀ {n : Nat}, (ofPart g text start len initial store styles).Fills
      (fun a => a = s ∨ a = k.category) p n → filled n := fun h _ hi hn =>
    h.found hm hscan hi hn
  refine ⟨fun a b hrun => ?_, fun hnone => ?_⟩
  · rw [runEnd?_eq_some_iff.2 ⟨a, hrun⟩] at hcloses
    obtain ⟨d, y, hend, hplain, hword, hpos', hall'⟩ := hcloses
    rw [← hpos']
    exact ⟨hfilled (hend.fills hp hword hall' hstart _), hend.plainAt hplain (ht.plain hplain)⟩
  · rw [runEnd?_eq_none hnone] at hcloses
    obtain ⟨d, y, hend, hnil, hall', hstate'⟩ := hcloses
    exact hfilled (hend.fills_end hp hnil
      (fun d y => d.AllFrom (fun a => a = s ∨ a = k.category) p ∧
        (d.state = s ∨ d.state = k.category ∧ (k.get y).outer = s)) ⟨hall', hstate'⟩
      (fun _ _ hnil hd => leave_at_end ht hnil hd.1 hd.2) (fun _ _ hd => hd.1) hstart _)

/-! ### TOML -/

namespace Toml

variable {words : WordSets} {c : Place} {m : Memory} {s : Category}

/-- How TOML keeps its escapes. -/
def keeping : EscapeKeeping Category Memory where
  category := .escape
  get m := m.escape
  put e m := { m with escape := e }

theorem serves_keeping (words : WordSets) : keeping.Serves (grammar words) where
  leave c m hs := by
    change leave words c m = _
    rw [leave, show c.state = .escape from hs]
    rfl
  get_put _ _ := rfl
  ne_plain := nofun

/-- A string in triple quotes begins nowhere but in the rule for strings. -/
theorem enter_of_isTriple (hplain : c.state = .plain)
    (h : (enter c m).cursor.state.isTriple = true) :
    (c.byte = apostrophe ∨ c.byte = quote) ∧ enter c m = enterString c m := by
  have hline : (enterLine c m).cursor.state.isTriple = false := by
    simp only [enterLine]
    split_ifs <;> simp only [Flow.cursor, Cursor.state_forward, hplain] <;> rfl
  unfold enter at h ⊢
  by_cases hhash : c.byte = Byte.hash
  · rw [if_pos hhash] at h
    cases h
  · rw [if_neg hhash] at h ⊢
    by_cases hstart : c.visible = 0 ∧ m.brackets = 0
    · rw [if_pos hstart, hline] at h
      cases h
    · rw [if_neg hstart] at h ⊢
      unfold enterValue at h ⊢
      by_cases hquote : c.byte = apostrophe ∨ c.byte = quote
      · exact ⟨hquote, if_pos hquote⟩
      · rw [if_neg hquote] at h
        split_ifs at h <;> simp [Flow.cursor, Cursor.switch, Category.isTriple, hplain] at h

/-- What a string in triple quotes begins with. -/
theorem enterString_of_isTriple (hb : c.byte = apostrophe ∨ c.byte = quote)
    (h : (enterString c m).cursor.state.isTriple = true) :
    c.readsNext c.byte c.byte = true ∧ (enterString c m).cursor.state.closingByte = c.byte ∧
      enterString c m = .pass ((c.switch (enterString c m).cursor.state).forwardN 2) m := by
  by_cases hreads : c.readsNext c.byte c.byte = true
  · have hrule : enterString c m = .pass ((c.switch
        (if c.byte = quote then .tripleString else .tripleLiteralString)).forwardN 2) m :=
      if_pos hreads
    have hstate : (enterString c m).cursor.state =
        if c.byte = quote then .tripleString else .tripleLiteralString := by
      rw [hrule]
      exact Cursor.state_forwardN 2
    refine ⟨hreads, ?_, by rw [hstate, hrule]⟩
    rw [hstate]
    rcases hb with hb | hb <;> rw [hb] <;> rfl
  · have hrule : enterString c m = .pass
        (c.switch (if c.byte = quote then .string else .literalString)) m := if_neg hreads
    rw [hrule] at h
    rcases hb with hb | hb <;> rw [hb] at h <;> cases h

theorem leave_of_isTriple (words : WordSets) (m : Memory) (hs : s.isTriple = true)
    (h : c.state = s) : (grammar words).leave c m =
      if c.byte = backslash ∧ s.isBasic = true then
        Escape.enter escapes .escape c m fun e => { m with escape := e }
      else if c.byte = s.closingByte ∧ c.readsNext s.closingByte s.closingByte = true then
        .again (c.toLastOfRun.forwardSwitch .plain) m
      else .pass c m := by
  have hrule : (grammar words).leave c m = leaveString words c m := by
    change leave words c m = _
    unfold leave
    rw [h]
    revert hs
    cases s <;> first | exact fun _ => rfl | nofun
  rw [hrule, leaveString]
  simp only [h, hs, Bool.not_true, Bool.false_eq_true, and_false, if_false]
  by_cases hescape : c.byte = backslash ∧ s.isBasic = true
  · rw [if_pos hescape, if_pos hescape]
  · rw [if_neg hescape, if_neg hescape]
    by_cases hclose : c.byte = s.closingByte
    · simp [hclose]
    · simp [hclose]

/-- Strings in triple quotes and in triple apostrophes. -/
theorem tripleQuoted (words : WordSets) (hs : s.isTriple = true) :
    (grammar words).TripleQuoted keeping escapes s s.closingByte s.isBasic where
  serves := serves_keeping words
  plain {c m} hplain := by
    change leave words c m = _
    rw [leave, show c.state = .plain from hplain]
  opens {c m d y} hplain hrule hd := by
    have hstate : (enter c m).cursor.state = s := by
      rw [← hd, show enter c m = .pass d y from hrule]
      rfl
    obtain ⟨hb, henter⟩ := enter_of_isTriple (m := m) hplain (hstate ▸ hs)
    rw [henter] at hstate
    obtain ⟨hreads, hclosing, hpass⟩ := enterString_of_isTriple hb (hstate ▸ hs)
    rw [hstate] at hclosing hpass
    have hsame : Flow.pass d y = .pass ((c.switch s).forwardN 2) m := by
      rw [← show enter c m = .pass d y from hrule, henter, hpass]
    rw [hclosing]
    exact ⟨(Flow.pass.inj hsame).1, rfl, hreads⟩
  escapes {c m} h hbasic hb := by
    rw [leave_of_isTriple words m hs h, if_pos ⟨hb, hbasic⟩]
    rfl
  closes {c m} h hb hreads := by
    have hback : ¬(c.byte = backslash ∧ s.isBasic = true) := by
      rintro ⟨hb', -⟩
      revert hb
      rw [hb', Category.closingByte]
      split <;> decide
    rw [leave_of_isTriple words m hs h, if_neg hback, if_pos ⟨hb, hreads⟩]
    rfl
  stays {c m} h hescape hclose := by
    rw [leave_of_isTriple words m hs h, if_neg fun h => hescape h.symm, if_neg hclose]
  ne_plain := by
    rintro rfl
    cases hs
  mark := by cases s <;> decide

end Toml

/-! ### Scala -/

namespace Scala

open Byte (less lbrace rbrace slash star)

variable {config : Config} {c d : Place} {m y : Memory}

/-- How Scala keeps its escapes. -/
def keeping : EscapeKeeping Category Memory where
  category := .escape
  get m := m.escape
  put e m := { m with escape := e }

theorem serves_keeping (config : Config) : keeping.Serves (grammar config) where
  leave c m hs := by
    change leave config c m = _
    rw [leave, show c.state = .escape from hs]
    rfl
  get_put _ _ := rfl
  ne_plain := nofun

/-- The rule does not pass a byte as one of a string in triple quotes. -/
def BeginsOther (r : Rule) : Prop := ∀ d y, r = .pass d y → d.state ≠ .tripleString

theorem beginsOther_pass (h : d.state ≠ .tripleString) : BeginsOther (.pass d y) := by
  rintro _ _ ⟨⟩
  exact h

theorem beginsOther_again (d : Place) (y : Memory) : BeginsOther (.again d y) := by
  intro _ _ h
  cases h

theorem enterTag_beginsOther : BeginsOther (enterTag c m) := by
  unfold enterTag
  split_ifs
  · exact beginsOther_pass (by rw [Cursor.state_forward]; nofun)
  · exact beginsOther_pass nofun

theorem enterApostrophe_beginsOther : BeginsOther (enterApostrophe c m) := by
  unfold enterApostrophe
  split_ifs <;> exact beginsOther_pass nofun

/-- A brace may close a hole in a string, but the string goes on only behind it. -/
theorem enterOperator_beginsOther : BeginsOther (enterOperator c m) := by
  unfold enterOperator
  split_ifs
  · exact beginsOther_pass (by rw [Cursor.state_forward]; nofun)
  · simp only [enterRegionOperator]
    split_ifs
    · exact beginsOther_pass nofun
    · split
      · exact beginsOther_again _ _
      · exact beginsOther_pass nofun
    · exact beginsOther_pass nofun
  all_goals exact beginsOther_pass nofun

theorem enterPunctuation_beginsOther (hb : c.byte ≠ quote) :
    BeginsOther (enterPunctuation config c m) := by
  refine enterPunctuation_cases (motive := BeginsOther) ?line ?block ?string ?letter ?tag ?sign
    ?name ?operator
  case line | name => exact beginsOther_pass nofun
  case block => exact fun _ _ => beginsOther_again _ _
  case string => exact fun hquote => absurd hquote hb
  case letter => exact enterApostrophe_beginsOther
  case tag => exact fun _ => enterTag_beginsOther
  case sign =>
    intro s hs
    refine beginsOther_pass ?_
    change s ≠ .tripleString
    rintro rfl
    exact absurd hs (by decide)
  case operator => exact enterOperator_beginsOther

theorem enter_beginsOther (hplain : c.state = .plain) (hb : c.byte ≠ quote) :
    BeginsOther (enter config c m) := by
  unfold enter
  cases ByteClass.of c.byte
  case digit | nameStart => exact beginsOther_pass nofun
  case space | lineEnd | control => exact beginsOther_pass (by rw [hplain]; nofun)
  case punctuation => exact enterPunctuation_beginsOther hb

theorem enter_of_quote (config : Config) (m : Memory) (hb : c.byte = quote) :
    enter config c m = enterString config c m := by
  rw [enter, hb, show ByteClass.of quote = .punctuation by decide]
  simp only [enterPunctuation, hb]
  rfl

/-- A string in triple quotes begins nowhere but in the rule for strings. -/
theorem enter_of_tripleString (hplain : c.state = .plain) (h : enter config c m = .pass d y)
    (hd : d.state = .tripleString) : c.byte = quote ∧ enterString config c m = .pass d y := by
  by_cases hb : c.byte = quote
  · exact ⟨hb, enter_of_quote config m hb ▸ h⟩
  · exact absurd hd (enter_beginsOther hplain hb d y h)

/-- What a string in triple quotes begins with. -/
theorem enterString_of_tripleString (h : enterString config c m = .pass d y)
    (hd : d.state = .tripleString) :
    d = (c.switch .tripleString).forwardN 2 ∧ c.readsNext quote quote = true := by
  unfold enterString at h
  split_ifs at h with hreads
  · obtain ⟨rfl, -⟩ := Flow.pass.inj h
    rw [Cursor.state_forwardN] at hd
    exact ⟨by rw [show (if startsInterpolated config c = true then Category.tripleInterpolated
      else .tripleString) = .tripleString from hd], hreads⟩
  · obtain ⟨rfl, -⟩ := Flow.pass.inj h
    change (if startsInterpolated config c = true then Category.interpolated else .string) =
      Category.tripleString at hd
    split_ifs at hd

theorem leave_of_tripleString (config : Config) (m : Memory) (h : c.state = .tripleString) :
    (grammar config).leave c m =
      if c.byte = backslash then Escape.enter escapes .escape c m fun e => { m with escape := e }
      else if c.byte = quote ∧ c.readsNext quote quote = true then
        .again (c.toLastOfRun.forwardSwitch .plain) m
      else .pass c m := by
  have hrule : (grammar config).leave c m = leaveLiteral c m := by
    change leave config c m = _
    rw [leave, h]
  rw [hrule, leaveLiteral, closeLiteral, h]
  simp [Category.endsWithLine, Category.isInterpolated, Category.closingByte, Category.isTriple]

/-- Strings in triple quotes that are not interpolated. -/
theorem tripleQuoted (config : Config) :
    (grammar config).TripleQuoted keeping escapes .tripleString quote true where
  serves := serves_keeping config
  plain {c m} hplain := by
    change leave config c m = _
    rw [leave, show c.state = .plain from hplain]
  opens {c m d y} hplain hrule hd := by
    obtain ⟨hb, hrule⟩ := enter_of_tripleString hplain hrule hd
    obtain ⟨heq, hreads⟩ := enterString_of_tripleString hrule hd
    exact ⟨heq, hb, hreads⟩
  escapes {c m} h _ hb := by
    rw [leave_of_tripleString config m h, if_pos hb]
    rfl
  closes {c m} h hb hreads := by
    rw [leave_of_tripleString config m h, if_neg (by rw [hb]; decide), if_pos ⟨hb, hreads⟩]
    rfl
  stays {c m} h hescape hclose := by
    rw [leave_of_tripleString config m h, if_neg fun hb => hescape ⟨rfl, hb⟩, if_neg hclose]
  ne_plain := nofun
  mark := by decide

end Scala

/-- **Strings in triple quotes end at the first run of quotes that is long enough**, in Scala and in
TOML, where in a literal string nothing is hidden. -/
theorem triple_strings_end (config : Scala.Config) (words : WordSets) :
    EndsAtQuotes (Scala.grammar config) .tripleString .escape quote true ∧
      EndsAtQuotes (Toml.grammar words) .tripleString .escape quote true ∧
      EndsAtQuotes (Toml.grammar words) .tripleLiteralString .escape apostrophe false :=
  ⟨endsAtQuotes_of_tripleQuoted (Scala.tripleQuoted config) (Scala.settles config)
      (Scala.staysInLine config),
    endsAtQuotes_of_tripleQuoted (Toml.tripleQuoted words (s := .tripleString) rfl)
      (Toml.settles words) (Toml.staysInLine words),
    endsAtQuotes_of_tripleQuoted (Toml.tripleQuoted words (s := .tripleLiteralString) rfl)
      (Toml.settles words) (Toml.staysInLine words)⟩

/-- A backslash takes one of the first three quotes away, so the string goes on into the second
line. Of the four quotes there the first one belongs to the string. In a literal string, here one
that begins behind a string from the line before, a backslash does not. -/
theorem triple_strings_end_hidden :
    let g := Scala.grammar { words := {} }
    let text : Text := [quote, quote, quote, backslash, quote, quote, quote, newline, quote, quote,
      quote, quote, zero]
    let toml := Toml.grammar {}
    let literal : Text := [quote, quote, quote, apostrophe, apostrophe, apostrophe, backslash,
      apostrophe, apostrophe, apostrophe, newline]
    ((outset g text 0 13 .plain #[] #[]).Enters g .tripleString 0 ∧
      (∃ a, FirstClosingRun (Text.unhidden true (· == quote) (text.drop 3)) a 9) ∧
      ∃ found store, scan g text 0 13 .plain #[] #[] = .ok (found, store) ∧
        (∃ k, (Run.expand found.runs)[11]? = some k ∧ (k = .tripleString ∨ k = .escape)) ∧
        (outset g text 0 13 .plain #[] #[]).PlainAt g 12) ∧
    (outset toml literal 0 11 .tripleString #[] #[]).Enters toml .tripleLiteralString 3 ∧
      (∃ a, FirstClosingRun (Text.unhidden false (· == apostrophe) (literal.drop 6)) a 4) ∧
      (outset toml literal 0 11 .tripleString #[] #[]).PlainAt toml 10 := by
  intro g text toml literal
  constructor
  · have henters : (outset g text 0 13 .plain #[] #[]).Enters g .tripleString 0 :=
      ⟨_, _, _, _, _, _, ⟨0, rfl, rfl⟩, rfl, rfl, rfl, rfl, rfl, rfl⟩
    have hmarks : runEnd? (Text.unhidden true (· == quote) (text.drop 3)) = some 9 := by decide
    obtain ⟨a, hfirst⟩ := runEnd?_eq_some_iff.1 hmarks
    obtain ⟨found, store, hscan⟩ : ∃ found store,
        scan g text 0 13 .plain #[] #[] = .ok (found, store) :=
      ⟨_, _, scan_of_valid g (by decide) (.inl rfl) .plain #[] #[]⟩
    obtain ⟨hfilled, hplain⟩ :=
      ((triple_strings_end { words := {} } {}).1 hscan henters).1 a 9 hfirst
    exact ⟨henters, ⟨a, hfirst⟩, _, _, hscan, hfilled 11 (Nat.zero_le _) (by decide), hplain⟩
  · have henters :
        (outset toml literal 0 11 .tripleString #[] #[]).Enters toml .tripleLiteralString 3 :=
      ⟨_, _, _, _, _, _, ⟨1, rfl, rfl⟩, rfl, rfl, rfl, rfl, rfl, rfl⟩
    have hmarks : runEnd? (Text.unhidden false (· == apostrophe) (literal.drop 6)) = some 4 := by
      decide
    obtain ⟨a, hfirst⟩ := runEnd?_eq_some_iff.1 hmarks
    obtain ⟨found, store, hscan⟩ : ∃ found store,
        scan toml literal 0 11 .tripleString #[] #[] = .ok (found, store) :=
      ⟨_, _, scan_of_valid toml (by decide) (.inl rfl) .tripleString #[] #[]⟩
    obtain ⟨-, hplain⟩ :=
      ((triple_strings_end { words := {} } {}).2.2 hscan henters).1 a 4 hfirst
    exact ⟨henters, ⟨a, hfirst⟩, hplain⟩

end Highlight
