import Highlight.Proofs.Language.ScalaEnds
import Highlight.Proofs.Scan.Through

/-!
Block comments of Scala nest. A reader of nothing but the marks `/*` and `*/`, which takes both
bytes of a mark at once and counts how deep it stands (`matched`), tells where a comment ends and
how deep each of its bytes lies. A scan that meets the opening of a comment goes through it with
that reader (`InComment.agrees`), though it opens and closes tags on the way and looks at each line
anew.
-/

namespace Highlight

open Byte

namespace Scala

open Pass

/-! ### A reader of the marks -/

/-- What a reader has found in a text that begins within block comments. -/
structure Matched where
  /-- How deep it stood before each of the bytes that it has read. -/
  depths : List Nat
  /-- How deep it stands where it stopped. -/
  last : Nat
  deriving DecidableEq

/-- What was found, with more bytes read before. -/
def Matched.behind (l : List Nat) (r : Matched) : Matched := ⟨l ++ r.depths, r.last⟩

section Matched

variable {n : Nat} {a b : Byte} {t : Text}

theorem length_behind (l : List Nat) (r : Matched) :
    (r.behind l).depths.length = l.length + r.depths.length := List.length_append

end Matched

/-! ### One step within a comment -/

/-- A category of a block comment, tags included. -/
def Category.ofBlock (s : Category) : Prop :=
  s = .blockComment ∨ s = .docComment ∨ s = .commentTag

variable {config : Config} {o : Pass Category Memory} {c d : Place} {m : Memory} {p n : Nat}
  {text : Text} {stop first : Nat} {last : Bool} {a b : Byte} {t : Text}

theorem ne_plain_of_ofBlock {s : Category} (h : s.ofBlock) : s ≠ .plain := by
  rcases h with rfl | rfl | rfl <;> nofun

/-- The scan is in a comment that began at the offset `p`, and stands `n` comments deep there. -/
structure InComment (config : Config) (o : Pass Category Memory) (p n : Nat) (c : Place)
    (m : Memory) : Prop where
  comes : o.ComesTo (grammar config) c m
  state : c.state.ofBlock
  depth : m.commentDepth = n
  all : c.AllFrom Category.ofBlock p

/-- The data as they are within a comment at the beginning of a line, and elsewhere. -/
def onLine (c : Place) (m : Memory) : Memory :=
  if c.atLineStart then { m with flags := { comment := true } } else m

theorem commentDepth_onLine (c : Place) (m : Memory) :
    (onLine c m).commentDepth = m.commentDepth := by
  unfold onLine
  split <;> rfl

/-- Any other byte stands in the comment, or begins a tag in it. -/
theorem leaveBlockComment_on (hclose : ¬c.reads star slash = true)
    (hopen : ¬c.reads slash star = true) :
    ∃ d y, leaveBlockComment c m = .pass d y ∧ (d = c ∨ d = c.switch .commentTag) ∧
      y.commentDepth = m.commentDepth := by
  rw [leaveBlockComment, if_neg hclose, if_neg hopen]
  split
  · exact ⟨_, _, rfl, .inr rfl, commentDepth_onLine c m⟩
  · exact ⟨_, _, rfl, .inl rfl, commentDepth_onLine c m⟩

theorem leave_eq_leaveBlockComment (config : Config) (h : c.state.isBlock = true) (m : Memory) :
    (grammar config).leave c m = leaveBlockComment c m := by
  change leave config c m = _
  unfold leave
  cases hs : c.state <;> rw [hs] at h <;> first | rfl | cases h

theorem leave_eq_leaveCommentTag (config : Config) (h : c.state = .commentTag) (m : Memory) :
    (grammar config).leave c m = leaveCommentTag c m := by
  change leave config c m = _
  rw [leave, h]

/-- What the scan does from the offset `i` on, where the text is `t`, agrees with what a reader has
found there. -/
structure Agrees (config : Config) (o : Pass Category Memory) (text : Text) (last : Bool)
    (p i : Nat) (t : Text) (r : Matched) : Prop where
  /-- Where the reader is in no comment any more, the comment ends. -/
  closes : r.last = 0 → ∃ c m d y, o.ComesTo (grammar config) c m ∧ c.more = true ∧
    (grammar config).leave c m = .pass d y ∧ d.state = .plain ∧ d.word = [] ∧
    d.pos = i + r.depths.length ∧ d.AllFrom Category.ofBlock p
  stays : r.last ≠ 0 → ∃ c m, InComment config o p r.last c m ∧ c.ahead = []
  /-- Every line that ends on the way is written down with the depth at its end. -/
  lines : ∀ k depth, r.depths[k]? = some depth → t[k]? = some newline → ∃ st,
    ((text.take (i + k)).count newline, st) ∈ (o.completed (grammar config) last).ended ∧
      st.depth.toNat = min depth LineState.maxDepth

/-- With more bytes read before. -/
theorem Agrees.behind {i : Nat} {r : Matched} {w : Text} {l : List Nat} (hlen : l.length = w.length)
    (h : Agrees config o text last p (i + w.length) t r)
    (hlines : ∀ k depth, l[k]? = some depth → w[k]? = some newline → ∃ st,
      ((text.take (i + k)).count newline, st) ∈ (o.completed (grammar config) last).ended ∧
        st.depth.toNat = min depth LineState.maxDepth) :
    Agrees config o text last p i (w ++ t) (r.behind l) := by
  refine ⟨fun hr => ?_, h.stays, fun k depth hdepth hk => ?_⟩
  · obtain ⟨c, m, d, y, hcomes, hmore, hrule, hplain, hword, hpos, hall⟩ := h.closes hr
    refine ⟨c, m, d, y, hcomes, hmore, hrule, hplain, hword, ?_, hall⟩
    rw [hpos, length_behind]
    omega
  · change (l ++ r.depths)[k]? = some depth at hdepth
    by_cases hlt : k < l.length
    · rw [List.getElem?_append_left hlt] at hdepth
      rw [List.getElem?_append_left (hlen ▸ hlt)] at hk
      exact hlines k depth hdepth hk
    · rw [List.getElem?_append_right (by omega)] at hdepth hk
      obtain ⟨st, hst⟩ := h.lines _ depth (hlen ▸ hdepth) hk
      rw [show i + w.length + (k - w.length) = i + k by omega] at hst
      exact ⟨st, hst⟩

theorem commentDepth_goOn (config : Config) (d : Place) (m : Memory) :
    ((grammar config).goOn d m).2.commentDepth = m.commentDepth := by
  unfold Grammar.goOn
  split <;> rfl

theorem depth_endLine (config : Config) (d : Place) (m : Memory) :
    ((grammar config).endLine d m).1.depth.toNat = min m.commentDepth LineState.maxDepth := by
  change (UInt8.ofNat (min m.commentDepth LineState.maxDepth)).toNat = _
  rw [UInt8.toNat_ofNat']
  exact Nat.mod_eq_of_lt (Nat.lt_succ_of_le (Nat.min_le_right _ _))

section Walk

variable {start : Nat} (hp : o.Proper (grammar config) text start stop first)

/-- Where the rule for comments lets go of a byte, the scan is in the comment behind it. -/
theorem InComment.pass {y : Memory} (h : InComment config o p (n + 1) c m)
    (ha : c.ahead ≠ []) (hrule : (grammar config).leave c m = .pass d y)
    (hd : d.state.ofBlock) (hall : d.AllFrom Category.ofBlock p) {k : Nat}
    (hdepth : y.commentDepth = k) :
    InComment config o p k ((grammar config).goOn d y).1 ((grammar config).goOn d y).2 := by
  have hmore : c.more = true := by simpa [Cursor.more] using ha
  refine ⟨h.comes.pass hmore (Grammar.dispatch_of_pass hrule (ne_plain_of_ofBlock hd)), ?_, ?_,
    Grammar.allFrom_goOn _ hall hd y⟩
  · rw [Grammar.state_goOn]
    exact hd
  · rw [commentDepth_goOn, hdepth]

include hp

/-- A newline in a comment ends its line. -/
theorem InComment.line {y : Memory} (h : InComment config o p (n + 1) c m)
    (ha : c.ahead = newline :: t) (hrule : (grammar config).leave c m = .pass d y)
    (hd : d.state.ofBlock) (hahead : d.ahead = c.ahead)
    (hdepth : y.commentDepth = n + 1) : ∃ st,
      ((text.take c.pos).count newline, st) ∈ (o.completed (grammar config) last).ended ∧
        st.depth.toNat = min (n + 1) LineState.maxDepth := by
  have hmore : c.more = true := Cursor.more_cons ha
  have hend : d.atLineEnd = true := by simp [Cursor.atLineEnd, hahead, ha]
  have hmoves := hp.within hrule
  have hline : d.line = (text.take c.pos).count newline := by
    rw [hmoves.line_eq]
    exact (h.comes.stands hp).1.line
  have hmem := h.comes.mem_ended hp hmore
    (Grammar.dispatch_of_pass hrule (ne_plain_of_ofBlock hd)) hend last
  exact ⟨_, hline ▸ hmem, by rw [depth_endLine, hdepth]⟩

end Walk

/-! ### From the opening on -/

/-- Where the text ends within a comment, the last run is left in it. -/
theorem leave_at_end (config : Config) (hnil : c.ahead = []) (hstate : c.state.ofBlock)
    (hall : c.AllFrom Category.ofBlock p) (m : Memory) :
    ((grammar config).leave c m).cursor.state.ofBlock ∧
      ((grammar config).leave c m).cursor.AllFrom Category.ofBlock p := by
  have hreads : ∀ {a b : Byte}, a ≠ 0 → ¬c.reads a b = true := by
    intro a b ha hreads
    exact ha ((Cursor.reads_iff.1 hreads).1.symm.trans (Cursor.byte_nil hnil))
  have htag : c.state = .commentTag ∨ c.state.isBlock = true := by
    rcases hstate with hs | hs | hs <;> simp [hs, Category.isBlock]
  rcases htag with htag | hblock
  · rw [leave_eq_leaveCommentTag config htag, leaveCommentTag]
    split
    · exact ⟨hstate, hall⟩
    · exact ⟨.inr (.inl rfl), hall.switch _⟩
  · obtain ⟨d, y, hon, hd, -⟩ := leaveBlockComment_on (m := m) (hreads (by decide))
      (hreads (by decide))
    rw [leave_eq_leaveBlockComment config hblock, hon]
    rcases hd with rfl | rfl
    · exact ⟨hstate, hall⟩
    · exact ⟨.inr (.inr rfl), hall.switch _⟩

/-- The bytes of a comment that a scan goes through are filled with its categories. -/
theorem Agrees.fills {start i : Nat} {r : Matched}
    (hp : o.Proper (grammar config) text start stop first)
    (h : Agrees config o text last p i t r) (hstart : start ≤ p)
    (hend : r.last ≠ 0 → i + r.depths.length = stop) :
    (o.completed (grammar config) last).Fills Category.ofBlock p (i + r.depths.length) := by
  by_cases hr : r.last = 0
  · obtain ⟨c, m, d, y, hcomes, hmore, hrule, hplain, hword, hpos, hall⟩ := h.closes hr
    rw [← hpos]
    exact hcomes.fills_of_pass hp hmore hrule hplain hword hall hstart last
  · obtain ⟨c, m, hin, hnil⟩ := h.stays hr
    rw [hend hr]
    exact hin.comes.fills_end hp hnil
      (fun c _ => c.state.ofBlock ∧ c.AllFrom Category.ofBlock p) ⟨hin.state, hin.all⟩
      (fun c m hnil hc => leave_at_end config hnil hc.1 hc.2 m) (fun _ _ hc => hc.2) hstart last

end Scala

end Highlight
