import Highlight.Proofs.Language.ScalaRules
import Highlight.Proofs.Line.Store

/-!
Scala keeps to its regime. A line that is not nested ends outside all holes, braces and markup, and
if block comments are nested there no deeper than a line state holds, all that a scan knows at its
end is kept of it.
-/

namespace Highlight.Scala

open Byte (newline quote lbrace lparen hash bang)

section Rules

variable {config : Config} {k k' : List Category} {u u' : Text} {c c' : Place} {m m' : Memory}

/-! ### What ends -/

theorem leave_twin (h : Cursor.Alike conduct k k' u u' c c') (hf : (regime config).fits c.state m)
    (hn : (regime config).named c.state = true → c.HasName)
    (hl : (regime config).like c.state m m') :
    Flow.Twin (regime config) c c' (leave config c m) (leave config c' m') := by
  obtain ⟨he, hesc, -⟩ := id hl
  obtain ⟨hm, hj, houter, -⟩ := id hf
  have hplain : Flow.Twin (regime config) c c' (.pass (c.switch .plain) m)
      (.pass (c'.switch .plain) m') := pass_of_crosses (.switch .refl _) he hm rfl
  unfold leave
  rw [← h.state]
  cases hs : c.state
  case plain => exact pass_of_crosses .refl he hm (by rw [hs]; rfl)
  case operator | punctuation | postfixOperator => exact hplain
  case number =>
    simp only [← h.continuesNumber_eq]
    split_ifs with hb
    · exact pass_of_byte .refl he hm (Byte.ne_newline_of_continuesNumber hb) (by rw [hs]; rfl)
    · exact hplain
  case identifier | annotationName | symbol | tag | attributeName => exact leaveWord_twin h hn hl hf
  case lineComment =>
    simp only [← h.atLineStart]
    split_ifs
    · exact hplain
    · exact pass_of_crosses .refl he hm (by rw [hs]; rfl)
  case blockComment | docComment => exact leaveBlockComment_twin h (by rw [hs]; rfl) he hm
  case commentTag => exact leaveCommentTag_twin h hs he hm
  case escape =>
    have ho := houter hs
    have hc := crosses_of_literal ho
    obtain ⟨hj', -, hi'⟩ := ne_of_simple (simple_of_crosses hc)
    rw [← hesc hs]
    exact Escape.leave_twin h m.escape (by rw [hs]; rfl) hc
      ⟨{ he with }, fun _ => rfl, fun e => by rw [hs] at e; cases e⟩
      ⟨⟨hm.full, hm.cap, hm.held⟩, hj, fun _ => ho, fun e => by rw [hs] at e; cases e⟩
      ⟨{ he with }, fun _ => rfl, fun e => absurd e hi'⟩
      ⟨⟨hm.full, hm.cap, hm.held⟩, hj', fun _ => ho, fun e => absurd e hi'⟩
  case markupText | markupOther => exact leaveMarkup_twin h (by rw [hs]; rfl) he hm
  case backquoted | character | string | interpolated | tripleString | tripleInterpolated |
      singleQuoted | doubleQuoted =>
    exact leaveLiteral_twin h (by rw [hs]; rfl) he hm
  case keyword | className | traitName | enumName | functionDefinition | function =>
    rw [hs] at hj
    cases hj

/-! ### What begins -/

theorem enterRegionOperator_twin (h : Cursor.Alike conduct k k' u u' c c')
    (hb : c.byte ≠ newline) (he : Even m m') (hm : Sane config m) :
    Flow.Twin (regime config) c c' (enterRegionOperator c m) (enterRegionOperator c' m') := by
  have hbyte : (c.switch .punctuation).byte = (c'.switch .punctuation).byte := h.byte_eq
  have hstay : Flow.Twin (regime config) c c' (.pass (c.switch .punctuation) m)
      (.pass (c'.switch .punctuation) m') := pass_of_byte (.switch .refl _) he hm hb rfl
  unfold enterRegionOperator
  simp only [← hbyte]
  split_ifs
  · exact pass_of_byte (.switch .refl _) (he.push _) (hm.push rfl) hb rfl
  · rcases he.regions.pop? with ⟨h₁, h₂⟩ | ⟨s, t, t', h₁, h₂, ht⟩
    · rw [h₁, h₂]
      exact hstay
    · obtain ⟨hc, hm'⟩ := hm.pop h₁
      rw [h₁, h₂]
      exact again_of_crosses (((Cursor.InStep.refl.switch _).forward hb).switch _)
        { he with regions := ht } hm' hc
  · exact hstay

theorem enterOperator_twin (h : Cursor.Alike conduct k k' u u' c c') (hb : c.byte ≠ newline)
    (he : Even m m') (hm : Sane config m) :
    Flow.Twin (regime config) c c' (enterOperator c m) (enterOperator c' m') := by
  have hvisible : c.visible = c'.visible := h.visible
  unfold enterOperator
  simp only [← h.byte_eq, ← h.next_eq hb, ← he.regions.isEmpty_eq, ← hvisible]
  split_ifs with hdouble hregion hcloser
  · refine pass_of_byte ((Cursor.InStep.refl.switch _).forward hb) he hm ?_ ?_
    · rw [Cursor.byte_forward]
      change c.next ≠ newline
      rwa [hdouble.2]
    · rw [Cursor.state_forward]
      rfl
  · exact enterRegionOperator_twin h hb he hm
  · exact pass_of_byte (.switch .refl _) he.markCloser ⟨hm.full, hm.cap, hm.held⟩ hb rfl
  · exact pass_of_byte (.switch .refl _) he hm hb rfl

theorem startsInterpolated_eq (h : Cursor.Alike conduct k k' u u' c c') :
    startsInterpolated config c = startsInterpolated config c' := by
  have hname := h.toKin.behind isNameByte (by decide)
  unfold startsInterpolated
  rw [h.category trivial, hname]

theorem enterString_twin (h : Cursor.Alike conduct k k' u u' c c') (hb : c.byte = quote)
    (he : Even m m') (hm : Sane config m) :
    Flow.Twin (regime config) c c' (enterString config c m) (enterString config c' m') := by
  have hnl : c.byte ≠ newline := by
    rw [hb]
    decide
  have hbegin : ∀ s : Category, s.isLiteral = true →
      Flow.Twin (regime config) c c' (.pass (c.switch s) m) (.pass (c'.switch s) m') :=
    fun s hs => pass_of_crosses (.switch .refl s) he hm (crosses_of_literal hs)
  have hlong : ∀ s : Category, s.isLiteral = true → c.readsNext quote quote = true →
      Flow.Twin (regime config) c c' (.pass ((c.switch s).forwardN 2) m)
        (.pass ((c'.switch s).forwardN 2) m') := by
    intro s hs hrun
    have hnext : c.next = quote := by
      simp only [Cursor.readsNext, Bool.and_eq_true, beq_iff_eq] at hrun
      exact hrun.1
    have hswitch : Cursor.InStep conduct c c' (c.switch s) (c'.switch s) := .switch .refl s
    have hclear : (c.switch s).ahead.Clear 2 := Cursor.clear_two (c := c.switch s) hnl (by
      change c.next ≠ newline
      rw [hnext]
      decide)
    refine pass_of_crosses (hswitch.forwardN (hswitch.alike h) hclear) he hm ?_
    rw [Cursor.state_forwardN]
    exact crosses_of_literal hs
  unfold enterString
  simp only [← startsInterpolated_eq h,
    ← h.readsNext_eq hnl (show quote ≠ newline by decide) quote]
  split_ifs with hrun hi hi
  · exact hlong _ rfl hrun
  · exact hlong _ rfl hrun
  · exact hbegin _ rfl
  · exact hbegin _ rfl

theorem enterApostrophe_twin (h : Cursor.Alike conduct k k' u u' c c') (hb : c.byte ≠ newline)
    (he : Even m m') (hm : Sane config m) :
    Flow.Twin (regime config) c c' (enterApostrophe c m) (enterApostrophe c' m') := by
  have hchar : Flow.Twin (regime config) c c' (.pass (c.switch .character) m)
      (.pass (c'.switch .character) m') := pass_of_crosses (.switch .refl _) he hm rfl
  unfold enterApostrophe
  simp only [← h.next_eq hb]
  by_cases hnext : c.next = newline
  · -- the byte behind the end of the line decides nothing
    have hlbrace : ¬ c.next = lbrace := by
      rw [hnext]
      decide
    have hname : ¬ isNameStart c.next = true := by
      rw [hnext]
      decide
    simp only [if_neg hlbrace, if_neg hname, ite_self]
    exact hchar
  · simp only [← h.peek_two hb hnext]
    split_ifs
    · exact hchar
    · exact pass_of_byte (.switch .refl _) he hm hb rfl
    · exact pass_of_byte (.switch .refl _) he hm hb rfl
    · exact hchar

theorem opensTag_eq (h : Cursor.Alike conduct k k' u u' c c') (hb : c.byte ≠ newline) :
    opensTag c = opensTag c' := by
  have hfollows : followsValue c.trail = followsValue c'.trail := by
    unfold followsValue
    rw [h.byte, h.category trivial]
  unfold opensTag
  rw [← h.next_eq hb, ← hfollows, ← h.category trivial]
  refine congrArg _ (h.behind (fun b => b == lparen || b == lbrace || (b ≤ Byte.space &&
    (c.trail.category == .tag || c.trail.category == .keyword || !followsValue c.trail))) ?_)
  rfl

theorem enterPunctuation_twin (h : Cursor.Alike conduct k k' u u' c c') (hb : c.byte ≠ newline)
    (hv : c.byte ≠ 0 ∧ Byte.isSpace c.byte = false) (he : Even m m') (hm : Sane config m) :
    Flow.Twin (regime config) c c' (enterPunctuation config c m)
      (enterPunctuation config c' m') := by
  unfold enterPunctuation
  simp only [← h.byte_eq, ← h.next_eq hb, ← opensTag_eq h hb]
  refine .ite (fun hline => ?line) fun _ => .ite (fun hblock => ?block) fun _ =>
    .ite (fun hstring => ?string) fun _ => .ite (fun hchar => ?char) fun _ =>
    .ite (fun hless => .ite (fun htag => ?tag) fun _ => ?less) fun _ =>
    .ite (fun hback => ?backquoted) fun _ => .ite (fun hnumber => ?number) fun _ =>
    .ite (fun hdollar => ?dollar) fun _ => .ite (fun hat => ?sign) fun _ => ?operator
  case line => exact enterLineComment_twin h he hm
  case block => exact enterBlockComment_twin h hblock.1 hblock.2 he hm
  case string => exact enterString_twin h hstring he hm
  case char => exact enterApostrophe_twin h hb he hm
  case tag => exact enterTag_twin h hless he hm
  case less => exact pass_of_byte (.switch .refl _) he hm hb rfl
  case backquoted => exact pass_of_crosses (.switch .refl _) he hm rfl
  case number => exact pass_of_byte (.switch .refl _) he hm hb rfl
  case dollar => exact enterName_twin h hb hv he hm
  case sign => exact pass_of_byte (.switch .refl _) he hm hb rfl
  case operator => exact enterOperator_twin h hb he hm

theorem enter_twin (h : Cursor.Alike conduct k k' u u' c c') (hp : c.state = .plain)
    (he : Even m m') (hm : Sane config m) :
    Flow.Twin (regime config) c c' (enter config c m) (enter config c' m') := by
  have hstay : Flow.Twin (regime config) c c' (.pass c m) (.pass c' m') :=
    pass_of_crosses .refl he hm (by rw [hp]; rfl)
  have hnl : ∀ {k : ByteClass}, ByteClass.of c.byte = k → k ≠ .lineEnd → c.byte ≠ newline := by
    rintro _ rfl hk hb
    rw [hb] at hk
    exact hk rfl
  unfold enter
  rw [← h.byte_eq]
  cases hk : ByteClass.of c.byte
  case digit => exact pass_of_byte (.switch .refl _) he hm (hnl hk nofun) rfl
  case nameStart => exact enterName_twin h (hnl hk nofun) (Byte.visible_of_class hk) he hm
  case punctuation =>
    exact enterPunctuation_twin h (hnl hk nofun) (Byte.visible_of_punctuation hk) he hm
  case space => exact hstay
  case lineEnd => exact hstay
  case control => exact hstay

/-! ### Lines -/

theorem endLine_alike (h : Cursor.Kin conduct k k' c c') (hf : (regime config).fits c.state m)
    (hl : (regime config).like c.state m m') :
    (endLine c m).1 = (endLine c' m').1 ∧
      (regime config).like c.state (endLine c m).2 (endLine c' m').2 ∧
      (regime config).fits c.state (endLine c m).2 := by
  obtain ⟨he, hesc, hid⟩ := hl
  obtain ⟨hm, hrest⟩ := hf
  have hvisible : c.visible = c'.visible := h.visible
  have hflags : lineFlags c m = lineFlags c' m' := by
    unfold lineFlags
    rw [h.state, hvisible, he.regions.isEmpty_eq, he.elements, he.flags, he.carried]
  refine ⟨?_, ⟨⟨rfl, he.commentDepth, he.regions, he.elements, rfl, ?_⟩, hesc, hid⟩,
    ⟨hm.full, hm.cap, hm.held⟩, hrest⟩
  · simp only [endLine, hflags, he.commentDepth, h.indent]
  · simp only [endLine, h.state]

/-- A line that is not nested ends outside all regions and all markup. -/
theorem outside_of_not_nested (h : (endLine c m).1.flags.nested = false) :
    m.regions.isEmpty = true ∧ m.elements = 0 := by
  have hflags : (lineFlags c m).nested = false := h
  unfold lineFlags at hflags
  split_ifs at hflags with hnested
  all_goals
    rw [not_or, Bool.not_eq_true', Bool.not_eq_false, Decidable.not_not] at hnested
    exact hnested

/-- The depth of block comments is read back from a line state that holds it. -/
theorem commentDepth_endLine (h : m.commentDepth ≤ LineState.maxDepth) :
    (LineState.decode (endLine c m).1.encode).depth.toNat = m.commentDepth := by
  rw [LineState.decode_encode]
  simp only [endLine, LineState.of, Nat.min_eq_left h, UInt8.toNat_ofNat']
  have : m.commentDepth < 2 ^ 8 := Nat.lt_succ_of_le h
  omega

/-- What a scan knows at the end of a line outside all regions can be set up again. -/
theorem begin_even {d : Place} {before : LineState} (hm : Sane config m)
    (hregions : m.regions.isEmpty = true) (helements : m.elements = 0)
    (hdepth : m.commentDepth = before.depth.toNat) (hs : d.state = c.state) :
    Even (endLine c m).2 (begin config d before).2 := by
  refine ⟨rfl, hdepth, hm.full.same_empty hm.cap hregions, helements, rfl, ?_⟩
  simp only [endLine, begin, hs]

/-- Scans of the same text set out in step, also where the first line is meant for the shell. -/
theorem begin_inStep {before : LineState}
    (h : Cursor.Alike (regime config).toConduct k k' u u' c c') (hpos : c.pos = c'.pos)
    (hp : c.state = .plain) :
    Cursor.InStep conduct c c' (begin config c before).1 (begin config c' before).1 ∧
      conduct.crosses (begin config c before).1.state = true := by
  have hreads : c.reads hash bang = c'.reads hash bang :=
    h.reads_eq (show hash ≠ newline by decide) bang
  simp only [begin, ← hpos, ← hreads]
  split_ifs with hshell
  · have hbyte : c.byte = hash := (Cursor.reads_iff.1 hshell.2).1
    refine ⟨(Cursor.InStep.refl.switch _).forward ?_, ?_⟩
    · change c.byte ≠ newline
      rw [hbyte]
      decide
    · rw [Cursor.state_forward]
      rfl
  · exact ⟨.refl, by rw [hp]; rfl⟩

end Rules

/-- Scala keeps to its regime. -/
theorem keeps (config : Config) : (grammar config).Keeps (regime config) where
  tidy_of_reads := id
  stable_plain := rfl
  named_of_crosses h := named_of_simple (simple_of_crosses h)
  like_refl _ m := ⟨.refl m, fun _ => rfl, fun _ => ⟨rfl, fun _ => rfl⟩⟩
  leave h hf hn hl := leave_twin h hf hn hl
  enter h hp hf hl := enter_twin h hp hl.1 hf.1
  endLine h hf hl := endLine_alike h hf hl
  leave_plain {c z} h := by
    change leave config c z = _
    rw [leave, h]
    rfl
  leave_ending {c z} h hs := by
    change leave config c z = .pass (c.switch .plain) z
    have hc : conduct.ending c.state = true := h
    cases hstate : c.state <;> rw [hstate] at hc <;> try cases hc
    all_goals simp [leave, leaveLiteral, hstate, hs, Category.endsWithLine]
  fits_plain _ h := h.1.fits rfl
  like_plain _ h := h.1.like rfl
  begin {k k' u u' c c' b} h hpos hp := by
    have he : Even (begin config c b).2 (begin config c' b).2 := by
      refine ⟨rfl, rfl, .refl _, rfl, rfl, ?_⟩
      simp only [begin, h.state]
    have hm : Sane config (begin config c b).2 :=
      ⟨ReturnStack.full_empty _, rfl, fun s hs => by simp [begin, ReturnStack.empty] at hs⟩
    obtain ⟨hmoves, hcrosses⟩ := begin_inStep h hpos hp
    exact ⟨hmoves, he.like (simple_of_crosses hcrosses), hm.fits (simple_of_crosses hcrosses),
      hcrosses⟩
  begin_later {c b} h := by
    change (begin config c b).1 = c
    exact if_neg fun hc => by omega
  recalls {c d z} hc hf hn hk hs := by
    obtain ⟨hregions, helements⟩ := outside_of_not_nested hn
    have hk' : z.commentDepth ≤ LineState.maxDepth := hk
    have hd : z.commentDepth = (LineState.decode (endLine c z).1.encode).depth.toNat := by
      rw [commentDepth_endLine hk']
    exact (begin_even hf.1 hregions helements hd hs).like (simple_of_crosses hc)
  depth h := h.1.regions.depth

end Highlight.Scala
