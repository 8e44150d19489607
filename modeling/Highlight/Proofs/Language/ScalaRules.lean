import Highlight.Proofs.Language.ScalaWords

/-!
The rules of Scala for comments, quoted forms and markup answer alike at alike places.
-/

namespace Highlight.Scala

open Byte (newline slash star atSign precedesTag apostrophe backslash dollar quote lbrace greater
  equals less)

/-! ### Signs -/

/-- What holds of everything that a sign may begin holds of what it begins. -/
theorem enterPunctuation_cases {config : Config} {c : Place} {m : Memory} {motive : Rule → Prop}
    (line : motive (enterLineComment c m))
    (block : c.byte = slash → c.next = star → motive (enterBlockComment c m))
    (string : c.byte = quote → motive (enterString config c m))
    (letter : motive (enterApostrophe c m))
    (tag : c.byte = less → motive (enterTag c m))
    (sign : ∀ s ∈ [Category.operator, .backquoted, .number, .annotationName],
      motive (.pass (c.switch s) m))
    (name : motive (enterName c m))
    (operator : motive (enterOperator c m)) : motive (enterPunctuation config c m) := by
  unfold enterPunctuation
  refine iteInduction (fun _ => line) fun _ => ?_
  refine iteInduction (fun h => block h.1 h.2) fun _ => ?_
  refine iteInduction string fun _ => ?_
  refine iteInduction (fun _ => letter) fun _ => ?_
  refine iteInduction (fun h => iteInduction (fun _ => tag h) fun _ => sign _ (by simp)) fun _ => ?_
  refine iteInduction (fun _ => sign _ (by simp)) fun _ => ?_
  refine iteInduction (fun _ => sign _ (by simp)) fun _ => ?_
  refine iteInduction (fun _ => name) fun _ => ?_
  exact iteInduction (fun _ => sign _ (by simp)) fun _ => operator

section Rules

variable {config : Config} {k k' : List Category} {u u' : Text} {c c' : Place} {m m' : Memory}

/-! ### Comments -/

/-- Within a quiet run its category shows in no other way, so it can be given at its beginning. -/
theorem recolor_switch_forwardN {s t : Category} (hs : Palette.isQuiet s = true)
    (ht : Palette.isQuiet t = true) (c : Place) (n : Nat) :
    ((c.switch s).forwardN n).recolor t = (c.switch t).forwardN n := by
  have hforward : ∀ d : Place, d.state = s → d.forward.recolor t = (d.recolor t).forward := by
    intro d hd
    cases ha : d.ahead with
    | nil => rw [Cursor.forward_nil ha, Cursor.forward_nil (c := d.recolor t) ha]
    | cons b l =>
      have htrail : d.trail.pass b s = d.trail.pass b t := by
        unfold Trail.pass
        rw [if_pos hs, if_pos ht]
      rw [Cursor.forward_cons ha, Cursor.forward_cons (c := d.recolor t) ha, hd]
      simp only [Cursor.recolor, htrail]
  have key : ∀ (n : Nat) (d : Place), d.state = s →
      (d.forwardN n).recolor t = (d.recolor t).forwardN n := by
    intro n
    induction n with
    | zero => exact fun _ _ => rfl
    | succ n ih =>
      intro d hd
      have hmore : (d.recolor t).more = d.more := rfl
      unfold Cursor.forwardN
      rw [hmore]
      split_ifs
      · rw [ih d.forward (Cursor.state_forward.trans hd), hforward d hd]
      · rfl
  rw [key n (c.switch s) rfl]
  rfl

theorem enterLineComment_twin (h : Cursor.Alike conduct k k' u u' c c') (he : Even m m')
    (hm : Sane config m) :
    Flow.Twin (regime config) c c' (enterLineComment c m) (enterLineComment c' m') := by
  have hvisible : c.visible = c'.visible := h.visible
  unfold enterLineComment
  rw [← hvisible]
  split_ifs
  · exact pass_of_crosses (.switch .refl _) he.markComment ⟨hm.full, hm.cap, hm.held⟩ rfl
  · exact pass_of_crosses (.switch .refl _) he hm rfl

theorem enterBlockComment_twin (h : Cursor.Alike conduct k k' u u' c c') (hb : c.byte = slash)
    (hn : c.next = star) (he : Even m m') (hm : Sane config m) :
    Flow.Twin (regime config) c c' (enterBlockComment c m) (enterBlockComment c' m') := by
  have hvisible : c.visible = c'.visible := h.visible
  have hclear : c.ahead.Clear 2 := Cursor.clear_two (by rw [hb]; decide) (by rw [hn]; decide)
  have hmoves : ∀ s : Category, Cursor.InStep conduct c c' ((c.switch s).forwardN 2)
      ((c'.switch s).forwardN 2) := by
    intro s
    have hs : Cursor.InStep conduct c c' (c.switch s) (c'.switch s) := .switch .refl _
    exact hs.forwardN (hs.alike h) hclear
  have hagain : ∀ {n n' : Memory} (s : Category), Even n n' → Sane config n →
      conduct.crosses s = true →
      Flow.Twin (regime config) c c' (.again ((c.switch s).forwardN 2) { n with commentDepth := 1 })
        (.again ((c'.switch s).forwardN 2) { n' with commentDepth := 1 }) := by
    intro n n' s hn hs hc
    refine again_of_crosses (hmoves s) { hn with commentDepth := rfl }
      ⟨hs.full, hs.cap, hs.held⟩ ?_
    rwa [Cursor.state_forwardN]
  have hd := (hmoves .blockComment).alike h
  have hmark : Even (if c.visible = 0 then m.markComment else m)
      (if c'.visible = 0 then m'.markComment else m') ∧
      Sane config (if c.visible = 0 then m.markComment else m) := by
    rw [← hvisible]
    split_ifs
    · exact ⟨he.markComment, hm.full, hm.cap, hm.held⟩
    · exact ⟨he, hm⟩
  have hkind : ((c.switch .blockComment).forwardN 2).byte = star ∧
      ((c.switch .blockComment).forwardN 2).next ≠ star ↔
      ((c'.switch .blockComment).forwardN 2).byte = star ∧
      ((c'.switch .blockComment).forwardN 2).next ≠ star := by
    rw [← hd.byte_eq]
    by_cases hstar : ((c.switch .blockComment).forwardN 2).byte = star
    · rw [← hd.next_eq (by rw [hstar]; decide)]
    · simp [hstar]
  revert hmark
  unfold enterBlockComment
  generalize (if c.visible = 0 then m.markComment else m) = n
  generalize (if c'.visible = 0 then m'.markComment else m') = n'
  intro hmark
  simp only [← hkind]
  split_ifs
  · rw [recolor_switch_forwardN rfl rfl, recolor_switch_forwardN rfl rfl]
    exact hagain _ hmark.1 hmark.2 rfl
  · exact hagain _ hmark.1 hmark.2 rfl

/-- A state of block comments. -/
def Category.isBlock (s : Category) : Bool := s == .blockComment || s == .docComment

theorem closeBlockComment_twin (h : Cursor.Alike conduct k k' u u' c c')
    (hs : c.state.isBlock = true) (hb : c.byte = star) (hn : c.next = slash) (he : Even m m')
    (hm : Sane config m) :
    Flow.Twin (regime config) c c' (closeBlockComment c m) (closeBlockComment c' m') := by
  have hcross : conduct.crosses c.state = true := by
    revert hs
    cases c.state <;> decide
  have hmoves : Cursor.InStep conduct c c' c.forward c'.forward :=
    .forward .refl (by rw [hb]; decide)
  have hmoves' : Cursor.InStep conduct c c' (c.forward.forwardSwitch .plain)
      (c'.forward.forwardSwitch .plain) := by
    refine (hmoves.forward ?_).switch _
    rw [Cursor.byte_forward, hn]
    decide
  have hm' : Sane config { m with commentDepth := m.commentDepth - 1 } :=
    ⟨hm.full, hm.cap, hm.held⟩
  unfold closeBlockComment
  simp only [← he.commentDepth, ← he.flags, ← (hmoves'.alike h).nextVisible_eq]
  split_ifs
  · exact pass_of_crosses hmoves' ⟨he.announced, rfl, he.regions, he.elements, rfl, he.carried⟩
      ⟨hm.full, hm.cap, hm.held⟩ rfl
  · exact pass_of_crosses hmoves' ⟨he.announced, rfl, he.regions, he.elements, rfl, he.carried⟩
      hm' rfl
  · refine pass_of_crosses hmoves
      ⟨he.announced, rfl, he.regions, he.elements, rfl, he.carried⟩ hm' ?_
    rwa [Cursor.state_forward]

theorem leaveBlockComment_twin (h : Cursor.Alike conduct k k' u u' c c')
    (hs : c.state.isBlock = true) (he : Even m m') (hm : Sane config m) :
    Flow.Twin (regime config) c c' (leaveBlockComment c m) (leaveBlockComment c' m') := by
  have hcross : conduct.crosses c.state = true := by
    revert hs
    cases c.state <;> decide
  have hstart : Even (if c.atLineStart then { m with flags := { comment := true } } else m)
      (if c'.atLineStart then { m' with flags := { comment := true } } else m') ∧
      Sane config (if c.atLineStart then { m with flags := { comment := true } } else m) := by
    rw [← h.atLineStart]
    split_ifs
    · exact ⟨{ he with flags := rfl }, hm.full, hm.cap, hm.held⟩
    · exact ⟨he, hm⟩
  revert hstart
  unfold leaveBlockComment
  generalize (if c.atLineStart then { m with flags := { comment := true } } else m) = n
  generalize (if c'.atLineStart then { m' with flags := { comment := true } } else m') = n'
  rintro ⟨hn, hsane⟩
  have htag : (c.state = .docComment ∧ c.byte = atSign ∧ Byte.isAlpha c.next ∧
      precedesTag c.behind) ↔ (c'.state = .docComment ∧ c'.byte = atSign ∧ Byte.isAlpha c'.next ∧
      precedesTag c'.behind) := by
    have hbehind := h.toKin.behind precedesTag (by decide)
    rw [← h.state, ← h.byte_eq, ← hbehind]
    by_cases hat : c.byte = atSign
    · rw [← h.next_eq (by rw [hat]; decide)]
    · simp [hat]
  simp only [← h.reads_eq (show star ≠ newline by decide) slash,
    ← h.reads_eq (show slash ≠ newline by decide) star, ← htag]
  split_ifs with hclose hopen hat
  · simp only [Cursor.reads, Bool.and_eq_true, beq_iff_eq] at hclose
    exact closeBlockComment_twin h hs hclose.1 hclose.2 hn hsane
  · simp only [Cursor.reads, Bool.and_eq_true, beq_iff_eq] at hopen
    refine pass_of_crosses (.forward .refl (by rw [hopen.1]; decide))
      { hn with commentDepth := congrArg (· + 1) hn.commentDepth }
      ⟨hsane.full, hsane.cap, hsane.held⟩ ?_
    rwa [Cursor.state_forward]
  · refine pass_of_byte (.switch .refl _) hn hsane ?_ rfl
    change c.byte ≠ newline
    rw [hat.2.1]
    decide
  · exact pass_of_crosses .refl hn hsane hcross

theorem leaveCommentTag_twin (h : Cursor.Alike conduct k k' u u' c c')
    (hs : c.state = .commentTag) (he : Even m m') (hm : Sane config m) :
    Flow.Twin (regime config) c c' (leaveCommentTag c m) (leaveCommentTag c' m') := by
  unfold leaveCommentTag
  rw [← h.byte_eq]
  split_ifs with hb
  · exact pass_of_byte .refl he hm (Byte.ne_newline rfl hb) (by rw [hs]; rfl)
  · exact again_of_crosses (.switch .refl _) he hm rfl

/-! ### Quoted forms -/

theorem enterInterpolation_twin (h : Cursor.Alike conduct k k' u u' c c')
    (hs : c.state.isInterpolated = true) (hb : c.byte = dollar) (he : Even m m')
    (hm : Sane config m) :
    Flow.Twin (regime config) c c' (enterInterpolation c m) (enterInterpolation c' m') := by
  have hliteral := literal_of_interpolated hs
  have hcross := crosses_of_literal hliteral
  have hnl : c.byte ≠ newline := by
    rw [hb]
    decide
  have hmoves : ∀ s : Category, Cursor.InStep conduct c c' (c.switch s).forward
      (c'.switch s).forward := fun s => (Cursor.InStep.refl.switch s).forward hnl
  unfold enterInterpolation
  simp only [← h.next_eq hnl, ← h.state]
  split_ifs with hdollar hbrace hname
  · refine .pass (hmoves .escape) ⟨{ he with }, fun _ => rfl, ?_⟩
      ⟨⟨hm.full, hm.cap, hm.held⟩, ?_, fun _ => hliteral, ?_⟩ (.of_byte ?_ ?_)
    · rw [Cursor.state_forward]
      nofun
    · rw [Cursor.state_forward]
      rfl
    · rw [Cursor.state_forward]
      nofun
    · rw [Cursor.byte_forward]
      change c.next ≠ newline
      rw [hdollar]
      decide
    · rw [Cursor.state_forward]
      rfl
  · refine pass_of_byte (hmoves .punctuation) (he.push _) (hm.push hcross) ?_ ?_
    · rw [Cursor.byte_forward]
      change c.next ≠ newline
      rw [hbrace]
      decide
    · rw [Cursor.state_forward]
      rfl
  · refine .pass (.switch .refl _) ⟨{ he with }, nofun, fun _ => ⟨rfl, nofun⟩⟩
      ⟨⟨hm.full, hm.cap, hm.held⟩, rfl, nofun, fun _ o ho => ?_⟩
      ⟨fun e => absurd e hnl, fun _ => ?_⟩
    · obtain rfl : c.state = o := by simpa using ho
      exact hs
    · change c.byte ≠ 0 ∧ Byte.isSpace c.byte = false
      rw [hb]
      decide
  · exact pass_of_crosses .refl he hm hcross

theorem closeLiteral_twin (h : Cursor.Alike conduct k k' u u' c c') (hb : c.byte ≠ newline)
    (he : Even m m') (hm : Sane config m) :
    Flow.Twin (regime config) c c' (closeLiteral c m) (closeLiteral c' m') := by
  have hagain : ∀ {d d' : Place} (s : Category), Cursor.InStep conduct c c' d d' →
      d.byte = c.byte → conduct.crosses s = true →
      Flow.Twin (regime config) c c' (.again (d.forwardSwitch s) m)
        (.again (d'.forwardSwitch s) m') := fun s moves hd hs =>
    again_of_crosses ((moves.forward (hd ▸ hb)).switch s) he hm hs
  have hafter : ∀ s : Category, conduct.crosses
      (if s = .singleQuoted ∨ s = .doubleQuoted then .markupOther else .plain) = true := by
    intro s
    split_ifs <;> rfl
  unfold closeLiteral
  simp only [← h.state]
  by_cases ht : c.state.isTriple = true
  · rw [if_pos ht, if_pos ht]
    exact hagain _ (.toLastOfRun .refl h hb) Cursor.byte_toLastOfRun (hafter _)
  · rw [if_neg ht, if_neg ht]
    exact hagain _ .refl rfl (hafter _)

theorem leaveLiteral_twin (h : Cursor.Alike conduct k k' u u' c c')
    (hs : c.state.isLiteral = true) (he : Even m m') (hm : Sane config m) :
    Flow.Twin (regime config) c c' (leaveLiteral c m) (leaveLiteral c' m') := by
  have hcross := crosses_of_literal hs
  have hsimple := simple_of_crosses hcross
  have hnl : c.byte = c.state.closingByte → c.byte ≠ newline := by
    intro hb
    rw [hb]
    revert hs
    cases c.state <;> decide
  have hclose : c.byte = c.state.closingByte ∧
      (c.state.endsWithLine = true ∨ c.readsNext quote quote = true) ↔
      c.byte = c.state.closingByte ∧
      (c.state.endsWithLine = true ∨ c'.readsNext quote quote = true) := by
    by_cases hb : c.byte = c.state.closingByte
    · rw [h.readsNext_eq (hnl hb) (show quote ≠ newline by decide)]
    · simp [hb]
  unfold leaveLiteral
  simp only [← h.state, ← h.atLineStart, ← h.byte_eq, ← hclose]
  split_ifs with hstart hback hdollar hb
  · exact pass_of_crosses (.switch .refl _) he hm rfl
  · refine Escape.enter_twin h _ _ (by rw [hback]; decide) (named_of_simple hsimple) rfl
      (he.like hsimple) (hm.fits hsimple) fun e he' => ⟨⟨{ he with }, fun _ => rfl, nofun⟩,
        ⟨hm.full, hm.cap, hm.held⟩, rfl, fun _ => ?_, nofun⟩
    rw [he']
    exact hs
  · exact enterInterpolation_twin h hdollar.2 hdollar.1 he hm
  · exact closeLiteral_twin h (hnl hb.1) he hm
  · exact pass_of_crosses .refl he hm hcross

/-! ### Markup -/

/-- A state within markup. -/
def Category.isMarkup (s : Category) : Bool := s == .markupText || s == .markupOther

theorem enterTag_twin (h : Cursor.Alike conduct k k' u u' c c') (hb : c.byte = less)
    (he : Even m m') (hm : Sane config m) :
    Flow.Twin (regime config) c c' (enterTag c m) (enterTag c' m') := by
  have hnl : c.byte ≠ newline := by
    rw [hb]
    decide
  unfold enterTag
  rw [← h.next_eq hnl]
  split_ifs with hslash
  · refine pass_of_byte ((Cursor.InStep.refl.switch _).forward hnl)
      { he with elements := congrArg (· - 1) he.elements } ⟨hm.full, hm.cap, hm.held⟩ ?_ ?_
    · rw [Cursor.byte_forward]
      change c.next ≠ newline
      rw [hslash]
      decide
    · rw [Cursor.state_forward]
      rfl
  · exact pass_of_byte (.switch .refl _) { he with elements := congrArg (· + 1) he.elements }
      ⟨hm.full, hm.cap, hm.held⟩ hnl rfl

theorem closeTag_twin (h : Cursor.Alike conduct k k' u u' c c')
    (hb : c.byte = greater ∨ c.byte = slash ∧ c.next = greater) (he : Even m m')
    (hm : Sane config m) :
    Flow.Twin (regime config) c c' (closeTag c m) (closeTag c' m') := by
  have hcross : ∀ n : Nat, conduct.crosses
      (if n = 0 then Category.plain else .markupText) = true := by
    intro n
    split_ifs <;> rfl
  have hswitch : Cursor.InStep conduct c c' (c.switch .tag) (c'.switch .tag) := .switch .refl _
  unfold closeTag
  simp only [← h.byte_eq, beq_iff_eq, ← he.elements]
  by_cases hslash : c.byte = slash
  · have hnext : c.next = greater := by
      rcases hb with hb | hb
      · rw [hslash] at hb
        exact absurd hb (by decide)
      · exact hb.2
    simp only [if_pos hslash]
    refine again_of_crosses (((hswitch.forward ?_).forward ?_).switch _)
      { he with elements := rfl } ⟨hm.full, hm.cap, hm.held⟩ (hcross _)
    · change c.byte ≠ newline
      rw [hslash]
      decide
    · rw [Cursor.byte_forward]
      change c.next ≠ newline
      rw [hnext]
      decide
  · simp only [if_neg hslash, ← he.elements]
    refine again_of_crosses ((hswitch.forward ?_).switch _) he hm (hcross _)
    change c.byte ≠ newline
    rw [hb.resolve_right fun e => hslash e.1]
    decide

theorem leaveMarkup_twin (h : Cursor.Alike conduct k k' u u' c c')
    (hs : c.state.isMarkup = true) (he : Even m m') (hm : Sane config m) :
    Flow.Twin (regime config) c c' (leaveMarkup c m) (leaveMarkup c' m') := by
  have hcross : conduct.crosses c.state = true := by
    revert hs
    cases c.state <;> decide
  unfold leaveMarkup
  simp only [← h.state, ← h.byte_eq, ← h.reads_eq (show slash ≠ newline by decide) greater]
  split_ifs with hclose hequals hsingle hdouble hname hbrace hless
  · refine closeTag_twin h ?_ he hm
    simpa [Cursor.reads] using hclose
  · refine again_of_crosses (((Cursor.InStep.refl.switch _).forward ?_).switch _) he hm rfl
    change c.byte ≠ newline
    rw [hequals.1]
    decide
  · exact pass_of_crosses (.switch .refl _) he hm rfl
  · exact pass_of_crosses (.switch .refl _) he hm rfl
  · exact pass_of_byte (.switch .refl _) he hm (Byte.ne_newline rfl hname.2) rfl
  · refine pass_of_byte (.switch .refl _) (he.push _) (hm.push hcross) ?_ rfl
    change c.byte ≠ newline
    rw [hbrace]
    decide
  · exact enterTag_twin h hless he hm
  · exact pass_of_crosses .refl he hm hcross

end Rules

end Highlight.Scala
