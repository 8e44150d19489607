import Highlight.Proofs.Language.ScalaRegime

/-!
The rules of Scala for words answer alike at alike places.
-/

namespace Highlight.Scala

open Byte (newline dot)

section Rules

variable {config : Config} {k k' : List Category} {u u' : Text} {c c' : Place} {m m' : Memory}

/-! ### Words -/

theorem visible_of_isNameByte {b : Byte} (h : isNameByte b = true) :
    b ≠ 0 ∧ Byte.isSpace b = false := by
  refine Byte.visible_of (p := fun b => isNameByte b = true) (by decide) ?_ h
  rintro a (rfl | rfl | rfl | rfl | rfl | rfl) <;> decide

theorem enterName_twin (h : Cursor.Alike conduct k k' u u' c c') (hb : c.byte ≠ newline)
    (hv : c.byte ≠ 0 ∧ Byte.isSpace c.byte = false) (he : Even m m') (hs : Sane config m) :
    Flow.Twin (regime config) c c' (enterName c m) (enterName c' m') := by
  have he' : Even { m with reference := none, before := c.trail.byte }
      { m' with reference := none, before := c'.trail.byte } := { he with }
  exact .pass (.switch .refl _) ⟨he', nofun, fun _ => ⟨rfl, fun _ => h.byte⟩⟩
    ⟨⟨hs.full, hs.cap, hs.held⟩, rfl, nofun, nofun⟩ ⟨fun e => absurd e hb, fun _ => hv⟩

theorem passSeparator_alike (h : Cursor.Alike conduct k k' u u' c c') :
    Cursor.InStep conduct c c' (passSeparator c) (passSeparator c') ∧
      (passSeparator c).state = c.state ∧ (c.state = .identifier → passSeparator c = c) := by
  have hsep : separates c = separates c' := by
    unfold separates
    rw [h.state, h.byte_eq]
  unfold passSeparator
  rw [← hsep, ← h.state]
  split_ifs with hs
  · have hb : c.byte ≠ newline := by
      intro e
      simp [separates, e] at hs
    refine ⟨((Cursor.InStep.refl.switch _).forward hb).switch _, rfl, fun hi => ?_⟩
    by_cases hdot : c.byte = dot <;> simp [separates, hi, hdot, Category.isMarkupName] at hs
  · exact ⟨.refl, rfl, fun _ => rfl⟩

theorem continuesWord_eq (h : Cursor.Alike conduct k k' u u' c c') :
    continuesWord c = continuesWord c' := by
  unfold continuesWord
  rw [h.state, h.byte_eq]

theorem classifyName_twin (h : Cursor.Alike conduct k k' u u' c c')
    (hs : c.state = .identifier) (hname : c.HasName) (he : Even m m') (hm : Sane config m)
    (hb : m.before = m'.before) :
    let (d, n) := classifyName config c m
    let (d', n') := classifyName config c' m'
    Flow.Twin (regime config) c c' (.again (d.switch .plain) n) (.again (d'.switch .plain) n') := by
  have hstable : conduct.stable c.state = false := by
    rw [hs]
    rfl
  have hvisible : c.visible = c'.visible := h.visible
  unfold classifyName
  simp only [← hb, ← Occurrence.endingAt_eq h hstable, ← he.announced, ← h.currentWord hstable,
    ← hvisible]
  generalize Occurrence.classify config.words announcedBy (Occurrence.endingAt c m.before)
    m.announced = x
  obtain ⟨kind, announced⟩ := x
  have hmoves : Cursor.InStep conduct c c'
      ((c.recolor (categoryOf kind)).remember (categoryOf kind))
      ((c'.recolor (categoryOf kind)).remember (categoryOf kind)) := by
    refine .rename .refl _ hstable ?_ ?_ hname
    · rw [hs]
      rfl
    · cases kind <;> rfl
  -- the byte before the name no longer matters
  have he' : ∀ b, Even { m with announced := announced }
      { m' with announced := announced, before := b } := fun _ =>
    ⟨rfl, he.commentDepth, he.regions, he.elements, he.flags, he.carried⟩
  have hm' : Sane config { m with announced := announced } := ⟨hm.full, hm.cap, hm.held⟩
  split_ifs
  · exact again_of_crosses (hmoves.switch _) (he' _).markCloser ⟨hm.full, hm.cap, hm.held⟩ rfl
  · exact again_of_crosses (hmoves.switch _) (he' _) hm' rfl

/-- A word that does not end goes on alike. -/
theorem continueWord_twin {d d' : Place} (moves : Cursor.InStep conduct c c' d d')
    (hl : (regime config).like d.state m m') (hf : (regime config).fits d.state m)
    (hw : continuesWord d = true) :
    Flow.Twin (regime config) c c' (.pass d m) (.pass d' m') := by
  have hb : d.byte ≠ newline := by
    intro e
    rw [continuesWord, e] at hw
    revert hw
    cases d.state <;> decide
  refine .pass moves hl hf ⟨fun e => absurd e hb, fun hn => ?_⟩
  have hi : d.state = .identifier := by simpa [regime, conduct] using hn
  refine visible_of_isNameByte ?_
  simpa [continuesWord, hi, Category.isMarkupName] using hw

theorem leaveWord_twin (h : Cursor.Alike conduct k k' u u' c c')
    (hn : (regime config).named c.state = true → c.HasName) (hl : (regime config).like c.state m m')
    (hf : (regime config).fits c.state m) :
    Flow.Twin (regime config) c c' (leaveWord config c m) (leaveWord config c' m') := by
  obtain ⟨he, -, hi⟩ := id hl
  obtain ⟨hm, -, -, hr⟩ := id hf
  obtain ⟨moves, hstate, hid⟩ := passSeparator_alike h
  have hd := moves.alike h
  unfold leaveWord
  simp only [← continuesWord_eq hd, ← hd.state]
  split_ifs with hw hident hmarkup
  · exact continueWord_twin moves (hstate ▸ hl) (hstate ▸ hf) hw
  · rw [hstate] at hident
    obtain ⟨href, hbefore⟩ := hi hident
    rw [hid hident] at hd moves ⊢
    cases hreference : m.reference with
    | some outer =>
      have houter := literal_of_interpolated (hr hident outer hreference)
      simp only [← href, hreference]
      exact again_of_crosses (moves.switch _) { he with } ⟨hm.full, hm.cap, hm.held⟩
        (crosses_of_literal houter)
    | none =>
      simp only [← href, hreference]
      exact (classifyName_twin hd hident (hn (by rw [hident]; rfl)) he hm
        (hbefore hreference)).after moves
  · exact again_of_crosses (moves.switch _) he hm rfl
  · exact again_of_crosses (moves.switch _) he hm rfl

end Rules

end Highlight.Scala
