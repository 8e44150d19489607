import Highlight.Proofs.Language.ScalaPlaces

/-!
References, holes and doubled dollar signs in an interpolated string. A dollar sign counts as a byte
of names, so it goes on the reference that stands before it. What follows is then no hole and no
doubled sign: the whole string is as meant just if none of these stands directly behind a reference
(`recognises_segments`).
-/

namespace Highlight.Scala

open Byte (dollar isAlpha isDigit lbrace quote rbrace space)

/-! ### Segments -/

/-- A part of an interpolated string. -/
inductive Segment where
  /-- Letters, digits and spaces. -/
  | literal (w : Text) (plain : ∀ b ∈ w, isAlpha b || isDigit b || b == space)
  /-- A name behind a dollar sign. -/
  | reference (name : Word)
  /-- A name in braces behind a dollar sign. -/
  | hole (name : Word)
  /-- Two dollar signs, which stand for one. -/
  | doubled

namespace Segment

def text : Segment → Text
  | literal w _ => w
  | reference name => dollar :: name.letters
  | hole name => dollar :: lbrace :: (name.letters ++ [rbrace])
  | doubled => [dollar, dollar]

/-- The categories of its bytes as they are meant; that of the name in a hole is left open. -/
def marks : Segment → List (Option Category)
  | literal w _ => List.replicate w.length (some .interpolated)
  | reference name => List.replicate (name.letters.length + 1) (some .identifier)
  | hole name =>
    some .punctuation :: some .punctuation ::
      (List.replicate name.letters.length none ++ [some .punctuation])
  | doubled => [some .escape, some .escape]

def isReference : Segment → Bool
  | reference _ => true
  | _ => false

/-- A segment that a dollar sign begins, but no reference. -/
def isSign : Segment → Bool
  | hole _ | doubled => true
  | _ => false

/-- A literal that begins with a space, or no literal at all. -/
def isSpaced : Segment → Bool
  | literal w _ => w.head? == some space
  | _ => true

/-- Whether a reference is in progress at the end of a segment, if it was or was not before. -/
def endsInName (inName : Bool) : Segment → Bool
  | literal w _ => inName && w.all isNameByte
  | reference _ => true
  | hole _ => false
  | doubled => inName

/-- The categories that the bytes of a segment get behind a reference. -/
def overrun : Segment → List (Option Category)
  | literal w _ =>
    List.replicate (w.takeWhile isNameByte).length (some .identifier) ++
      List.replicate (w.dropWhile isNameByte).length (some .interpolated)
  | reference name => List.replicate (name.letters.length + 1) (some .identifier)
  | hole name => some .identifier :: List.replicate (name.letters.length + 2) (some .interpolated)
  | doubled => [some .identifier, some .identifier]

/-- The categories that the bytes of a segment get. -/
def paint (inName : Bool) (s : Segment) : List (Option Category) :=
  if inName then s.overrun else s.marks

/-- The categories that the bytes of segments get. -/
def paintAll (inName : Bool) : List Segment → List (Option Category)
  | [] => []
  | s :: l => s.paint inName ++ paintAll (s.endsInName inName) l

theorem length_paint (inName : Bool) (s : Segment) : (s.paint inName).length = s.marks.length := by
  cases inName with
  | false => rfl
  | true =>
    cases s with
    | literal w plain =>
      simp only [paint, overrun, marks, if_true, List.length_append, List.length_replicate]
      rw [← List.length_append, List.takeWhile_append_dropWhile]
    | reference name => rfl
    | hole name => simp [paint, overrun, marks]
    | doubled => rfl

theorem length_paintAll (inName : Bool) (l : List Segment) :
    (paintAll inName l).length = (l.flatMap marks).length := by
  induction l generalizing inName with
  | nil => rfl
  | cons s l ih =>
    rw [paintAll, List.length_append, length_paint, ih, List.flatMap_cons, List.length_append]

end Segment

/-! ### On the way through a string -/

variable {config : Config} {text u : Text} {b : Byte} {marks : List (Option Category)}
  {R : ReturnStack Category} {e : Nat}

/-- The stance in a string. -/
def stringStance (inName : Bool) : Stance := if inName then .reference else .inside .interpolated

theorem isPlainInString_of_text (hb : (isAlpha b || isDigit b || b == space) = true) :
    isPlainInString b = true := by
  simp only [isPlainInString, isAlpha, Byte.isLower, Byte.isUpper, isDigit, Bool.or_eq_true,
    Bool.and_eq_true, decide_eq_true_eq, beq_iff_eq, bne_iff_ne] at *
  grind

theorem isPlainInString_of_isLower (hb : Byte.isLower b = true) : isPlainInString b = true :=
  isPlainInString_of_text (by simp [isAlpha, hb])

namespace Segment

/-- A segment in the string itself gets what is meant. -/
theorem comes_marks (s : Segment) (hcap : R.depth < R.cap)
    (h : Comes config text ⟨.inside .interpolated, marks, s.text ++ b :: u, R, e⟩) :
    ∃ n, Comes config text
      ⟨stringStance (s.endsInName false), marks ++ s.marks, b :: u, R.raise n, e⟩ := by
  have hraise : R.raise 0 = R := ReturnStack.raise_of_le (Nat.zero_le _)
  cases s with
  | literal w plain =>
    refine ⟨0, hraise.symm ▸ ?_⟩
    exact h.each fun a ha => fun h => h.literal (isPlainInString_of_text (plain a ha))
  | reference name =>
    refine ⟨0, hraise.symm ▸ ?_⟩
    obtain ⟨w, hne, hw⟩ := name
    obtain ⟨a, w, rfl⟩ := List.exists_cons_of_ne_nil hne
    have hname := (h.opensReference (hw a List.mem_cons_self)).each (w := a :: w)
      fun c hc => fun h => h.reference (isNameByte_of_isLower (hw c hc))
    rwa [List.append_assoc] at hname
  | hole name =>
    simp only [Segment.text, List.cons_append, List.append_assoc, List.nil_append] at h
    have hpop := ReturnStack.pop?_push (a := Category.interpolated) hcap 0
    rw [ReturnStack.raise_of_le (Nat.zero_le (R.push .interpolated).peak)] at hpop
    have hclosed : Comes config text ⟨.inside .interpolated, _, b :: u, _, e⟩ :=
      (h.opensHole.word name (by decide)).closesRegion (Nat.succ_pos _) hpop
    exact ⟨_, by simpa [Segment.marks, stringStance, endsInName] using hclosed⟩
  | doubled => exact ⟨0, hraise.symm ▸ h.doubled⟩

/-- A reference runs into the letters behind it as far as they may stand in a name. -/
theorem comes_over_letters {w : Text}
    (plain : ∀ b ∈ w, (isAlpha b || isDigit b || b == space) = true)
    (h : Comes config text ⟨.reference, marks, w ++ b :: u, R, e⟩) :
    Comes config text
      ⟨stringStance (w.all isNameByte),
        marks ++ (List.replicate (w.takeWhile isNameByte).length (some .identifier) ++
          List.replicate (w.dropWhile isNameByte).length (some .interpolated)), b :: u, R, e⟩ := by
  have hsplit : w.takeWhile isNameByte ++ w.dropWhile isNameByte = w :=
    List.takeWhile_append_dropWhile
  have hname : ∀ a ∈ w.takeWhile isNameByte, isNameByte a = true :=
    List.all_eq_true.1 List.all_takeWhile
  have hrest : ∀ a ∈ w.dropWhile isNameByte, isPlainInString a = true := by
    intro a ha
    exact isPlainInString_of_text (plain a (hsplit ▸ List.mem_append_right _ ha))
  rw [← hsplit, List.append_assoc] at h
  have hover := h.each fun a ha => fun h => h.reference (hname a ha)
  rw [← List.append_assoc]
  cases hdrop : w.dropWhile isNameByte with
  | nil =>
    have hall : w.all isNameByte = true := by
      rw [← hsplit, hdrop, List.append_nil]
      exact List.all_takeWhile
    rw [hdrop] at hover
    simpa [hall, stringStance] using hover
  | cons a r =>
    have hend : isNameByte a = false := by
      have := List.head_dropWhile_not isNameByte (l := w) (by simp [hdrop])
      simpa [hdrop] using this
    have hall : w.all isNameByte = false := by
      rw [← hsplit, hdrop, List.all_append, List.all_cons, hend]
      simp
    rw [hdrop] at hover hrest
    rw [hall]
    exact Comes.each (w := a :: r) (fun c hc => fun h => h.literal (hrest c hc))
      (hover.endsReference hend)

/-- A segment that a reference runs into. -/
theorem comes_overrun (s : Segment)
    (h : Comes config text ⟨.reference, marks, s.text ++ b :: u, R, e⟩) :
    Comes config text
      ⟨stringStance (s.endsInName true), marks ++ s.overrun, b :: u, R, e⟩ := by
  cases s with
  | literal w plain => exact comes_over_letters plain h
  | reference name =>
    exact h.each (w := dollar :: name.letters) fun a ha => fun h => h.reference (by
      rcases List.mem_cons.1 ha with rfl | ha
      · rfl
      · exact isNameByte_of_isLower (name.lower a ha))
  | hole name =>
    have hend := (h.reference (by decide)).endsReference (by decide)
    have hplain : ∀ a ∈ lbrace :: (name.letters ++ [rbrace]), isPlainInString a = true := by
      intro a ha
      simp only [List.mem_cons, List.mem_append, List.not_mem_nil, or_false] at ha
      rcases ha with rfl | ha | rfl
      · rfl
      · exact isPlainInString_of_isLower (name.lower a ha)
      · rfl
    have hrest := hend.each (w := lbrace :: (name.letters ++ [rbrace])) (u := b :: u)
      fun a ha => fun h => h.literal (hplain a ha)
    simpa [overrun, endsInName, stringStance] using hrest
  | doubled =>
    have hsecond := (h.reference (by decide)).reference (by decide)
    rwa [List.append_assoc] at hsecond

theorem comes (s : Segment) (inName : Bool) (hcap : R.depth < R.cap)
    (h : Comes config text ⟨stringStance inName, marks, s.text ++ b :: u, R, e⟩) :
    ∃ n, Comes config text
      ⟨stringStance (s.endsInName inName), marks ++ s.paint inName, b :: u, R.raise n, e⟩ := by
  cases inName with
  | false => exact s.comes_marks hcap h
  | true =>
    refine ⟨0, ?_⟩
    rw [ReturnStack.raise_of_le (Nat.zero_le _)]
    exact s.comes_overrun h

/-- **A string is scanned to its end,** whatever segments it has. -/
theorem comes_all (l : List Segment) (inName : Bool) (hcap : R.depth < R.cap)
    (h : Comes config text
      ⟨stringStance inName, marks, l.flatMap Segment.text ++ quote :: u, R, e⟩) :
    ∃ n, Comes config text
      ⟨.code, marks ++ (paintAll inName l ++ [some .interpolated]), u, R.raise n, e⟩ := by
  induction l generalizing inName marks R with
  | nil =>
    refine ⟨0, ?_⟩
    rw [ReturnStack.raise_of_le (Nat.zero_le _)]
    cases inName with
    | false => exact h.closesString
    | true => exact (h.endsReference (by decide)).closesString
  | cons s l ih =>
    rw [List.flatMap_cons, List.append_assoc] at h
    obtain ⟨b, v, hv⟩ : ∃ b v, l.flatMap Segment.text ++ quote :: u = b :: v := by
      cases l.flatMap Segment.text with
      | nil => exact ⟨_, _, rfl⟩
      | cons b v => exact ⟨_, _, rfl⟩
    rw [hv] at h
    obtain ⟨n, hs⟩ := s.comes inName hcap h
    rw [← hv] at hs
    obtain ⟨k, hl⟩ := ih (R := R.raise n) (s.endsInName inName) hcap hs
    rw [ReturnStack.raise_raise] at hl
    exact ⟨_, by simpa [paintAll] using hl⟩

/-! ### What is recognised -/

/-- A reference does not run into what stands behind it. -/
theorem overrun_eq_marks {s : Segment} (hsign : s.isSign = false) (hspaced : s.isSpaced = true) :
    s.overrun = s.marks ∧ (s.endsInName true = true → s.isReference = true) := by
  cases s with
  | literal w plain =>
    obtain ⟨w, rfl⟩ := List.head?_eq_some_iff.1 (beq_iff_eq.1 hspaced)
    have hspace : isNameByte space = false := rfl
    simp [overrun, Segment.marks, endsInName, hspace]
  | reference name => exact ⟨rfl, fun _ => rfl⟩
  | hole name => cases hsign
  | doubled => cases hsign

/-- Segments are as meant if no reference runs into a segment behind it. -/
theorem paintAll_eq_marks {l : List Segment} (inName : Bool)
    (hsign : l.IsChain fun a b => a.isReference = true → b.isSign = false)
    (hspaced : l.IsChain fun a b => a.isReference = true → b.isSpaced = true)
    (hfirst : inName = true → ∀ s ∈ l.head?, s.isSign = false ∧ s.isSpaced = true) :
    paintAll inName l = l.flatMap Segment.marks := by
  induction l generalizing inName with
  | nil => rfl
  | cons s l ih =>
    rw [List.isChain_cons] at hsign hspaced
    have hs : s.paint inName = s.marks ∧ (s.endsInName inName = true → s.isReference = true) := by
      cases inName with
      | false =>
        refine ⟨rfl, fun h => ?_⟩
        cases s <;> first | rfl | cases h
      | true =>
        obtain ⟨hsign, hspaced⟩ := hfirst rfl s rfl
        exact overrun_eq_marks hsign hspaced
    rw [paintAll, List.flatMap_cons, hs.1, ih _ hsign.2 hspaced.2 fun h t ht =>
      ⟨hsign.1 t ht (hs.2 h), hspaced.1 t ht (hs.2 h)⟩]

/-- If the categories are as meant, no reference runs into a hole or a doubled sign. -/
theorem isChain_of_fits {l : List Segment} {inName : Bool} {styles : List Category}
    (hmarks : Fits (l.flatMap Segment.marks) styles) (hpaint : Fits (paintAll inName l) styles) :
    (inName = true → ∀ s ∈ l.head?, s.isSign = false) ∧
      l.IsChain fun a b => a.isReference = true → b.isSign = false := by
  induction l generalizing inName styles with
  | nil => exact ⟨nofun, .nil⟩
  | cons s l ih =>
    rw [List.flatMap_cons] at hmarks
    obtain ⟨hs, hl⟩ := Fits.of_append _ hmarks
    obtain ⟨hs', hl'⟩ := Fits.of_append (s.paint inName) hpaint
    rw [length_paint] at hs' hl'
    obtain ⟨hfirst, hchain⟩ := ih hl hl'
    refine ⟨?_, List.isChain_cons.2 ⟨fun t ht href => hfirst ?_ t ht, hchain⟩⟩
    · rintro rfl t ht
      obtain rfl := Option.some.inj ht
      generalize styles.take _ = styles at hs hs'
      -- the first byte of a sign is not meant to be of a name
      cases s with
      | literal w plain => rfl
      | reference name => rfl
      | hole name => cases (Fits.head?_eq hs).symm.trans (Fits.head?_eq hs')
      | doubled => cases (Fits.head?_eq hs).symm.trans (Fits.head?_eq hs')
    · cases s with
      | reference name => rfl
      | _ => cases href

end Segment

/-! ### Whole texts -/

/-- The letter before an interpolated string. -/
def interpolator : Byte := 's'.toUInt8

/-- A string opens behind its letter. -/
theorem opens_prefixed (hc : config.interpolation = .prefixed)
    (hu : ∀ v, u ≠ quote :: quote :: v) :
    Comes config (interpolator :: quote :: u)
      ⟨.inside .interpolated, [none, some .interpolated], u, .empty config.stackCap, 0⟩ := by
  have hrule : enter config (Cursor.outset (interpolator :: quote :: u)) (.initial config) =
      .pass ((Cursor.outset (interpolator :: quote :: u)).switch .identifier)
        { Memory.initial config with before := 0 } := rfl
  have hv := visits_second (by decide) (by decide) hrule
  have hname : Spot.Holds ⟨.name, [none], quote :: u, .empty config.stackCap, 0⟩
      ((Cursor.outset (interpolator :: quote :: u)).switch .identifier).forward
      { Memory.initial config with before := 0 } :=
    holds_second (by decide) (fun _ hs => ⟨hs, rfl⟩) nofun rfl rfl rfl
  obtain ⟨d, y, hv, hspot, hplain, hprev, hcategory⟩ := Visits.endsName hv hname (by decide)
  have hbehind : d.behind = interpolator := by
    rw [Cursor.behind, hprev]
    rfl
  have hstart : startsInterpolated config d = true := by
    rw [startsInterpolated, hc]
    simp only [hbehind, Bool.and_eq_true, bne_iff_ne]
    exact ⟨hcategory, by decide⟩
  exact Visits.opensString hv hspot (more_of_ahead hspot.ahead) (dispatch_plain config hplain)
    hstart hu

/-- There are no quotes in a segment. -/
theorem Segment.quote_notMem_text (s : Segment) : quote ∉ s.text := by
  have hlower : ∀ name : Word, quote ∉ name.letters := fun name h => by cases name.lower _ h
  intro h
  cases s with
  | literal w plain => cases plain _ h
  | reference name => exact hlower name (by simpa [text] using h)
  | hole name => exact hlower name (by simpa [text] using h)
  | doubled => simp [text] at h

/-- Behind the quote that opens the string no two quotes follow. -/
theorem Segment.flatMap_text_ne (l : List Segment) (v : Text) :
    l.flatMap Segment.text ++ [quote] ≠ quote :: quote :: v := by
  intro h
  have hmem : quote ∉ l.flatMap Segment.text := by
    intro h
    obtain ⟨t, -, ht⟩ := List.mem_flatMap.1 h
    exact t.quote_notMem_text ht
  cases hw : l.flatMap Segment.text with
  | nil => simp [hw] at h
  | cons b w =>
    rw [hw] at h hmem
    exact hmem ((List.cons.inj h).1 ▸ List.mem_cons_self)

/-- **What is recognised in an interpolated string.** Whatever segments stand in it, its scan ends
in program text with no region open. They all get the categories that are meant just if no hole and
no doubled dollar sign stands directly behind a reference, which would go on over it. -/
theorem recognises_segments (config : Config) (hc : config.interpolation = .prefixed)
    (l : List Segment)
    (hl : l.IsChain fun a b => a.isReference = true → b.isSpaced = true) (s : Session Category) :
    let text := interpolator :: quote :: (l.flatMap Segment.text ++ [quote])
    let marks := none :: some .interpolated :: (l.flatMap Segment.marks ++ [some .interpolated])
    let answer := s.highlight (grammar config) text
    (∃ found, answer.2 = .ok found ∧ found.endState = .plain ∧ found.nesting.depth = 0) ∧
      (Fits marks answer.1.styles.toList ↔
        l.IsChain fun a b => a.isReference = true → b.isSign = false) := by
  intro text marks answer
  have hcap : (ReturnStack.empty config.stackCap : ReturnStack Category).depth <
      (ReturnStack.empty config.stackCap : ReturnStack Category).cap :=
    Nat.lt_of_lt_of_le Nat.one_pos (Nat.le_max_right config.stackCap 1)
  obtain ⟨n, hend⟩ := Segment.comes_all l false hcap (opens_prefixed hc (Segment.flatMap_text_ne l))
  have hunended : Text.unended text = true :=
    Text.unended_concat (interpolator :: quote :: l.flatMap Segment.text) (by decide)
  obtain ⟨⟨found, hfound, hstate, hnesting⟩, hfits, -⟩ := hend.finds hunended s
  have hpaint : Fits (none :: some .interpolated :: (Segment.paintAll false l ++
      [some .interpolated])) answer.1.styles.toList := hfits
  refine ⟨⟨found, hfound, hstate, congrArg Nesting.depth hnesting⟩, fun hmarks => ?_,
    fun hsign => ?_⟩
  · -- what stands between the quotes
    have hmeant := Fits.of_append _ (Fits.of_append [none, some Category.interpolated] hmarks).2
    have hpainted := Fits.of_append _ (Fits.of_append [none, some Category.interpolated] hpaint).2
    rw [Segment.length_paintAll] at hpainted
    exact (Segment.isChain_of_fits hmeant.1 hpainted.1).2
  · have hpainted := Segment.paintAll_eq_marks false hsign hl nofun
    rwa [hpainted] at hpaint

/-- A doubled dollar sign directly behind a reference is not recognised. -/
theorem recognises_segments_overrun :
    let config : Config := { words := words }
    let name : Word := ⟨[Byte.lowerA], nofun, List.forall_mem_singleton.2 rfl⟩
    let l : List Segment := [.reference name, .doubled]
    let text := interpolator :: quote :: (l.flatMap Segment.text ++ [quote])
    let marks := none :: some .interpolated :: (l.flatMap Segment.marks ++ [some .interpolated])
    text = Text.ofString "s\"$a$$\"" ∧ config.interpolation = .prefixed ∧
      (l.IsChain fun a b => a.isReference = true → b.isSpaced = true) ∧
      ¬Fits marks (Session.highlight (grammar config) {} text).1.styles.toList := by
  intro config name l text marks
  have hspaced : l.IsChain fun a b => a.isReference = true → b.isSpaced = true :=
    .cons_cons (fun _ => rfl) (.singleton _)
  obtain ⟨-, hfits⟩ := recognises_segments config rfl l hspaced {}
  refine ⟨by decide +kernel, rfl, hspaced, fun h => ?_⟩
  have hsign := (List.isChain_cons_cons.1 (hfits.1 h)).1 rfl
  cases hsign

end Highlight.Scala
