import Highlight.Language.Toml
import Highlight.Proofs.Scan.Escape

/-!
TOML keeps to a regime. Only plain text and strings in triple quotes go over the end of a line, and
neither a key nor a value does; what is open in brackets makes the line nested, and of an escape in
progress nothing is left at the end of a line.
-/

namespace Highlight.Toml

open Byte

/-- A category in which no escape is in progress, and that no run has for what it says. -/
def Category.isSettled : Category → Bool
  | .escape | .keyword => false
  | _ => true

/-- How TOML treats its categories and its data. Outside of an escape the last one does not
matter. -/
def regime : Regime Category Memory where
  stable s := s == .plain || s.isTriple
  ending s := s == .comment || s == .error || s == .key || s == .table || s == .string ||
    s == .literalString
  named _ := false
  reads := False
  tidy := False
  like s m m' := ∃ e, m' = { m with escape := e } ∧ (s = .escape → e = m.escape)
  fits s m := s ≠ .keyword ∧ (s = .escape → m.escape.outer.isBasic = true)
  kept _ := True

section Rules

variable (words : WordSets) (m : Memory) {k k' : List Category} {u u' : Text} {c c' : Place}

theorem crosses_of_basic {s : Category} (h : s.isBasic = true) : regime.crosses s = true := by
  cases s <;> first | rfl | simp [Category.isBasic] at h

omit words m in
theorem ne_of_settled {s : Category} (hs : s.isSettled = true) : s ≠ .keyword ∧ s ≠ .escape := by
  constructor <;> (rintro rfl; cases hs)

omit words m in
theorem like_escape (m : Memory) (e : Escape Category) {s : Category} (hs : s.isSettled = true) :
    regime.like s m { m with escape := e } := ⟨e, rfl, fun h => absurd h (ne_of_settled hs).2⟩

omit words m in
theorem fits_of (m : Memory) {s : Category} (hs : s.isSettled = true) : regime.fits s m :=
  ⟨(ne_of_settled hs).1, fun h => absurd h (ne_of_settled hs).2⟩

/-! ### Values -/

/-- A value that may end here is neither plain text nor an escape. -/
def isValue (s : Category) : Bool :=
  s == .number || s == .dateTime || s == .identifier || s == .string || s == .literalString

theorem endValue_twin (h : Cursor.Alike regime.toConduct k k' u u' c c')
    (hv : isValue c.state = true) (e : Escape Category) :
    Flow.Twin regime c c' (endValue words c m) (endValue words c' { m with escape := e }) := by
  have hs : regime.stable c.state = false := by
    revert hv
    cases c.state <;> decide
  have hq : Palette.isQuiet c.state = false := by
    revert hv
    cases c.state <;> decide
  unfold endValue
  simp only [← h.nextVisible_eq, ← h.currentWord hs, ← h.state]
  by_cases hkey : 0 < m.brackets ∧
      (c.nextVisible = equals ∨ c.nextVisible = dot ∨ c.nextVisible = minus)
  · rw [if_pos hkey, if_pos hkey]
    exact .again (.recolor .refl .key hs (by rw [hq]; rfl) False.elim) (like_escape _ e rfl)
      (fits_of _ rfl) rfl
  · rw [if_neg hkey, if_neg hkey]
    split_ifs with hword
    · exact .again (.switch (.recolor .refl .keyword hs (by rw [hq]; rfl) False.elim) _)
        (like_escape _ e rfl) (fits_of _ rfl) rfl
    · exact .again (.switch .refl _) (like_escape _ e rfl) (fits_of _ rfl) rfl

theorem leaveNumber_twin (h : Cursor.Alike regime.toConduct k k' u u' c c')
    (hs : c.state = .number) (e : Escape Category) :
    Flow.Twin regime c c' (leaveNumber words c m)
      (leaveNumber words c' { m with escape := e }) := by
  have hend := endValue_twin words m h (by rw [hs]; rfl) e
  unfold leaveNumber
  rw [← h.continuesNumber_eq]
  by_cases hb : c.byte = newline
  · have hn : continuesNumber c.behind c.byte c.next = false := by
      simp [hb, continuesNumber, isNameByte, isNameStart, isAlpha, isLower, isUpper, isDigit]
    have hd : ∀ b, ¬ ((newline = minus ∨ newline = colon) ∧ isDigit b = true) := by simp
    rw [hn, ← h.byte_eq, hb]
    simpa only [Bool.false_eq_true, if_false, if_neg (hd _)] using hend
  · rw [← h.byte_eq, ← h.next_eq hb]
    have hl := like_escape m e (show c.state.isSettled = true by rw [hs]; rfl)
    have hf := fits_of m (show c.state.isSettled = true by rw [hs]; rfl)
    split_ifs with hnum hdate
    · exact .pass .refl hl hf (.of_byte hb rfl)
    · exact .pass (.recolor .refl _ (by rw [hs]; rfl) (by rw [hs]; rfl) False.elim)
        (like_escape m e rfl) (fits_of m rfl) (.of_byte hb rfl)
    · exact hend

theorem leaveString_twin (h : Cursor.Alike regime.toConduct k k' u u' c c')
    (hs : c.state.isTriple = true ∨ c.state = .string ∨ c.state = .literalString)
    (e : Escape Category) :
    Flow.Twin regime c c' (leaveString words c m)
      (leaveString words c' { m with escape := e }) := by
  have he : c.state.isSettled = true := by
    revert hs
    cases c.state <;> decide
  have hcross : regime.crosses c.state = true := by
    revert hs
    cases c.state <;> decide
  unfold leaveString
  simp only [← h.state, ← h.atLineStart, ← h.byte_eq]
  by_cases hstart : c.atLineStart = true ∧ (!c.state.isTriple) = true
  · rw [if_pos hstart, if_pos hstart]
    exact .pass (.switch .refl _) (like_escape m e rfl) (fits_of m rfl)
      (.of_crosses rfl rfl)
  rw [if_neg hstart, if_neg hstart]
  by_cases hesc : c.byte = backslash ∧ c.state.isBasic = true
  · rw [if_pos hesc, if_pos hesc]
    refine Escape.enter_twin h _ _ (by rw [hesc.1]; decide) rfl rfl (like_escape m e he)
      (fits_of m he) fun e' he' => ⟨⟨e', rfl, fun _ => rfl⟩, Category.noConfusion, fun _ => ?_⟩
    rw [he']
    exact hesc.2
  rw [if_neg hesc, if_neg hesc]
  by_cases hclose : c.byte = c.state.closingByte
  · have hb : c.byte ≠ newline := by
      rw [hclose, Category.closingByte]
      split <;> decide
    rw [if_pos hclose, if_pos hclose]
    by_cases htriple : c.state.isTriple = true
    · simp only [htriple, Bool.not_true, Bool.false_eq_true, if_false, ← h.readsNext_eq hb hb]
      split_ifs
      · have hmoves :=
          (Cursor.InStep.refl.toLastOfRun h hb).forward (by rwa [Cursor.byte_toLastOfRun])
        exact .again (hmoves.switch _) (like_escape m e rfl) (fits_of m rfl) rfl
      · exact .pass .refl (like_escape m e he) (fits_of m he) (.of_byte hb rfl)
    · have hmoves : Cursor.InStep regime.toConduct c c' c.forward c'.forward :=
        Cursor.InStep.refl.forward hb
      have hv : isValue c.forward.state = true := by
        rw [Cursor.state_forward]
        rcases hs.resolve_left htriple with hs | hs <;> rw [hs] <;> rfl
      simp only [htriple, Bool.not_false, if_true]
      exact (endValue_twin words m (hmoves.alike h) hv e).after hmoves
  · rw [if_neg hclose, if_neg hclose]
    exact .pass .refl (like_escape m e he) (fits_of m he) (.of_crosses hcross rfl)

/-! ### Keys -/

omit words in
theorem passQuoting_alike (h : Cursor.Alike regime.toConduct k k' u u' c c')
    (e : Escape Category) :
    Cursor.InStep regime.toConduct c c' (passQuoting c m).1
        (passQuoting c' { m with escape := e }).1 ∧
      (passQuoting c' { m with escape := e }).2 = { (passQuoting c m).2 with escape := e } ∧
      (passQuoting c m).1.state = c.state := by
  have hforward : ∀ b, b ≠ newline → c.byte = b →
      Cursor.InStep regime.toConduct c c' c.forward c'.forward :=
    fun b hb hc => Cursor.InStep.refl.forward (hc ▸ hb)
  obtain ⟨key, level, brackets, escape, flags⟩ := m
  unfold passQuoting
  cases key
  case bare => exact ⟨.refl, rfl, rfl⟩
  case done => exact ⟨.refl, rfl, rfl⟩
  case literal =>
    simp only [← h.byte_eq]
    split_ifs with hb
    · exact ⟨hforward _ (by decide) hb, rfl, Cursor.state_forward⟩
    · exact ⟨.refl, rfl, rfl⟩
  case quoted =>
    simp only [← h.byte_eq]
    split_ifs with hb hb'
    · exact ⟨hforward _ (by decide) hb, rfl, Cursor.state_forward⟩
    · exact ⟨hforward _ (by decide) hb', rfl, Cursor.state_forward⟩
    · exact ⟨.refl, rfl, rfl⟩

omit words in
theorem closeTable_twin (h : Cursor.Alike regime.toConduct k k' u u' c c')
    (hb : c.byte = rbracket) (hs : c.state = .table) (e : Escape Category) :
    Flow.Twin regime c c' (closeTable c m) (closeTable c' { m with escape := e }) := by
  -- whether a second bracket was passed or not, a comment is looked for behind
  have hrest : ∀ {d d' : Place}, Cursor.InStep regime.toConduct c c' d d' → d.state = .table →
      Flow.Twin regime c c'
        (.pass (if d.nextVisible = hash then d.switch .plain else d) { m with key := .done })
        (.pass (if d'.nextVisible = hash then d'.switch .plain else d')
          { m with key := .done, escape := e }) := by
    intro d d' moves hd
    rw [← (moves.alike h).nextVisible_eq]
    split_ifs
    · exact .pass (moves.switch _) (like_escape _ e rfl) (fits_of _ rfl)
        (.of_crosses rfl rfl)
    · exact .pass moves (like_escape _ e (by rw [hd]; rfl))
        (fits_of _ (by rw [hd]; rfl)) (.of_crosses (by rw [hd]; rfl) rfl)
  have hmoves : Cursor.InStep regime.toConduct c c' c.forward c'.forward :=
    Cursor.InStep.refl.forward (by rw [hb]; decide)
  unfold closeTable
  simp only [← (hmoves.alike h).byte_eq]
  by_cases hb' : c.forward.byte = rbracket
  · simp only [if_pos hb']
    exact hrest (hmoves.forward (by rw [hb']; decide)) (by simp [hs])
  · simp only [if_neg hb']
    exact hrest hmoves (by simp [hs])

omit words in
theorem leaveBareTable_twin (h : Cursor.Alike regime.toConduct k k' u u' c c')
    (hs : c.state = .table) (e : Escape Category) :
    Flow.Twin regime c c' (leaveBareTable c m) (leaveBareTable c' { m with escape := e }) := by
  unfold leaveBareTable
  simp only [← h.byte_eq]
  split_ifs with hdot hclose
  · exact .pass .refl (like_escape _ e (by rw [hs]; rfl))
      (fits_of _ (by rw [hs]; rfl)) (.of_crosses (by rw [hs]; rfl) rfl)
  · exact closeTable_twin m h hclose hs e
  · exact .pass .refl (like_escape _ e (by rw [hs]; rfl))
      (fits_of _ (by rw [hs]; rfl)) (.of_crosses (by rw [hs]; rfl) rfl)

omit words in
theorem leaveBareKey_twin (h : Cursor.Alike regime.toConduct k k' u u' c c')
    (hs : c.state = .key) (e : Escape Category) :
    Flow.Twin regime c c' (leaveBareKey c m) (leaveBareKey c' { m with escape := e }) := by
  have hstay : Flow.Twin regime c c' (.pass c m) (.pass c' { m with escape := e }) :=
    .pass .refl (like_escape _ e (by rw [hs]; rfl))
      (fits_of _ (by rw [hs]; rfl)) (.of_crosses (by rw [hs]; rfl) rfl)
  unfold leaveBareKey
  simp only [← h.byte_eq, ← h.nextVisible_eq, ← h.byte]
  split_ifs with hdot hbyte hequals herror
  · refine .again (((Cursor.InStep.refl.switch _).forward ?_).switch _) (like_escape _ e rfl)
      (fits_of _ rfl) rfl
    change c.byte ≠ newline
    rw [hdot]
    decide
  · exact hstay
  · exact .pass (.switch .refl _) (like_escape _ e rfl) (fits_of _ rfl)
      (.of_crosses rfl rfl)
  · exact .again (.recolor .refl _ (by rw [hs]; rfl) (by rw [hs]; rfl) False.elim)
      (like_escape _ e rfl) (fits_of _ rfl) rfl
  · exact hstay

omit words in
theorem leaveKey_twin (h : Cursor.Alike regime.toConduct k k' u u' c c')
    (hs : c.state = .table ∨ c.state = .key) (e : Escape Category) :
    Flow.Twin regime c c' (leaveKey c m) (leaveKey c' { m with escape := e }) := by
  obtain ⟨hmoves, hm, hstate⟩ := passQuoting_alike m h e
  unfold leaveKey
  rw [← h.atLineStart]
  split_ifs with hstart
  · exact .pass (.switch .refl _) (like_escape _ e rfl) (fits_of _ rfl)
      (.of_crosses rfl rfl)
  revert hmoves hm hstate
  generalize passQuoting c m = x
  generalize passQuoting c' { m with escape := e } = x'
  obtain ⟨d, n⟩ := x
  obtain ⟨d', n'⟩ := x'
  rintro hmoves rfl hstate
  change Cursor.InStep regime.toConduct c c' d d' at hmoves
  change d.state = c.state at hstate
  have hd := hmoves.alike h
  rw [← hstate] at hs
  have hstay : ∀ n : Memory,
      Flow.Twin regime c c' (.pass d n) (.pass d' { n with escape := e }) := by
    intro n
    rcases hs with hs | hs
    all_goals
      exact .pass hmoves (like_escape _ e (by rw [hs]; rfl))
        (fits_of _ (by rw [hs]; rfl)) (.of_crosses (by rw [hs]; rfl) rfl)
  simp only [← hd.byte_eq, ← hd.state]
  split_ifs with hkey hliteral hquote htable
  · exact hstay n
  · exact hstay _
  · exact hstay _
  · exact (leaveBareTable_twin n hd htable e).after hmoves
  · exact (leaveBareKey_twin n hd (hs.resolve_left htable) e).after hmoves

/-! ### The rules together -/

theorem leave_twin (h : Cursor.Alike regime.toConduct k k' u u' c c')
    (hf : regime.fits c.state m) {m' : Memory} (hl : regime.like c.state m m') :
    Flow.Twin regime c c' (leave words c m) (leave words c' m') := by
  obtain ⟨e, rfl, he⟩ := hl
  have hstay : ∀ s, c.state = s → s.isSettled = true →
      (regime.crosses s = true ∨ c.byte ≠ newline) →
      Flow.Twin regime c c' (.pass c m) (.pass c' { m with escape := e }) := by
    rintro _ rfl hs hb
    refine .pass .refl (like_escape m e hs) hf ?_
    rcases hb with hb | hb
    · exact .of_crosses hb rfl
    · exact .of_byte hb rfl
  have hplain : Flow.Twin regime c c' (.pass (c.switch .plain) m)
      (.pass (c'.switch .plain) { m with escape := e }) :=
    .pass (.switch .refl _) (like_escape m e rfl) (fits_of m rfl) (.of_crosses rfl rfl)
  unfold leave
  rw [← h.state]
  cases hs : c.state <;> simp only [← h.byte_eq, ← h.atLineStart]
  case operator => exact hplain
  case number => exact leaveNumber_twin words m h hs e
  case dateTime =>
    by_cases hb : c.byte = newline
    · have hn : ∀ n, (isNameByte newline || continuesDateTime newline n) = false := by
        intro n
        simp [isNameByte, isNameStart, isAlpha, isLower, isUpper, isDigit, continuesDateTime]
      simp only [hb, hn, Bool.false_eq_true, if_false]
      exact endValue_twin words m h (by rw [hs]; rfl) e
    · rw [← h.next_eq hb]
      split_ifs
      · exact hstay _ hs rfl (.inr hb)
      · exact endValue_twin words m h (by rw [hs]; rfl) e
  case identifier =>
    split_ifs with hb
    · exact hstay _ hs rfl (.inr (ne_newline rfl hb))
    · exact endValue_twin words m h (by rw [hs]; rfl) e
  case table => exact leaveKey_twin m h (.inl hs) e
  case key => exact leaveKey_twin m h (.inr hs) e
  case literalString => exact leaveString_twin words m h (.inr (.inr hs)) e
  case string => exact leaveString_twin words m h (.inr (.inl hs)) e
  case tripleLiteralString => exact leaveString_twin words m h (.inl (by rw [hs]; rfl)) e
  case tripleString => exact leaveString_twin words m h (.inl (by rw [hs]; rfl)) e
  case escape =>
    obtain rfl := he hs
    have hbasic := hf.2 hs
    refine Escape.leave_twin h m.escape rfl (crosses_of_basic hbasic) ⟨_, rfl, fun _ => rfl⟩
      ⟨hf.1, fun _ => hbasic⟩ ⟨_, rfl, fun _ => rfl⟩ ⟨?_, fun _ => hbasic⟩
    intro hk
    rw [hk] at hbasic
    cases hbasic
  case error =>
    split_ifs with _ hb
    · exact hplain
    · exact .pass (.switch .refl _) (like_escape m e rfl) (fits_of m rfl)
        (.of_crosses rfl rfl)
    · exact hstay _ hs rfl (.inl rfl)
  case comment =>
    split_ifs
    · exact hplain
    · exact hstay _ hs rfl (.inl rfl)
  case plain => exact hstay _ hs rfl (.inl rfl)
  case keyword => exact absurd hs hf.1

omit words in
theorem enterLine_twin (h : Cursor.Alike regime.toConduct k k' u u' c c')
    (hp : c.state = .plain) (e : Escape Category) :
    Flow.Twin regime c c' (enterLine c m) (enterLine c' { m with escape := e }) := by
  -- everything but white space begins a run that ends with its line
  have hbegin : ∀ (s : Category) (n : Memory), regime.ending s = true →
      Flow.Twin regime c c' (.pass (c.switch s) n)
        (.pass (c'.switch s) { n with escape := e }) := by
    intro s n hs
    have hsettled : s.isSettled = true := by
      revert hs
      cases s <;> decide
    exact .pass (.switch .refl s) (like_escape n e hsettled) (fits_of n hsettled)
      (.of_crosses (by simp [Conduct.crosses, Cursor.switch, hs]) rfl)
  unfold enterLine
  simp only [← h.byte_eq]
  by_cases hb : c.byte = lbracket
  · have hnext := h.next_eq (by rw [hb]; decide)
    have hswitch : ∀ d : Place, (d.switch .table).next = d.next := fun _ => rfl
    simp only [if_pos hb, hswitch, ← hnext]
    split_ifs
    · refine .pass ((Cursor.InStep.refl.switch Category.table).forward ?_) (like_escape _ e ?_)
        (fits_of _ ?_) (.of_crosses ?_ rfl)
      · change c.byte ≠ newline
        rw [hb]
        decide
      all_goals
        rw [Cursor.state_forward]
        rfl
    · exact hbegin .table _ rfl
  · rw [if_neg hb, if_neg hb]
    split_ifs
    · exact hbegin .key { m with key := .literal } rfl
    · exact hbegin .key { m with key := .quoted } rfl
    · exact hbegin .key { m with key := .bare } rfl
    · exact .pass .refl (like_escape m e (by rw [hp]; rfl))
        (fits_of m (by rw [hp]; rfl)) (.of_crosses (by rw [hp]; rfl) rfl)
    · exact hbegin .error m rfl

omit words in
theorem enterString_twin (h : Cursor.Alike regime.toConduct k k' u u' c c')
    (hb : c.byte = apostrophe ∨ c.byte = quote) (e : Escape Category) :
    Flow.Twin regime c c' (enterString c m) (enterString c' { m with escape := e }) := by
  have hnl : c.byte ≠ newline := by
    rcases hb with hb | hb <;> rw [hb] <;> decide
  -- three quotes in a row begin a string that goes over lines
  have hlong : ∀ s : Category, s.isTriple = true → c.readsNext c.byte c.byte = true →
      Flow.Twin regime c c' (.pass ((c.switch s).forwardN 2) m)
        (.pass ((c'.switch s).forwardN 2) { m with escape := e }) := by
    intro s hs hrun
    have hnext : c.next = c.byte := by
      simp only [Cursor.readsNext, Bool.and_eq_true, beq_iff_eq] at hrun
      exact hrun.1
    have hmoves := (Cursor.InStep.refl.switch s).forwardN
      ((Cursor.InStep.refl.switch s).alike h)
      (Cursor.clear_two (c := c.switch s) hnl (hnext ▸ hnl))
    have hsettled : s.isSettled = true := by
      revert hs
      cases s <;> decide
    refine .pass hmoves (like_escape m e ?_) (fits_of m ?_) (.of_crosses ?_ rfl)
    all_goals rw [Cursor.state_forwardN]
    · exact hsettled
    · exact hsettled
    · simp [Conduct.crosses, regime, Cursor.switch, hs]
  unfold enterString
  simp only [← h.byte_eq, ← h.readsNext_eq hnl hnl]
  split_ifs with hrun hquote hquote
  · exact hlong _ rfl hrun
  · exact hlong _ rfl hrun
  · exact .pass (.switch .refl _) (like_escape m e rfl) (fits_of m rfl)
      (.of_crosses rfl rfl)
  · exact .pass (.switch .refl _) (like_escape m e rfl) (fits_of m rfl)
      (.of_crosses rfl rfl)

omit words in
theorem enterValue_twin (h : Cursor.Alike regime.toConduct k k' u u' c c')
    (hp : c.state = .plain) (e : Escape Category) :
    Flow.Twin regime c c' (enterValue c m) (enterValue c' { m with escape := e }) := by
  have hbegin : ∀ (s : Category) (n : Memory), c.byte ≠ newline → s.isSettled = true →
      Flow.Twin regime c c' (.pass (c.switch s) n) (.pass (c'.switch s) { n with escape := e }) :=
    fun s n hb hs =>
      .pass (.switch .refl s) (like_escape n e hs) (fits_of n hs) (.of_byte hb rfl)
  unfold enterValue
  simp only [← h.byte_eq]
  split_ifs with hstring hdigit hlower hoperator hkey
  · exact enterString_twin m h hstring e
  · exact hbegin .number m (ne_newline rfl hdigit) rfl
  · exact hbegin .identifier m (ne_newline rfl hlower) rfl
  · exact hbegin .operator { m with brackets := bracketsAfter c.byte m.brackets }
      (ne_newline rfl hoperator) rfl
  · exact hbegin .key { m with key := .bare } (ne_newline rfl hkey.2) rfl
  · exact .pass .refl (like_escape m e (by rw [hp]; rfl))
      (fits_of m (by rw [hp]; rfl)) (.of_crosses (by rw [hp]; rfl) rfl)

omit words in
theorem enter_twin (h : Cursor.Alike regime.toConduct k k' u u' c c')
    (hp : c.state = .plain) {m' : Memory} (hl : regime.like c.state m m') :
    Flow.Twin regime c c' (enter c m) (enter c' m') := by
  obtain ⟨e, rfl, -⟩ := hl
  have hvisible : c.visible = c'.visible := h.visible
  unfold enter
  simp only [← h.byte_eq, ← hvisible]
  split_ifs
  · exact .pass (.switch .refl _) (like_escape _ e rfl) (fits_of _ rfl) (.of_crosses rfl rfl)
  · exact .pass (.switch .refl _) (like_escape m e rfl) (fits_of m rfl)
      (.of_crosses rfl rfl)
  · exact enterLine_twin m h hp e
  · exact enterValue_twin m h hp e

omit words in
theorem endLine_alike (h : Cursor.Kin regime.toConduct k k' c c') (hf : regime.fits c.state m)
    {m' : Memory} (hl : regime.like c.state m m') :
    (endLine c m).1 = (endLine c' m').1 ∧
      regime.like c.state (endLine c m).2 (endLine c' m').2 ∧
      regime.fits c.state (endLine c m).2 := by
  obtain ⟨e, rfl, he⟩ := hl
  have hvisible : c.visible = c'.visible := h.visible
  refine ⟨?_, ⟨e, ?_, he⟩, hf⟩
  · simp only [endLine, hvisible, h.state, h.indent]
  · simp only [endLine, h.state]

omit words in
/-- A line that is not nested ends outside all brackets. -/
theorem brackets_of_not_nested (h : (endLine c m).1.flags.nested = false) : m.brackets = 0 := by
  rcases Nat.eq_zero_or_pos m.brackets with h₀ | h₀
  · exact h₀
  · simp only [endLine, LineState.of, h₀, decide_true, Bool.or_true] at h
    split_ifs at h
    simp_all [LineFlags.none]

end Rules

/-- TOML keeps to its regime. -/
theorem keeps (words : WordSets) : (grammar words).Keeps regime where
  tidy_of_reads := id
  stable_plain := rfl
  named_of_crosses _ := rfl
  like_refl _ m := ⟨m.escape, rfl, fun _ => rfl⟩
  leave h hf _ hl := leave_twin words _ h hf hl
  enter h hp _ hl := enter_twin _ h hp hl
  endLine h hf hl := endLine_alike _ h hf hl
  leave_plain {c z} h := by
    change leave words c z = _
    rw [leave, h]
    rfl
  leave_ending {c z} h hs := by
    change leave words c z = .pass (c.switch .plain) z
    have hc : c.state = .comment ∨ c.state = .error ∨ c.state = .key ∨ c.state = .table ∨
        c.state = .string ∨ c.state = .literalString := by
      simpa [regime, or_assoc] using h
    rcases hc with hc | hc | hc | hc | hc | hc
    all_goals simp [leave, leaveKey, leaveString, hc, hs, Category.isTriple]
  fits_plain _ _ := fits_of _ rfl
  like_plain _ h := by
    obtain ⟨e, rfl, -⟩ := h
    exact like_escape _ e rfl
  begin {k k' u u' c c' b} h hpos hp := by
    have hflags : (grammar words).begin c b = (c, ({} : Memory)) := by
      change (c, ({ flags := { string := c.state.isTriple } } : Memory)) = _
      rw [hp]
      rfl
    have hflags' : (grammar words).begin c' b = (c', ({} : Memory)) := by
      change (c', ({ flags := { string := c'.state.isTriple } } : Memory)) = _
      rw [← h.state, hp]
      rfl
    rw [hflags, hflags']
    refine ⟨.refl, ⟨_, rfl, fun _ => rfl⟩, ?_, ?_⟩
    · rw [hp]
      exact fits_of _ rfl
    · rw [hp]
      rfl
  begin_later _ := rfl
  recalls {c d z} hc _ hn _ hs := by
    have hb := brackets_of_not_nested (m := z) hn
    refine ⟨{ outer := .plain }, ?_, fun he => ?_⟩
    · simp [grammar, endLine, hb, hs]
    · rw [he] at hc
      cases hc
  depth _ := rfl

end Highlight.Toml
