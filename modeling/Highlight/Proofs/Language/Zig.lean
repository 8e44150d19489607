import Highlight.Language.Zig
import Highlight.Proofs.Language.Placeholder
import Highlight.Proofs.Scan.Escape
import Highlight.Proofs.Word

/-!
Zig keeps to a regime in which nothing but plain text goes over the end of a line: comments and
literals end with it, and no rule goes from one line to another. What a line is carried over from
the one before is its last visible byte alone.
-/

namespace Highlight.Zig

open Byte

/-- A literal, in which escapes and placeholders may stand. -/
def Category.isLiteral (s : Category) : Bool :=
  s == .character || s == .string || s == .multilineString

/-- A category that only runs already judged have. -/
def Category.isJudged : Category → Bool
  | .keyword | .typeName | .functionDefinition | .function | .placeholder | .specifier => true
  | _ => false

/-- How Zig treats its categories and its data. The escape and the byte before a name matter only
while they are in progress. -/
def regime : Regime Category Memory where
  stable s := s == .plain
  ending s := s.isComment || s.isLiteral
  named s := s == .identifier
  reads := False
  tidy := True
  like s m m' := m.announced = m'.announced ∧ m.flags = m'.flags ∧
    (s = .escape → m.escape = m'.escape) ∧ (s = .identifier → m.before = m'.before)
  fits s m := s.isJudged = false ∧ (s = .escape → m.escape.outer.isLiteral = true)
  kept _ := True

/-- Data that cannot be told apart outside of escapes and names. -/
def Even (m m' : Memory) : Prop := m.announced = m'.announced ∧ m.flags = m'.flags

section Rules

variable {config : Config} {k k' : List Category} {u u' : Text} {c c' : Place} {m m' : Memory}

theorem Even.like (h : Even m m') {s : Category} (he : s ≠ .escape) (hi : s ≠ .identifier) :
    regime.like s m m' := ⟨h.1, h.2, fun e => absurd e he, fun e => absurd e hi⟩

theorem fits_of {s : Category} (hs : s.isJudged = false) (he : s ≠ .escape) :
    regime.fits s m := ⟨hs, fun e => absurd e he⟩

/-- Going over to plain text is always alike. -/
theorem plain_twin (h : Even m m') :
    Flow.Twin regime c c' (.pass (c.switch .plain) m) (.pass (c'.switch .plain) m') :=
  .pass (.switch .refl _) (h.like nofun nofun) (fits_of rfl nofun) (.of_crosses rfl rfl)

/-! ### Literals -/

theorem literal_ne {s : Category} (hs : s.isLiteral = true) :
    s.isJudged = false ∧ s ≠ .escape ∧ s ≠ .identifier ∧ regime.crosses s = true ∧
      regime.named s = false := by
  revert hs
  cases s <;> decide

theorem readPlaceholder_twin (h : Cursor.Alike regime.toConduct k k' u u' c c')
    (hs : c.state.isLiteral = true) (hl : Even m m') :
    Flow.Twin regime c c' (readPlaceholder c m) (readPlaceholder c' m') := by
  obtain ⟨hj, he, hi, hc, hn⟩ := literal_ne hs
  obtain ⟨hread, hclear⟩ :=
    Placeholder.read_local (if c.state = .string then some quote else none) h.ahead
  unfold readPlaceholder
  simp only [← h.state, ← hread]
  cases hp : Placeholder.read (if c.state = .string then some quote else none) c.ahead with
  | none => exact .pass .refl (hl.like he hi) (fits_of hj he) (.of_crosses hc hn)
  | some p =>
    obtain ⟨hall, hle, hle'⟩ := hclear p hp
    have hgo : ∀ {d d' : Place} (i n : Nat), Cursor.InStep regime.toConduct c c' d d' →
        d.ahead = c.ahead.drop i → i + n ≤ p.length →
        Cursor.InStep regime.toConduct c c' (d.forwardN n) (d'.forwardN n) ∧
          (d.forwardN n).ahead = c.ahead.drop (i + n) := by
      intro d d' i n moves hd hn
      have hclear : d.ahead.Clear n := hd ▸ (hall.mono hn).drop
      refine ⟨moves.forwardN (moves.alike h) hclear, ?_⟩
      rw [Cursor.ahead_forwardN, hd, List.drop_drop]
    obtain ⟨m₁, h₁⟩ := hgo 0 p.specStart (.switch .refl .placeholder) rfl (by omega)
    rw [Nat.zero_add] at h₁
    -- whether there is a specifier or not, both stand behind its place
    have hspec : ∃ d d' : Place, Cursor.InStep regime.toConduct c c' d d' ∧
        d.ahead = c.ahead.drop p.specStop ∧
        (if p.specStart = p.specStop then (c.switch .placeholder).forwardN p.specStart
          else ((((c.switch .placeholder).forwardN p.specStart).switch .specifier).forwardN
            (p.specStop - p.specStart)).switch .placeholder) = d ∧
        (if p.specStart = p.specStop then (c'.switch .placeholder).forwardN p.specStart
          else ((((c'.switch .placeholder).forwardN p.specStart).switch .specifier).forwardN
            (p.specStop - p.specStart)).switch .placeholder) = d' := by
      split_ifs with heq
      · exact ⟨_, _, m₁, heq ▸ h₁, rfl, rfl⟩
      · obtain ⟨m₂, h₂⟩ := hgo p.specStart (p.specStop - p.specStart) (m₁.switch .specifier) h₁
          (by omega)
        rw [Nat.add_sub_cancel' hle] at h₂
        exact ⟨_, _, m₂.switch _, h₂, rfl, rfl⟩
    obtain ⟨d, d', m₂, h₂, hd, hd'⟩ := hspec
    obtain ⟨m₃, -⟩ := hgo p.specStop (p.length - p.specStop) m₂ h₂ (by omega)
    simp only [hd, hd']
    exact .again (m₃.switch _) (hl.like he hi) (fits_of hj he) hc

theorem leaveBrace_twin (h : Cursor.Alike regime.toConduct k k' u u' c c')
    (hs : c.state.isLiteral = true) (hb : c.byte = lbrace ∨ c.byte = rbrace) (hl : Even m m') :
    Flow.Twin regime c c' (leaveBrace c m) (leaveBrace c' m') := by
  obtain ⟨hj, he, hi, hc, hn⟩ := literal_ne hs
  have hnl : c.byte ≠ newline := by
    rcases hb with hb | hb <;> rw [hb] <;> decide
  unfold leaveBrace
  simp only [← h.byte_eq, ← h.next_eq hnl, ← h.state]
  split_ifs with hdouble hopen
  · have hmoves : Cursor.InStep regime.toConduct c c' (c.switch .escape).forward
        (c'.switch .escape).forward := (Cursor.InStep.refl.switch _).forward hnl
    refine .pass hmoves ⟨hl.1, hl.2, fun _ => rfl, ?_⟩ ⟨?_, fun _ => hs⟩ (.of_byte ?_ ?_)
    · rw [Cursor.state_forward]
      nofun
    · rw [Cursor.state_forward]
      rfl
    · rw [Cursor.byte_forward]
      change c.next ≠ newline
      rwa [hdouble]
    · rw [Cursor.state_forward]
      rfl
  · exact readPlaceholder_twin h hs hl
  · exact .pass .refl (hl.like he hi) (fits_of hj he) (.of_crosses hc hn)

theorem leaveLiteral_twin (h : Cursor.Alike regime.toConduct k k' u u' c c')
    (hs : c.state.isLiteral = true) (hl : Even m m') :
    Flow.Twin regime c c' (leaveLiteral config c m) (leaveLiteral config c' m') := by
  obtain ⟨hj, he, hi, hc, hn⟩ := literal_ne hs
  have hclose : ∀ b, b ≠ newline → c.byte = b →
      Flow.Twin regime c c' (.again (c.forwardSwitch .plain) m)
        (.again (c'.forwardSwitch .plain) m') := fun b hb hcb =>
    .again ((Cursor.InStep.refl.forward (hcb ▸ hb)).switch _) (hl.like nofun nofun)
      (fits_of rfl nofun) rfl
  unfold leaveLiteral
  simp only [← h.state, ← h.atLineStart, ← h.byte_eq]
  split_ifs with hstart hback hchar hstring hbrace
  · exact plain_twin hl
  · refine Escape.enter_twin h _ _ (by rw [hback.1]; decide) hn rfl (hl.like he hi)
      (fits_of hj he) fun e he' => ⟨⟨hl.1, hl.2, fun _ => rfl, nofun⟩, rfl, fun _ => ?_⟩
    rw [he']
    exact hs
  · exact hclose apostrophe (by decide) hchar.1
  · exact hclose quote (by decide) hstring.1
  · exact leaveBrace_twin h hs hbrace.1 hl
  · exact .pass .refl (hl.like he hi) (fits_of hj he) (.of_crosses hc hn)

/-! ### Names -/

theorem classifyName_twin (h : Cursor.Alike regime.toConduct k k' u u' c c')
    (hs : c.state = .identifier) (hname : c.HasName) (hl : Even m m')
    (hb : m.before = m'.before) :
    let (d, n) := classifyName config c m
    let (d', n') := classifyName config c' m'
    Flow.Twin regime c c' (.pass (d.switch .plain) n) (.pass (d'.switch .plain) n') := by
  have hstable : regime.stable c.state = false := by
    rw [hs]
    rfl
  unfold classifyName
  simp only [← hb, ← Occurrence.endingAt_eq h hstable, ← hl.1]
  refine .pass (.switch (.rename .refl _ hstable ?_ ?_ hname) _) ⟨rfl, hl.2, nofun, nofun⟩
    (fits_of rfl nofun) (.of_crosses rfl rfl)
  · rw [hs]
    rfl
  · cases Occurrence.classify config.words announcedBy (Occurrence.endingAt c m.before)
        m.announced with
    | mk kind announced => cases kind <;> rfl

/-! ### The rules together -/

theorem leave_twin (h : Cursor.Alike regime.toConduct k k' u u' c c')
    (hf : regime.fits c.state m) (hn : regime.named c.state = true → c.HasName)
    (hl : regime.like c.state m m') :
    Flow.Twin regime c c' (leave config c m) (leave config c' m') := by
  have he : Even m m' := ⟨hl.1, hl.2.1⟩
  have hstay : ∀ s, c.state = s → regime.named s = false →
      (regime.crosses s = true ∨ c.byte ≠ newline) →
      Flow.Twin regime c c' (.pass c m) (.pass c' m') := by
    rintro _ rfl hs hb
    refine .pass .refl hl hf ?_
    rcases hb with hb | hb
    · exact .of_crosses hb hs
    · exact .of_byte hb hs
  have hplain : Flow.Twin regime c c' (.pass (c.switch .plain) m) (.pass (c'.switch .plain) m') :=
    plain_twin he
  unfold leave
  rw [← h.state]
  cases hs : c.state
  case plain => exact hstay _ hs rfl (.inl rfl)
  case operator => exact hplain
  case number =>
    simp only [← h.continuesNumber_eq]
    split_ifs with hb
    · exact hstay _ hs rfl (.inr (ne_newline_of_continuesNumber hb))
    · exact hplain
  case identifier =>
    simp only [← h.byte_eq]
    split_ifs with hb
    · have hv := visible_of_isNameByte hb
      exact .pass .refl hl hf ⟨fun e => absurd e (ne_newline rfl hb), fun _ => hv⟩
    · exact classifyName_twin h hs (hn (by rw [hs]; rfl)) he (hl.2.2.2 hs)
  case builtin =>
    simp only [← h.byte_eq]
    split_ifs with hb
    · exact hstay _ hs rfl (.inr (ne_newline rfl hb))
    · exact hplain
  case lineComment | docComment | topComment =>
    simp only [← h.atLineStart]
    split_ifs
    · exact hplain
    · exact hstay _ hs rfl (.inl rfl)
  case character | string | multilineString => exact leaveLiteral_twin h (by rw [hs]; rfl) he
  case escape =>
    have hesc := hl.2.2.1 hs
    have houter := hf.2 hs
    obtain ⟨hj, ho, hi, hc, -⟩ := literal_ne houter
    rw [← hesc]
    exact Escape.leave_twin h m.escape (by rw [hs]; rfl) hc
      ⟨he.1, he.2, fun _ => rfl, fun e => by rw [hs] at e; cases e⟩ ⟨hf.1, fun _ => houter⟩
      ⟨he.1, he.2, fun _ => rfl, fun e => absurd e hi⟩ ⟨hj, fun _ => houter⟩
  case keyword | typeName | functionDefinition | function | placeholder | specifier =>
    simp [regime, hs, Category.isJudged] at hf

/-- The byte behind the two slashes says of which kind a comment is. -/
theorem commentKind_twin {d d' : Place} (h : Cursor.Alike regime.toConduct k k' u u' c c')
    (hmoves : Cursor.InStep regime.toConduct c c' d d') (hstate : d.state = .lineComment)
    (hm : Even m m') :
    let kind (d : Place) : Place :=
      if d.byte = bang then d.recolor .topComment
      else if d.byte = slash ∧ d.next ≠ slash then d.recolor .docComment
      else d
    Flow.Twin regime c c' (.pass (kind d) m) (.pass (kind d') m') := by
  intro kind
  have hd := hmoves.alike h
  have hkind : ∀ s : Category, s.isComment = true →
      Flow.Twin regime c c' (.pass (d.recolor s) m) (.pass (d'.recolor s) m') := by
    intro s hs
    have hq : Palette.isQuiet s = true := by
      change (s == .plain || s.isComment) = true
      rw [hs, Bool.or_true]
    have hfacts : s ≠ .escape ∧ s ≠ .identifier ∧ s.isJudged = false ∧
        regime.crosses s = true ∧ regime.named s = false := by
      revert hs
      cases s <;> decide
    obtain ⟨he, hi, hj, hc, hnamed⟩ := hfacts
    refine .pass (.recolor hmoves s (by rw [hstate]; rfl) ?_ fun _ => hq) (hm.like he hi)
      (fits_of hj he) (.of_crosses hc hnamed)
    rw [hq, hstate]
    rfl
  have hline : Flow.Twin regime c c' (.pass d m) (.pass d' m') := by
    refine .pass hmoves (hm.like ?_ ?_) (fits_of ?_ ?_) (.of_crosses ?_ ?_)
    all_goals
      rw [hstate]
      first | rfl | nofun
  simp only [kind, ← hd.byte_eq]
  by_cases hbang : d.byte = bang
  · rw [if_pos hbang, if_pos hbang]
    exact hkind _ rfl
  · rw [if_neg hbang, if_neg hbang]
    by_cases hslash : d.byte = slash
    · rw [← hd.next_eq (by rw [hslash]; decide)]
      split_ifs
      · exact hkind _ rfl
      · exact hline
    · rw [if_neg (fun e => hslash e.1), if_neg (fun e => hslash e.1)]
      exact hline

theorem enterComment_twin (h : Cursor.Alike regime.toConduct k k' u u' c c')
    (hb : c.byte = slash) (hn : c.next = slash) (hl : Even m m') :
    Flow.Twin regime c c' (enterComment c m) (enterComment c' m') := by
  have hvisible : c.visible = c'.visible := h.visible
  have hmark : Even (if c.visible = 0 then m.markComment else m)
      (if c'.visible = 0 then m'.markComment else m') := by
    rw [← hvisible]
    split_ifs
    · exact ⟨hl.1, by simp [Memory.markComment, hl.2]⟩
    · exact hl
  have hswitch : Cursor.InStep regime.toConduct c c' (c.switch .lineComment)
      (c'.switch .lineComment) := .switch .refl _
  have hclear : (c.switch .lineComment).ahead.Clear 2 :=
    Cursor.clear_two (by change c.byte ≠ _; rw [hb]; decide) (by change c.next ≠ _; rw [hn]; decide)
  exact commentKind_twin h (hswitch.forwardN (hswitch.alike h) hclear) (Cursor.state_forwardN _)
    hmark

theorem enterPunctuation_twin (h : Cursor.Alike regime.toConduct k k' u u' c c')
    (hb : c.byte ≠ newline) (hl : Even m m') :
    Flow.Twin regime c c' (enterPunctuation c m) (enterPunctuation c' m') := by
  have hbegin : ∀ {n n' : Memory} (s : Category), Even n n' → s.isJudged = false → s ≠ .escape →
      s ≠ .identifier →
      Flow.Twin regime c c' (.pass (c.switch s) n) (.pass (c'.switch s) n') := by
    intro n n' s hn hj he hi
    refine .pass (.switch .refl s) (hn.like he hi) (fits_of hj he) (.of_byte hb ?_)
    exact beq_eq_false_iff_ne.2 hi
  unfold enterPunctuation
  simp only [← h.byte_eq, ← h.next_eq hb]
  split_ifs with hcomment hlines hstring hchar hnumber hbuiltin
  · exact enterComment_twin h hcomment.1 hcomment.2 hl
  · exact hbegin _ ⟨hl.1, by simp [Memory.markString, hl.2]⟩ rfl nofun nofun
  · exact hbegin _ hl rfl nofun nofun
  · exact hbegin _ hl rfl nofun nofun
  · exact hbegin _ hl rfl nofun nofun
  · exact hbegin _ hl rfl nofun nofun
  · exact hbegin _ hl rfl nofun nofun

theorem enter_twin (h : Cursor.Alike regime.toConduct k k' u u' c c') (hp : c.state = .plain)
    (hl : regime.like c.state m m') : Flow.Twin regime c c' (enter c m) (enter c' m') := by
  have he : Even m m' := ⟨hl.1, hl.2.1⟩
  have hstay : Flow.Twin regime c c' (.pass c m) (.pass c' m') := by
    refine .pass .refl hl (fits_of ?_ ?_) (.of_crosses ?_ ?_)
    all_goals
      rw [hp]
      first | rfl | nofun
  have hnl : ∀ {k : ByteClass}, ByteClass.of c.byte = k → k ≠ .lineEnd → c.byte ≠ newline := by
    rintro _ rfl hk hb
    rw [hb] at hk
    exact hk rfl
  unfold enter
  rw [← h.byte_eq]
  cases hk : ByteClass.of c.byte
  case digit =>
    exact .pass (.switch .refl _) (he.like nofun nofun) (fits_of rfl nofun)
      (.of_byte (hnl hk nofun) rfl)
  case nameStart =>
    have hv := visible_of_class hk
    exact .pass (.switch .refl _) ⟨he.1, he.2, nofun, fun _ => h.byte⟩ (fits_of rfl nofun)
      ⟨fun e => absurd e (hnl hk nofun), fun _ => hv⟩
  case punctuation => exact enterPunctuation_twin h (hnl hk nofun) he
  case space => exact hstay
  case lineEnd => exact hstay
  case control => exact hstay

theorem endLine_alike (h : Cursor.Kin regime.toConduct k k' c c') (hf : regime.fits c.state m)
    (hl : regime.like c.state m m') :
    (endLine c m).1 = (endLine c' m').1 ∧
      regime.like c.state (endLine c m).2 (endLine c' m').2 ∧
      regime.fits c.state (endLine c m).2 := by
  have hvisible : c.visible = c'.visible := h.visible
  refine ⟨?_, ⟨rfl, rfl, hl.2.2⟩, hf⟩
  simp only [endLine, hl.2.1, hvisible, h.indent]

end Rules

/-- Zig keeps to its regime. -/
theorem keeps (config : Config) : (grammar config).Keeps regime where
  tidy_of_reads := False.elim
  stable_plain := rfl
  named_of_crosses {s} h := by
    revert h
    cases s <;> decide
  like_refl _ _ := ⟨rfl, rfl, fun _ => rfl, fun _ => rfl⟩
  leave h hf hn hl := leave_twin h hf hn hl
  enter h hp _ hl := enter_twin h hp hl
  endLine h hf hl := endLine_alike h hf hl
  leave_plain {c z} h := by
    change leave config c z = _
    rw [leave, h]
    rfl
  leave_ending {c z} h hs := by
    change leave config c z = .pass (c.switch .plain) z
    have hc : regime.ending c.state = true := h
    cases hstate : c.state <;> rw [hstate] at hc <;> try cases hc
    all_goals simp [leave, leaveLiteral, hstate, hs]
  fits_plain _ _ := fits_of rfl nofun
  like_plain _ h := ⟨h.1, h.2.1, nofun, nofun⟩
  begin {k k' u u' c c' b} h hpos hp := by
    refine ⟨.refl, ⟨rfl, rfl, fun _ => rfl, fun _ => rfl⟩, ?_, ?_⟩
    · change regime.fits c.state {}
      rw [hp]
      exact fits_of rfl nofun
    · change regime.crosses c.state = true
      rw [hp]
      rfl
  begin_later _ := rfl
  recalls {c d z} hc _ _ _ _ := by
    refine ⟨rfl, rfl, fun e => ?_, fun e => ?_⟩
    · rw [e] at hc
      cases hc
    · rw [e] at hc
      cases hc
  depth _ := rfl

end Highlight.Zig
