import Highlight.Proofs.Fold.Carried
import Highlight.Proofs.Language.Scala
import Highlight.Proofs.Session.HandsOn

/-!
Which lines of Scala fold under a line before them. The flags of two neighbouring lines decide, and
a line is flagged as a string line if it starts or ends within a string in triple quotes. So the
flags tell a line that starts within a string from any other, but for one case: behind the line on
which a string ends, a line that begins outside of it and is flagged for another reason counts as
carried too (`carried_eq`). The levels are those by where the lines start, with these lines added
(`folds_by_places`).
-/

namespace Highlight.Scala

open Byte (lbrace rbrace rbracket rparen newline quote)

variable {config : Config} {c : Place} {m m₀ m₁ m₂ : Memory}

/-! ### Through a line -/

/-- The line in progress is not flagged as a string line or a nested one. -/
def Memory.Unflagged (m : Memory) : Prop := m.flags.string = false ∧ m.flags.nested = false

/-- From `m` to `m'` a scan may have come within one line. -/
structure Memory.SameLine (m m' : Memory) : Prop where
  carried : m'.carried = m.carried
  unflagged : m.Unflagged → m'.Unflagged

namespace Memory.SameLine

theorem refl (m : Memory) : m.SameLine m := ⟨rfl, id⟩

theorem trans (h : m₀.SameLine m₁) (h' : m₁.SameLine m₂) : m₀.SameLine m₂ :=
  ⟨h'.carried.trans h.carried, h'.unflagged ∘ h.unflagged⟩

/-- All but the flags and what is carried may change in any way. -/
theorem of_eq (hcarried : m₁.carried = m₀.carried) (hflags : m₁.flags = m₀.flags) :
    m₀.SameLine m₁ :=
  ⟨hcarried, fun h => by rwa [Memory.Unflagged, hflags]⟩

theorem markComment (h : m₀.SameLine m₁) : m₀.SameLine m₁.markComment := ⟨h.carried, h.unflagged⟩

theorem markCloser (h : m₀.SameLine m₁) : m₀.SameLine m₁.markCloser := ⟨h.carried, h.unflagged⟩

theorem ite {p : Prop} [Decidable p] (h₁ : m₀.SameLine m₁) (h₂ : m₀.SameLine m₂) :
    m₀.SameLine (if p then m₁ else m₂) := by
  split
  · exact h₁
  · exact h₂

end Memory.SameLine

theorem sameLine_leaveBlockComment : m.SameLine (leaveBlockComment c m).data := by
  unfold leaveBlockComment
  have hstart : m.SameLine (if c.atLineStart then { m with flags := { comment := true } } else m) :=
    .ite ⟨rfl, fun _ => ⟨rfl, rfl⟩⟩ (.refl m)
  generalize (if c.atLineStart then { m with flags := { comment := true } } else m) = n at hstart
  refine hstart.trans ?_
  dsimp only
  split_ifs
  · unfold closeBlockComment
    dsimp only
    split_ifs
    · exact ⟨rfl, fun _ => ⟨rfl, rfl⟩⟩
    · exact .of_eq rfl rfl
    · exact .of_eq rfl rfl
  · exact .of_eq rfl rfl
  · exact .refl n
  · exact .refl n

theorem sameLine_leaveWord : m.SameLine (leaveWord config c m).data := by
  have hname : ∀ d : Place, m.SameLine (classifyName config d m).2 := fun d =>
    .ite (.markCloser (.of_eq rfl rfl)) (.of_eq rfl rfl)
  unfold leaveWord
  dsimp only
  split_ifs
  · exact .refl m
  · cases m.reference with
    | some outer => exact .of_eq rfl rfl
    | none => exact hname _
  · exact .refl m
  · exact .refl m

theorem sameLine_leaveLiteral : m.SameLine (leaveLiteral c m).data := by
  unfold leaveLiteral
  dsimp only
  split_ifs
  · exact .refl m
  · unfold Escape.enter
    dsimp only
    split_ifs
    all_goals exact .of_eq rfl rfl
  · unfold enterInterpolation
    split_ifs
    all_goals exact .of_eq rfl rfl
  · exact .refl m
  · exact .refl m

theorem sameLine_enterTag : m.SameLine (enterTag c m).data := by
  unfold enterTag
  split_ifs
  all_goals exact .of_eq rfl rfl

theorem sameLine_leaveMarkup : m.SameLine (leaveMarkup c m).data := by
  unfold leaveMarkup
  dsimp only
  split_ifs
  · exact .ite (.of_eq rfl rfl) (.refl m)
  iterate 4
    · exact .refl m
  · exact .of_eq rfl rfl
  · exact sameLine_enterTag
  · exact .refl m

theorem sameLine_leave : m.SameLine (leave config c m).data := by
  unfold leave
  cases hs : c.state
  case number | lineComment => dsimp only; split_ifs <;> exact .refl m
  case identifier | annotationName | symbol | tag | attributeName => exact sameLine_leaveWord
  case blockComment | docComment => exact sameLine_leaveBlockComment
  case commentTag =>
    dsimp only [leaveCommentTag]
    split_ifs <;> exact .refl m
  case escape =>
    dsimp only [Escape.leave]
    split_ifs <;> exact .of_eq rfl rfl
  case markupText | markupOther => exact sameLine_leaveMarkup
  case backquoted | character | string | interpolated | tripleString | tripleInterpolated |
      singleQuoted | doubleQuoted =>
    exact sameLine_leaveLiteral
  all_goals exact .refl m

theorem sameLine_enterRegionOperator : m.SameLine (enterRegionOperator c m).data := by
  unfold enterRegionOperator
  dsimp only
  split_ifs
  · exact .of_eq rfl rfl
  · cases m.regions.pop? with
    | some p => exact .of_eq rfl rfl
    | none => exact .refl m
  · exact .refl m

theorem sameLine_enterOperator : m.SameLine (enterOperator c m).data := by
  unfold enterOperator
  split_ifs
  · exact .refl m
  · exact sameLine_enterRegionOperator
  · exact (Memory.SameLine.refl m).markCloser
  · exact .refl m

theorem sameLine_enterPunctuation : m.SameLine (enterPunctuation config c m).data := by
  have hcomment : m.SameLine (if c.visible = 0 then m.markComment else m) :=
    have hrefl := Memory.SameLine.refl m
    .ite hrefl.markComment hrefl
  refine enterPunctuation_cases (motive := fun r => m.SameLine r.data) ?line ?block ?string ?letter
    ?tag ?sign ?name ?operator
  case line => exact hcomment
  case block => exact fun _ _ => hcomment.trans (.of_eq rfl rfl)
  case string =>
    intro _
    unfold enterString
    dsimp only
    split_ifs <;> exact .refl m
  case letter =>
    unfold enterApostrophe
    split_ifs <;> exact .refl m
  case tag => exact fun _ => sameLine_enterTag
  case sign => exact fun _ _ => .refl m
  case name => exact .of_eq rfl rfl
  case operator => exact sameLine_enterOperator

theorem sameLine_enter : m.SameLine (enter config c m).data := by
  unfold enter
  split
  case h_3 => exact sameLine_enterPunctuation
  all_goals exact .of_eq rfl rfl

/-! ### From line to line -/

/-- How a line is flagged that starts in a string in triple quotes or not, as `a` says, and leaves
the next line to start in one or not, as `b` says. -/
def FlaggedAs (a : Bool) (st : LineState) (b : Bool) : Prop :=
  st.flags.string = (st.flags.nested || b || a)

theorem handsOn (config : Config) :
    (grammar config).HandsOn Memory.Unflagged Memory.carried FlaggedAs where
  begin _ _ := ⟨rfl, rfl⟩
  leave _ _ h := ⟨sameLine_leave.unflagged h, sameLine_leave.carried⟩
  enter _ _ h := ⟨sameLine_enter.unflagged h, sameLine_enter.carried⟩
  endLine c m h := by
    obtain ⟨hstring, hnested⟩ := h
    refine ⟨⟨rfl, rfl⟩, ?_⟩
    change (lineFlags c m).string = ((lineFlags c m).nested || c.state.isTriple || m.carried)
    unfold lineFlags
    split_ifs with hopen hin hblank
    · rfl
    · rcases hin with h | h <;> simp [h]
    · simpa [not_or] using hin
    · simpa [hstring, hnested, not_or] using hin

/-- The byte before the offset is in a string in triple quotes. -/
def behindTriple (styles : Styles Category) : Nat → Bool
  | 0 => false
  | o + 1 => (styles.categoryAt o).isTriple

open Pass

section Lines

variable {text : Text} {i o o' : Nat}

/-- What a scan carries into a line is seen from the byte before it. -/
theorem exists_carried (config : Config) (ho : (LineTable.ofText text).start? i = some o) :
    ∃ q, Opens (grammar config) text i q ∧
      q.data.carried = behindTriple (Session.fresh (grammar config) text).styles o := by
  have hg := keeps config
  obtain ⟨-, hle, -⟩ := LineTable.take_start? ho
  obtain ⟨q, hopens, ⟨-, rfl, rfl⟩ | ⟨hpos, hcomes, hbegins⟩⟩ := exists_opens hg ho
  · exact ⟨_, hopens, rfl⟩
  · obtain ⟨c, z, -, hstate, -, hdata, -⟩ := hcomes.atLineStart.summed
    have hlen := hbegins.length_spent
    rw [List.length_take, Nat.min_eq_left hle] at hlen
    obtain ⟨o, rfl⟩ := Nat.exists_eq_add_of_lt hpos
    refine ⟨q, hopens, ?_⟩
    rw [hdata, Nat.zero_add, behindTriple, Session.categoryAt_before hg hcomes (by omega), ← hstate]
    rfl

/-- A line that another one follows is a string line if it starts in a string or the next one
does, or if it is nested. -/
theorem string_eq (config : Config) (ho : (LineTable.ofText text).start? i = some o)
    (ho' : (LineTable.ofText text).start? (i + 1) = some o') :
    let t := Session.fresh (grammar config) text
    (t.store.state i).flags.string =
      ((t.store.state i).flags.nested || behindTriple t.styles o' || behindTriple t.styles o) := by
  obtain ⟨q, hq, hcarried⟩ := exists_carried config ho
  obtain ⟨q', hq', hcarried'⟩ := exists_carried config ho'
  obtain ⟨st, hmem, hst⟩ := hq.linked (handsOn config) hq'
  intro t
  rw [Session.state_fresh (keeps config) hmem]
  change st.flags.string = (st.flags.nested || _ || _)
  rw [hst, hcarried, hcarried']

/-- A line that starts in a string is a string line, if it has any bytes. -/
theorem string_of_behindTriple (config : Config)
    (ho : (LineTable.ofText text).start? i = some o) (hlt : o < text.length)
    (h : behindTriple (Session.fresh (grammar config) text).styles o = true) :
    ((Session.fresh (grammar config) text).store.state i).flags.string = true := by
  obtain ⟨q, hq, hcarried⟩ := exists_carried config ho
  obtain ⟨st, b, hmem, hst⟩ :=
    hq.linked_fresh (keeps config) (handsOn config) ((lt_committed_iff ho).2 hlt)
  rw [Session.state_fresh (keeps config) hmem]
  change st.flags.string = true
  rw [hst, hcarried, h, Bool.or_true]

theorem state_eq_default (config : Config) (ho : (LineTable.ofText text).start? i = some o)
    (h : ¬o < text.length) : (Session.fresh (grammar config) text).store.state i = {} :=
  Session.state_fresh_of_committed_le (keeps config)
    (Nat.le_of_not_lt fun hlt => h ((lt_committed_iff ho).1 hlt))

end Lines

/-! ### Where lines start -/

/-- The line starts in a string in triple quotes: the byte before its first byte is in one. -/
def startsInString (styles : Styles Category) (text : Text) (line : Nat) : Bool :=
  match (LineTable.ofText text).start? line with
  | some o => decide (o < text.length) && behindTriple styles o
  | none => false

/-- The line starts in a region opened before it: the line before it is nested, or it starts in a
string in triple quotes. -/
def startsInside (s : Session Category) (text : Text) (line : Nat) : Bool :=
  (s.store.stateBefore line).flags.nested || startsInString s.styles text line

/-- The line starts outside of strings, the line before it started within one, and still the line
is flagged as a string line, since it opens a string or a region. -/
def reopens (s : Session Category) (text : Text) : Nat → Bool
  | 0 => false
  | line + 1 => startsInString s.styles text line && !startsInString s.styles text (line + 1) &&
      (s.store.state (line + 1)).flags.string

/-- The flags tell which lines start inside, but that those count too on which a string is opened
right behind the end of another one. -/
theorem carried_eq (config : Config) (text : Text) {i : Nat}
    (hi : i < (LineTable.ofText text).count) :
    let t := Session.fresh (grammar config) text
    Indentation.carried (t.store.stateBefore i) (t.store.state i) =
      (startsInside t text i || reopens t text i) := by
  intro t
  cases i with
  | zero => simp [Indentation.carried, startsInside, reopens, startsInString, LineStore.stateBefore,
      LineTable.start?_zero, behindTriple]
  | succ i =>
    obtain ⟨o, ho⟩ := LineTable.isSome_start? (Nat.lt_of_succ_lt hi)
    obtain ⟨o', ho'⟩ := LineTable.isSome_start? hi
    -- the line before ends with a newline, so it has bytes
    have hlt : o < text.length := by
      refine (lt_committed_iff ho).1 ?_
      have := LineTable.count_ofText text
      have := text.count_le_committed
      omega
    have hbefore : (t.store.state i).flags.string =
        ((t.store.state i).flags.nested || behindTriple t.styles o' || behindTriple t.styles o) :=
      string_eq config ho ho'
    have hhere : startsInString t.styles text i = behindTriple t.styles o := by
      simp [startsInString, ho, hlt]
    simp only [Indentation.carried, startsInside, reopens, LineStore.stateBefore, hbefore, hhere]
    by_cases hlt' : o' < text.length
    · have hstart : startsInString t.styles text (i + 1) = behindTriple t.styles o' := by
        simp [startsInString, ho', hlt']
      have hstring : behindTriple t.styles o' = true →
          (t.store.state (i + 1)).flags.string = true := string_of_behindTriple config ho' hlt'
      rw [hstart]
      cases hin : behindTriple t.styles o' with
      | false => cases (t.store.state i).flags.nested <;> simp
      | true => simp [hstring hin]
    · have hstart : startsInString t.styles text (i + 1) = false := by
        simp [startsInString, ho', hlt']
      have hstate : t.store.state (i + 1) = {} := state_eq_default config ho' hlt'
      simp [hstart, hstate]

/-- **Lines fold by where they start.** The levels of a text are those by indentation where the
lines that start inside a region are placed under the line before the region, and with them the
lines on which a string is opened right behind the end of another one. If there are none of these,
every line is placed by where it starts. -/
theorem folds_by_places (config : Config) (s : Session Category) (text : Text) :
    let t := (s.highlight (grammar config) text).1
    let count := (LineTable.ofText text).count
    t.foldLevels (grammar config) text =
        Indentation.levelsBy (fun i => startsInside t text i || reopens t text i) t.store count ∧
      ((∀ i < count, reopens t text i = false) →
        t.foldLevels (grammar config) text =
          Indentation.levelsBy (startsInside t text) t.store count) := by
  intro t count
  have hfresh : t = Session.fresh (grammar config) text := by
    rw [Session.fresh_eq (keeps config)]
    exact congrArg Prod.fst (Session.highlight_eq (keeps config) s text)
  have hlevels : t.foldLevels (grammar config) text = Indentation.levelsBy
      (fun i => startsInside t text i || reopens t text i) t.store count := by
    change Indentation.levels t.store count = _
    rw [Indentation.levels_eq]
    refine Indentation.levelsBy_congr _ fun i hi => ?_
    rw [hfresh]
    exact carried_eq config text hi
  refine ⟨hlevels, fun hnone => hlevels.trans (Indentation.levelsBy_congr _ fun i hi => ?_)⟩
  simp [hnone i hi]

/-- Behind a string that nothing follows on its last line the next line is placed by its own indent.
If that line opens a string, it stays under the line before the first one, where it does not
start. -/
theorem folds_by_places_reopened :
    let g := grammar { words := {} }
    let text := Text.ofString "\"\"\"\n\"\"\"\nx"
    let again := Text.ofString "\"\"\"\n\"\"\"\n\"\"\""
    let t := (Session.highlight g {} text).1
    let t' := (Session.highlight g {} again).1
    (∀ i < (LineTable.ofText text).count, reopens t text i = false) ∧
      t.foldLevels g text =
        Indentation.levelsBy (startsInside t text) t.store (LineTable.ofText text).count ∧
      startsInside t' again 2 = false ∧ reopens t' again 2 = true ∧
      t'.foldLevels g again ≠
        Indentation.levelsBy (startsInside t' again) t'.store (LineTable.ofText again).count := by
  intro g text again t t'
  have hnone : ∀ i < (LineTable.ofText text).count, reopens t text i = false := by decide +kernel
  obtain ⟨-, hplaces⟩ := folds_by_places { words := {} } {} text
  exact ⟨hnone, hplaces hnone, by decide +kernel, by decide +kernel, by decide +kernel⟩

end Highlight.Scala
