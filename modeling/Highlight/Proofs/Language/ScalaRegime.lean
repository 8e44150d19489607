import Highlight.Language.Scala
import Highlight.Proofs.Scan.Escape
import Highlight.Proofs.Scan.ReturnStack
import Highlight.Proofs.Word

/-!
How Scala treats its categories and its data. Plain text, block comments, strings in triple quotes
and markup go over the end of a line; line comments and the other quoted forms end with it; no run
of any other category comes to it. What is open in holes, braces and markup makes the line nested.
-/

namespace Highlight.Scala

open Byte (newline)

namespace Category

/-- A quoted form, in which escapes may stand. -/
def isLiteral (s : Category) : Bool := s.endsWithLine || s.isTriple

/-- A category that only names already judged have. -/
def isJudged : Category → Bool
  | .keyword | .className | .traitName | .enumName | .functionDefinition | .function => true
  | _ => false

/-- A category in which neither the escape nor the reference in progress matters. -/
def isSimple (s : Category) : Bool := !s.isJudged && s != .escape && s != .identifier

end Category

/-- How Scala treats its categories. -/
def conduct : Conduct Category where
  stable s := s == .plain || s == .blockComment || s == .docComment || s == .markupText ||
    s == .markupOther || s.isTriple
  ending s := s == .lineComment || s.endsWithLine
  named s := s == .identifier
  reads := True
  tidy := True

/-- Data that cannot be told apart but for the escape and the name in progress. -/
structure Even (m m' : Memory) : Prop where
  announced : m.announced = m'.announced
  commentDepth : m.commentDepth = m'.commentDepth
  regions : m.regions.Same m'.regions
  elements : m.elements = m'.elements
  flags : m.flags = m'.flags
  carried : m.carried = m'.carried

/-- The regions are as they were set up, and each returns to a state that goes over lines or ends
with its line. -/
structure Sane (config : Config) (m : Memory) : Prop where
  full : m.regions.Full
  cap : m.regions.cap = max config.stackCap 1
  held : ∀ s ∈ m.regions.held, conduct.crosses s = true

/-- How Scala treats its categories and its data. The escape matters only within one, and of a name
in progress what it refers to, or what stands before it. -/
def regime (config : Config) : Regime Category Memory where
  toConduct := conduct
  like s m m' := Even m m' ∧ (s = .escape → m.escape = m'.escape) ∧
    (s = .identifier → m.reference = m'.reference ∧ (m.reference = none → m.before = m'.before))
  fits s m := Sane config m ∧ s.isJudged = false ∧
    (s = .escape → m.escape.outer.isLiteral = true) ∧
    (s = .identifier → ∀ o ∈ m.reference, o.isInterpolated = true)
  kept m := m.commentDepth ≤ LineState.maxDepth

theorem Even.refl (m : Memory) : Even m m := ⟨rfl, rfl, .refl _, rfl, rfl, rfl⟩

/-! ### Categories -/

section Categories

variable {s : Category}

theorem simple_of_crosses (h : conduct.crosses s = true) : s.isSimple = true := by
  revert h
  cases s <;> decide

theorem crosses_of_literal (h : s.isLiteral = true) : conduct.crosses s = true := by
  revert h
  cases s <;> decide

theorem literal_of_interpolated (h : s.isInterpolated = true) : s.isLiteral = true := by
  revert h
  cases s <;> decide

theorem named_of_simple (h : s.isSimple = true) : conduct.named s = false := by
  revert h
  cases s <;> decide

theorem ne_of_simple (h : s.isSimple = true) :
    s.isJudged = false ∧ s ≠ .escape ∧ s ≠ .identifier := by
  revert h
  cases s <;> decide

end Categories

/-! ### Answers alike -/

section Twins

variable {config : Config} {k k' : List Category} {u u' : Text} {c c' d d' : Place}
  {m m' : Memory}

theorem Even.like (h : Even m m') {s : Category} (hs : s.isSimple = true) :
    (regime config).like s m m' :=
  ⟨h, fun e => absurd e (ne_of_simple hs).2.1, fun e => absurd e (ne_of_simple hs).2.2⟩

theorem Sane.fits (h : Sane config m) {s : Category} (hs : s.isSimple = true) :
    (regime config).fits s m :=
  ⟨h, (ne_of_simple hs).1, fun e => absurd e (ne_of_simple hs).2.1,
    fun e => absurd e (ne_of_simple hs).2.2⟩

/-- Going on in a state that may go up to the end of the line is always alike. -/
theorem pass_of_crosses (moves : Cursor.InStep conduct c c' d d') (he : Even m m')
    (hs : Sane config m) (hc : conduct.crosses d.state = true) :
    Flow.Twin (regime config) c c' (.pass d m) (.pass d' m') :=
  have h := simple_of_crosses hc
  .pass moves (he.like h) (hs.fits h) (.of_crosses hc (named_of_simple h))

/-- Within the line, going on in any state but an escape or a name is alike. -/
theorem pass_of_byte (moves : Cursor.InStep conduct c c' d d') (he : Even m m')
    (hs : Sane config m) (hb : d.byte ≠ newline) (hd : d.state.isSimple = true) :
    Flow.Twin (regime config) c c' (.pass d m) (.pass d' m') :=
  .pass moves (he.like hd) (hs.fits hd) (.of_byte hb (named_of_simple hd))

/-- Looking again in a state that may go up to the end of the line is always alike. -/
theorem again_of_crosses (moves : Cursor.InStep conduct c c' d d') (he : Even m m')
    (hs : Sane config m) (hc : conduct.crosses d.state = true) :
    Flow.Twin (regime config) c c' (.again d m) (.again d' m') :=
  have h := simple_of_crosses hc
  .again moves (he.like h) (hs.fits h) hc

/-! ### Changes to the data -/

theorem Even.markComment (h : Even m m') : Even m.markComment m'.markComment :=
  { h with flags := by simp [Memory.markComment, h.flags] }

theorem Even.markCloser (h : Even m m') : Even m.markCloser m'.markCloser :=
  { h with flags := by simp [Memory.markCloser, h.flags] }

theorem Even.push (h : Even m m') (s : Category) :
    Even { m with regions := m.regions.push s } { m' with regions := m'.regions.push s } :=
  { h with regions := h.regions.push s }

theorem Sane.push (h : Sane config m) {s : Category} (hs : conduct.crosses s = true) :
    Sane config { m with regions := m.regions.push s } := by
  refine ⟨h.full.push s, h.cap, fun a ha => ?_⟩
  simp only [ReturnStack.push] at ha
  split_ifs at ha
  · rcases List.mem_cons.1 ha with rfl | ha
    · exact hs
    · exact h.held a ha
  · exact h.held a ha

theorem Sane.pop (h : Sane config m) {s : Category} {regions : ReturnStack Category}
    (hp : m.regions.pop? = some (s, regions)) :
    conduct.crosses s = true ∧ Sane config { m with regions := regions } := by
  obtain ⟨hs, hrest⟩ := ReturnStack.mem_of_pop hp
  exact ⟨h.held s hs, h.full.pop hp, (ReturnStack.cap_pop hp).trans h.cap,
    fun a ha => h.held a (hrest a ha)⟩

end Twins

end Highlight.Scala
