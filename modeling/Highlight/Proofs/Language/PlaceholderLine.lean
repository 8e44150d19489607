import Highlight.Proofs.Language.Placeholder
import Highlight.Proofs.Scan.LineEnd

/-!
A placeholder is read from its line, however that line ends. All that is read of a text is which of
its bytes a placeholder may go over (`Same`), and the ends of lines are none of them.
-/

namespace Highlight.Placeholder

open Byte

variable {closer : Option Byte} {t t' : Text}

/-- Of the two texts a placeholder sees the same. -/
def Same (closer : Option Byte) (t t' : Text) : Prop :=
  ∀ n, byteAt closer t n = byteAt closer t' n

namespace Same

theorem drop (h : Same closer t t') (i : Nat) : Same closer (t.drop i) (t'.drop i) := fun n => by
  rw [byteAt_drop, byteAt_drop, h]

/-- A byte that a placeholder goes over is of a kind if it is there. -/
theorem kind_byteAt_cons {kind : Byte → Bool} (hk : kind 0 = false) (closer : Option Byte)
    (b : Byte) (t : Text) :
    kind (byteAt closer (b :: t) 0) = (kind b && !stops closer b) := by
  simp only [byteAt, List.getD_cons_zero]
  cases stops closer b <;> simp [hk]

theorem lengthOf_eq {kind : Byte → Bool} (hk : kind 0 = false) (h : Same closer t t') :
    lengthOf closer kind t = lengthOf closer kind t' := by
  have hnil : ∀ {u : Text}, Same closer [] u → lengthOf closer kind u = 0 := by
    intro u hu
    cases u with
    | nil => rfl
    | cons b u =>
      have hb := kind_byteAt_cons hk closer b u
      rw [← hu 0, show byteAt closer [] 0 = 0 by simp [byteAt], hk] at hb
      rw [lengthOf, List.takeWhile_cons, ← hb]
      rfl
  induction t generalizing t' with
  | nil => exact (hnil h).symm
  | cons b t ih =>
    cases t' with
    | nil => exact hnil fun n => (h n).symm
    | cons b' t' =>
      have hb := kind_byteAt_cons hk closer b t
      rw [h 0, kind_byteAt_cons hk closer b' t'] at hb
      have htail : lengthOf closer kind t = lengthOf closer kind t' := ih (h.drop 1)
      unfold lengthOf at htail ⊢
      rw [List.takeWhile_cons, List.takeWhile_cons, hb]
      split
      · rw [List.length_cons, List.length_cons, htail]
      · rfl

theorem argumentLength?_eq (h : Same closer t t') :
    argumentLength? closer t = argumentLength? closer t' := by
  have hname := lengthOf_eq (show isNameByte 0 = false from rfl) (h.drop 1)
  have hdigit := lengthOf_eq (show isDigit 0 = false from rfl) h
  simp only [argumentLength?, h _, hname, hdigit]

theorem specifierLength_eq (h : Same closer t t') :
    specifierLength closer t = specifierLength closer t' := by
  simp only [specifierLength, h _]

theorem fillLength_eq (h : Same closer t t') : fillLength closer t = fillLength closer t' := by
  have hmore := lengthOf_eq (show isContinuation 0 = false from rfl) (h.drop 1)
  simp only [fillLength, h _, hmore]

theorem alignmentLength_eq (h : Same closer t t') :
    alignmentLength closer t = alignmentLength closer t' := by
  simp only [alignmentLength, h _, h.fillLength_eq]

theorem precisionLength_eq (h : Same closer t t') :
    precisionLength closer t = precisionLength closer t' := by
  have hdigit := lengthOf_eq (show isDigit 0 = false from rfl) (h.drop 1)
  simp only [precisionLength, h _, hdigit]

theorem optionsLength_eq (h : Same closer t t') :
    optionsLength closer t = optionsLength closer t' := by
  have halign := (h.drop 1).alignmentLength_eq
  have hwidth := fun i => lengthOf_eq (show isDigit 0 = false from rfl) (h.drop i)
  have hprecision := fun i => (h.drop i).precisionLength_eq
  simp only [optionsLength, h _, halign, hwidth, hprecision]

/-- Two texts that begin alike, and of which a placeholder sees the same, have the same one. -/
theorem read_eq {b : Byte} (h : Same closer t t') :
    read closer (b :: t) = read closer (b :: t') := by
  have hspec := fun i => (h.drop i).specifierLength_eq
  have hoptions := fun i => (h.drop i).optionsLength_eq
  have hbyte := fun i => h.drop i
  simp only [read, h.argumentLength?_eq, hspec, hoptions, (hbyte _ _)]

end Same

/-! ### The end of the line -/

/-- The text with newlines for carriage returns, and one at the end. -/
def endedByNewlines (t : Text) : Text :=
  t.map (fun b => if b = carriageReturn then newline else b) ++ [newline]

theorem same_endedByNewlines (t : Text) : Same closer t (endedByNewlines t) := by
  intro n
  unfold byteAt endedByNewlines
  rw [List.getD_eq_getElem?_getD, List.getD_eq_getElem?_getD]
  rcases Nat.lt_trichotomy n t.length with hn | rfl | hn
  · rw [List.getElem?_append_left (by simpa using hn), List.getElem?_map,
      List.getElem?_eq_getElem hn]
    generalize t[n] = b
    by_cases hb : b = carriageReturn
    · simp [hb, stops, isLineEnd]
    · simp [hb]
  · simp [stops_newline]
  · rw [List.getElem?_eq_none (by omega), List.getElem?_eq_none (by simp; omega)]

theorem endedByNewlines_eq (t : Text) : ∃ u, endedByNewlines t = Text.lineOnly t ++ u := by
  induction t with
  | nil => exact ⟨[], rfl⟩
  | cons b t ih =>
    by_cases hb : isLineEnd b = true
    · refine ⟨endedByNewlines t, ?_⟩
      have hend : Text.AtEnd (b :: t) := by
        intro a ha
        obtain rfl := Option.some.inj ha
        exact hb
      rw [Text.lineOnly_of_atEnd hend]
      rcases eq_of_isLineEnd hb with rfl | rfl <;> rfl
    · obtain ⟨u, hu⟩ := ih
      have hne : b ≠ carriageReturn := by
        rintro rfl
        exact hb rfl
      refine ⟨u, ?_⟩
      rw [Text.lineOnly_cons t (by simpa using hb), List.cons_append, ← hu]
      simp [endedByNewlines, hne]

/-- **A placeholder is read from its line,** and lies within it. -/
theorem read_lineOnly (closer : Option Byte) (t : Text) :
    read closer (Text.lineOnly t) = read closer t ∧
      ∀ p, read closer t = some p → p.length ≤ (Text.line t).length := by
  rcases Text.atEnd_cases t with hend | ⟨b, t, rfl, hb⟩
  · have hnone : ∀ {u : Text}, Text.AtEnd u → read closer u = none := by
      intro u hu
      cases u with
      | nil => rfl
      | cons b u =>
        rw [read, if_neg]
        rintro rfl
        exact absurd (hu lbrace rfl) (by decide)
    rw [hnone hend, Text.lineOnly_of_atEnd hend]
    exact ⟨rfl, nofun⟩
  · obtain ⟨u, hu⟩ := endedByNewlines_eq (b :: t)
    have hne : b ≠ carriageReturn := by
      rintro rfl
      cases hb
    have hsame : read closer (b :: t) = read closer (endedByNewlines (b :: t)) := by
      rw [(same_endedByNewlines t).read_eq]
      simp [endedByNewlines, hne]
    have hagree : Text.Agree u [] (endedByNewlines (b :: t)) (Text.lineOnly (b :: t)) :=
      ⟨Text.lineOnly (b :: t), hu, (List.append_nil _).symm, .inl (by simp [Text.lineOnly])⟩
    obtain ⟨hlocal, hclear⟩ := read_local closer hagree
    refine ⟨by rw [hsame, hlocal], fun p hp => ?_⟩
    obtain ⟨hlength, -⟩ := hclear p (hsame ▸ hp)
    refine Nat.le_of_not_lt fun hlt => ?_
    -- the newline that ends the line is not passed
    refine hlength newline ?_ rfl
    rw [hu, Text.lineOnly, List.append_assoc, List.take_append]
    have hpos : 0 < p.length - (Text.line (b :: t)).length := by omega
    obtain ⟨n, hn⟩ := Nat.exists_eq_succ_of_ne_zero (Nat.ne_of_gt hpos)
    rw [hn]
    simp

end Highlight.Placeholder
