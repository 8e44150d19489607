import Highlight.Fold.Document

/-!
Categories under other names. Folding asks of a category only whether it is quiet and whether it
is a bracket, so a text folds the same if its categories are renamed, even if several get the same
name, as long as the new ones are quiet and brackets where the old ones are.
-/

namespace Highlight

open Byte

variable {σ τ : Type} [Palette σ] [Palette τ] {f : σ → τ}

/-- The function gives names to categories, and what is plain, quiet or a bracket stays so.
Different categories may get the same name. -/
structure Palette.Renames (f : σ → τ) : Prop where
  plain_iff : ∀ s, f s = plain ↔ s = plain
  isQuiet : ∀ s, isQuiet (f s) = isQuiet s
  isBracket : ∀ s, isBracket (f s) = isBracket s

open Palette (Renames)

omit [Palette τ] in
theorem Palette.Renames.id : Renames (id : σ → σ) := ⟨fun _ => .rfl, fun _ => rfl, fun _ => rfl⟩

theorem Palette.Renames.plain (hf : Renames f) : f Palette.plain = Palette.plain :=
  (hf.plain_iff _).2 rfl

theorem Palette.Renames.counts (hf : Renames f) (b : Byte) (s : σ) :
    Trail.counts b (f s) = Trail.counts b s := by
  rw [Trail.counts, Trail.counts, hf.isQuiet]

theorem Styles.categoryAt_map (hf : Renames f) (a : Styles σ) (i : Nat) :
    categoryAt (a.map f) i = f (a.categoryAt i) := by
  simp only [categoryAt, Array.getD_eq_getD_getElem?, Array.getElem?_map]
  cases a[i]? with
  | none => exact hf.plain.symm
  | some s => rfl

theorem Styles.styled_map (hf : Renames f) (text : Text) (a : Styles σ) :
    styled text (a.map f) = (styled text a).map (Prod.map id f) := by
  refine List.ext_getElem (by simp [styled]) fun i h₁ h₂ => ?_
  simp [styled, categoryAt_map hf]

namespace FoldText

omit [Palette σ] [Palette τ]

/-- The document with its categories renamed. -/
def map (f : σ → τ) (d : FoldText σ) : FoldText τ where
  lines := d.lines.map (List.map (Prod.map id f))
  store := d.store

theorem splitLines_map (f : σ → τ) (l : List (Byte × σ)) :
    splitLines (l.map (Prod.map id f)) = (splitLines l).map (List.map (Prod.map id f)) := by
  induction l with
  | nil => rfl
  | cons p l ih =>
    unfold splitLines at ih ⊢
    rw [List.map_cons, List.foldr_cons, List.foldr_cons, ih]
    by_cases hp : p.1 = newline
    · simp [hp]
    · cases List.foldr _ _ l <;> simp [hp]

theorem line_map (f : σ → τ) (d : FoldText σ) (i : Nat) :
    (d.map f).line i = (d.line i).map (Prod.map id f) := by
  simp only [line, map, Array.getD_eq_getD_getElem?, Array.getElem?_map]
  cases d.lines[i]? <;> rfl

theorem unindented_map (f : σ → τ) (d : FoldText σ) (i : Nat) :
    (d.map f).unindented i = (d.unindented i).map (Prod.map id f) := by
  rw [unindented, unindented, line_map, List.dropWhile_map]
  rfl

variable [Palette σ] [Palette τ] (hf : Renames f)
include hf

theorem balance_map (l : List (Byte × σ)) : balance (l.map (Prod.map id f)) = balance l := by
  have hweight : ∀ p : Byte × σ, weight (Prod.map id f p) = weight p := by
    intro p
    simp only [weight, Prod.map_snd, Prod.map_fst, hf.isBracket]
    rfl
  induction l with
  | nil => rfl
  | cons p l ih =>
    change weight (Prod.map id f p) + balance (l.map (Prod.map id f)) = weight p + balance l
    rw [hweight, ih]

theorem credited_map (d : FoldText σ) (i : Nat) : (d.map f).credited i = d.credited i := by
  have hopens : (d.map f).opensWithBrace (i + 1) = d.opensWithBrace (i + 1) := by
    rw [opensWithBrace, opensWithBrace, unindented_map]
    cases d.unindented (i + 1) with
    | nil => rfl
    | cons p l => simp [hf.isBracket]
  have hhead : (d.map f).isHead i = d.isHead i := by
    have hcounts : (fun p : Byte × τ => Trail.counts p.1 p.2) ∘ Prod.map id f =
        fun p => Trail.counts p.1 p.2 := funext fun p => hf.counts p.1 p.2
    rw [isHead, isHead, line_map, ← List.map_reverse, List.find?_map, hcounts]
    cases (d.line i).reverse.find? _ <;> rfl
  rw [credited, credited, hopens, hhead]
  rfl

theorem skipsBrace_map (d : FoldText σ) (i : Nat) : (d.map f).skipsBrace i = d.skipsBrace i := by
  cases i with
  | zero => rfl
  | succ i => exact credited_map hf d i

theorem levelAfter_map (d : FoldText σ) (i level : Nat) :
    (d.map f).levelAfter i level = d.levelAfter i level := by
  have hcounted : balance ((d.map f).counted i) = balance (d.counted i) := by
    rw [counted, counted, skipsBrace_map hf]
    split
    · rw [unindented_map, ← List.map_tail, balance_map hf]
    · rw [line_map, balance_map hf]
  unfold levelAfter adjustment
  rw [hcounted, credited_map hf]
  rfl

theorem levelsFrom_map (d : FoldText σ) (n i level : Nat) :
    (d.map f).levelsFrom n i level = d.levelsFrom n i level := by
  induction n generalizing i level with
  | zero => rfl
  | succ n ih =>
    unfold levelsFrom
    rw [levelAfter_map hf, ih]
    rfl

end FoldText

/-- **A text folds the same under other names.** -/
theorem foldLevels_map (hf : Renames f) (mode : FoldMode) (text : Text) (styles : Styles σ)
    (store : LineStore) :
    foldLevels mode text (styles.map f) store = foldLevels mode text styles store := by
  unfold foldLevels
  cases mode with
  | brackets =>
    have hof : FoldText.of text (styles.map f) store = (FoldText.of text styles store).map f := by
      simp only [FoldText.of, FoldText.map, Styles.styled_map hf, FoldText.splitLines_map,
        List.map_toArray]
    have hsize : ((FoldText.of text styles store).map f).lines.size =
        (FoldText.of text styles store).lines.size := by simp [FoldText.map]
    simp only [hof, FoldText.bracketLevels, hsize, FoldText.levelsFrom_map hf]
  | indentation => rfl
  | outline => rfl

end Highlight
