import Highlight.Byte

/-!
Sets of words. A set is written as a text of words with white space between them, where white space
is a space, a tab, a newline, a form feed or a carriage return.
-/

namespace Highlight

/-- A set of words; order and repetition do not matter. -/
structure WordSet where
  words : List Text := []
  deriving Repr

namespace WordSet

/-- A byte that stands between words. -/
def separates (b : Byte) : Bool := Byte.isBlank b || Byte.isLineEnd b || b == Byte.formFeed

/-- The words of a text. -/
def split (t : Text) : List Text :=
  (t.foldr
    (fun b ws =>
      if separates b then [] :: ws
      else match ws with
        | [] => [[b]]
        | w :: ws => (b :: w) :: ws)
    [[]]).filter (!·.isEmpty)

/-- The set of the words of a text. -/
def ofText (t : Text) : WordSet := ⟨split t⟩

/-- The set of the words of a string. -/
def ofString (s : String) : WordSet := ofText (Text.ofString s)

/-- A word is in the set. -/
def contains (s : WordSet) (w : Text) : Bool := s.words.contains w

/-- Two sets have the same words. -/
def sameWords (s t : WordSet) : Bool := s.words.all t.contains && t.words.all s.contains

theorem sameWords_iff (s t : WordSet) :
    s.sameWords t = true ↔ ∀ w, s.contains w = t.contains w := by
  simp only [sameWords, contains, Bool.and_eq_true, List.all_eq_true, List.contains_iff_mem]
  constructor
  · rintro ⟨h₁, h₂⟩ w
    rw [Bool.eq_iff_iff]
    simpa using ⟨h₁ w, h₂ w⟩
  · intro h
    constructor
    · intro w hw
      simpa [hw] using h w
    · intro w hw
      simpa [hw] using h w

end WordSet

/-- The words of a language that are known by themselves. -/
structure WordSets where
  keywords : WordSet := {}
  classes : WordSet := {}
  traits : WordSet := {}
  types : WordSet := {}
  deriving Repr

end Highlight
