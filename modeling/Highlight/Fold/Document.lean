import Highlight.Fold.Bracket
import Highlight.Fold.Indentation
import Highlight.Fold.Outline
import Highlight.Line.Table

/-!
The fold levels of a whole document.
-/

namespace Highlight

/-- The fold levels of every line of a text. -/
def foldLevels {σ : Type} [Palette σ] (mode : FoldMode) (text : Text) (styles : Styles σ)
    (store : LineStore) : List FoldLevel :=
  let count := (LineTable.ofText text).count
  match mode with
  | .brackets => (FoldText.of text styles store).bracketLevels 0 count 0
  | .indentation => Indentation.levels store count
  | .outline => Outline.levels store count

end Highlight
