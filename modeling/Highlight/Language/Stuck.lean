import Highlight.Language.Toy

/-!
A language whose rules ask to look again at every place, forever. It shows that a scan goes on all
the same.
-/

namespace Highlight.Stuck

/-- The language that never lets go of a place. -/
def grammar : Grammar Toy.Category Unit where
  begin c _ := (c, ())
  leave c z := .again c z
  enter c z := .again c z
  endLine _ z := ({}, z)

end Highlight.Stuck
