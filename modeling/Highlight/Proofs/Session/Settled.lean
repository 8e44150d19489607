import Highlight.Language.Stuck
import Highlight.Proofs.Language.ScalaEnds
import Highlight.Proofs.Language.TomlEnds
import Highlight.Proofs.Language.ToyEnds
import Highlight.Proofs.Language.ZigEnds

/-!
No scan is forced on. Whatever part of a text is scanned, and whatever was known before, the rules
of every language let go of each place before the limit on rescans takes effect. It takes effect
only in the language that never lets go (`Stuck.forced`).
-/

namespace Highlight

open Byte

variable {σ ζ : Type} [Palette σ] [DecidableEq σ]

/-- No scan of any part of any text is forced on, in whatever state it begins and whatever is kept
of earlier scans. -/
def Grammar.NeverForced (g : Grammar σ ζ) : Prop :=
  ∀ (text : Text) (start len : Nat) (s : σ) (store : LineStore) (styles : Styles σ),
    (Pass.outset g text start len s store styles).LetsGo g

theorem Grammar.Settles.neverForced {g : Grammar σ ζ} {rank : σ → Nat} {holds : ζ → Prop}
    (hg : g.Settles rank holds) (hm : g.StaysInLine) : g.NeverForced :=
  fun _ _ _ _ _ _ => Pass.letsGo_of_settles hg hm (hg.begin _ _) rfl

/-- **The limit on rescans never takes effect.** In every language the rules ask to look again at
one place at most `maxRescans` times, the pass goes on only after they have let go, and at the end
of a text the last run is left in time. -/
theorem never_forced (zig : Zig.Config) (words : WordSets) (scala : Scala.Config) :
    Toy.grammar.NeverForced ∧ (Zig.grammar zig).NeverForced ∧ (Toml.grammar words).NeverForced ∧
      (Scala.grammar scala).NeverForced :=
  ⟨Toy.settles.neverForced Toy.staysInLine, (Zig.settles zig).neverForced (Zig.staysInLine zig),
    (Toml.settles words).neverForced (Toml.staysInLine words),
    (Scala.settles scala).neverForced (Scala.staysInLine scala)⟩

/-- The language that never lets go is forced on at its first byte. -/
theorem Stuck.forced : ¬Stuck.grammar.NeverForced := by
  intro h
  have hfew := (h [quote] 0 1 .plain #[] #[]).few 17 0
  exact absurd hfew (by decide)

end Highlight
