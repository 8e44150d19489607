/-!
The display categories of a language. One type serves as the categories given to bytes and as the
states of the scan: the category of the run in progress is the state the scan is in.
-/

namespace Highlight

/-- What every language says of its categories. In the plain category a scan looks for the
beginning of the next construct; quiet categories (plain text and comments) are passed over when a
scan asks what stood before; bracket categories hold the brackets that fold. -/
class Palette (σ : Type) where
  plain : σ
  isQuiet : σ → Bool
  isBracket : σ → Bool
  quiet_plain : isQuiet plain = true
  not_bracket_plain : isBracket plain = false

attribute [simp] Palette.quiet_plain Palette.not_bracket_plain

end Highlight
