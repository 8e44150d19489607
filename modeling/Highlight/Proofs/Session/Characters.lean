import Highlight.Proofs.Language.ScalaCareful
import Highlight.Proofs.Language.ScalaEnds
import Highlight.Proofs.Language.TomlCareful
import Highlight.Proofs.Language.TomlEnds
import Highlight.Proofs.Language.ToyCareful
import Highlight.Proofs.Language.ToyEnds
import Highlight.Proofs.Language.ZigCareful
import Highlight.Proofs.Language.ZigEnds
import Highlight.Proofs.Scan.Parted
import Highlight.Proofs.Session.Restyle

/-!
Where a string may be cut by the runs of its text. A run that ends within a character is of an
escape whose one byte behind the backslash begins a longer character, and the run behind it begins
there; all other runs begin and end where characters do (`Session.CutsOnlyEscapes`).
-/

namespace Highlight

open Byte

variable {σ ζ : Type}

/-! ### The ends of runs -/

/-- A run that breaks a character ends behind its first byte. -/
theorem Run.Breaks.not_between {escape : σ → Prop} {text : String} {r : Run σ}
    (h : r.Breaks escape (Text.ofString text)) : ¬(Text.ofString text).Between r.stop := by
  obtain ⟨b, hb, hascii⟩ := h.first
  have hlen : 2 ≤ r.stop := Nat.le_trans h.len (Nat.le_add_left _ _)
  have hback := h.backslash
  obtain ⟨n, hn⟩ := Nat.exists_eq_add_of_le' hlen
  rw [hn] at hb hback ⊢
  -- behind the backslash a character begins
  have hbetween : (Text.ofString text).Between (n + 1) :=
    (Text.between_succ_iff text hback (first_of_ascii (by decide))).2 (by decide)
  exact fun hstop => hascii ((Text.between_succ_iff text hb (hbetween b hb)).1 hstop)

/-- A run that ends well ends where the string may be cut, or breaks a character. -/
theorem Run.EndsWell.isValid_stop_iff {escape : σ → Prop} {text : String} {r : Run σ}
    (h : r.EndsWell escape (Text.ofString text)) (hle : r.stop ≤ (Text.ofString text).length) :
    String.Pos.Raw.IsValid text ⟨r.stop⟩ ↔ ¬r.Breaks escape (Text.ofString text) := by
  rw [Text.isValid_iff]
  constructor
  · rintro ⟨-, hbetween⟩ hbreaks
    exact hbreaks.not_between hbetween
  · intro hbreaks
    exact ⟨hle, h.resolve_right hbreaks⟩

variable [Palette σ] [DecidableEq σ] {g : Grammar σ ζ} {k : Care σ ζ} {r : Regime σ ζ}
  {rank : σ → Nat} {holds : ζ → Prop}

/-- The runs of a whole text lie end to end over it. -/
theorem Pass.tiles_fresh (hg : g.Keeps r) (text : Text) :
    Run.Tiles 0 (fresh g text).cursor.runs text.length := by
  have htiles := Run.tiles_encode 0 (fresh g text).cursor.passed
  rw [fresh_length hg, Nat.zero_add] at htiles
  rwa [Cursor.runs, fresh_start hg]

namespace Session

/-- A run ends where the string may be cut, unless it breaks a character; and it begins there,
unless the run before it breaks one. -/
def CutsOnlyEscapes (escape : σ → Prop) (g : Grammar σ ζ) : Prop :=
  ∀ (s : Session σ) (text : String), ∃ found,
    (s.highlight g (Text.ofString text)).2 = .ok found ∧ ∀ r ∈ found.runs,
      (String.Pos.Raw.IsValid text ⟨r.stop⟩ ↔ ¬r.Breaks escape (Text.ofString text)) ∧
      (String.Pos.Raw.IsValid text ⟨r.start⟩ ↔
        ∀ r' ∈ found.runs, r'.stop = r.start → ¬r'.Breaks escape (Text.ofString text))

theorem cutsOnlyEscapes_of_careful (hg : g.Careful k) (hk : g.Keeps r) (hs : g.Settles rank holds)
    (hm : g.StaysInLine) : CutsOnlyEscapes k.escape g := by
  intro s text
  have htiles := Pass.tiles_fresh hk (Text.ofString text)
  have hends : ∀ r ∈ (Pass.fresh g (Text.ofString text)).cursor.runs,
      (String.Pos.Raw.IsValid text ⟨r.stop⟩ ↔ ¬r.Breaks k.escape (Text.ofString text)) :=
    fun r hr => Run.EndsWell.isValid_stop_iff
      (Pass.endsWell_fresh hg hs hm (Cursor.spelled_outset text)
        (Cursor.atCharacter_outset text) r hr)
      (htiles.mem hr).2.2
  refine ⟨_, congrArg Prod.snd (highlight_eq hk s _), fun r hr => ⟨hends r hr, ?_⟩⟩
  rcases htiles.exists_before hr with hstart | ⟨r', hr', hstop⟩
  · -- the first run begins with the text, and no run ends there
    refine iff_of_true ?_ fun r' hr' hstop => ?_
    · rw [hstart, Text.isValid_iff]
      exact ⟨Nat.zero_le _, Text.between_zero text⟩
    · have hlen := (htiles.mem hr').2.1
      simp only [Run.stop] at hstop
      omega
  · rw [← hstop]
    constructor
    · intro hvalid r'' hr'' hsame
      exact (hends r'' hr'').1 (hsame ▸ hvalid)
    · intro hnone
      exact (hends r' hr').2 (hnone r' hr' rfl)

end Session

/-- **Only escapes are cut within a character.** In every language the runs of a string begin and
end where it may be cut, but for a run that ends behind a backslash and the first byte of a
character outside ASCII, which is of an escape, and for the run behind it. In the toy language there
is none. -/
theorem cuts_only_escapes (zig : Zig.Config) (words : WordSets) (scala : Scala.Config) :
    Session.CutsOnlyEscapes (fun _ => False) Toy.grammar ∧
      Session.CutsOnlyEscapes (· = .escape) (Zig.grammar zig) ∧
      Session.CutsOnlyEscapes (· = .escape) (Toml.grammar words) ∧
      Session.CutsOnlyEscapes (· = .escape) (Scala.grammar scala) :=
  ⟨Session.cutsOnlyEscapes_of_careful Toy.careful Toy.keeps Toy.settles Toy.staysInLine,
    Session.cutsOnlyEscapes_of_careful (Zig.careful zig) (Zig.keeps zig) (Zig.settles zig)
      (Zig.staysInLine zig),
    Session.cutsOnlyEscapes_of_careful (Toml.careful words) (Toml.keeps words)
      (Toml.settles words) (Toml.staysInLine words),
    Session.cutsOnlyEscapes_of_careful (Scala.careful scala) (Scala.keeps scala)
      (Scala.settles scala) (Scala.staysInLine scala)⟩

/-- An escaped letter outside ASCII: its first byte is of the escape, its second of the string. -/
theorem cuts_only_escapes_letter :
    let text := "\"\\é\""
    let g := Zig.grammar { words := {} }
    let found := (Session.highlight g {} (Text.ofString text)).2.toOption
    found.map (·.runs) = some [⟨0, 1, .string⟩, ⟨1, 2, .escape⟩, ⟨3, 2, .string⟩] ∧
      ¬String.Pos.Raw.IsValid text ⟨3⟩ := by
  intro text g found
  have hruns : found.map (·.runs) =
      some [⟨0, 1, .string⟩, ⟨1, 2, .escape⟩, ⟨3, 2, .string⟩] := by
    decide +kernel
  refine ⟨hruns, fun hvalid => ?_⟩
  obtain ⟨-, hzig, -⟩ := cuts_only_escapes { words := {} } {} { words := {} }
  obtain ⟨outcome, houtcome, hcuts⟩ := hzig {} text
  have hfound : found = some outcome := by
    simp only [found, g, houtcome]
    rfl
  have hmem : (⟨1, 2, .escape⟩ : Run Zig.Category) ∈ outcome.runs := by
    rw [hfound] at hruns
    have hlist : outcome.runs = _ := Option.some.inj hruns
    rw [hlist]
    exact List.mem_cons_of_mem _ List.mem_cons_self
  refine (hcuts _ hmem).1.1 hvalid ⟨rfl, Nat.le_refl 2, ?_, 0xc3, ?_, ?_⟩
  · decide +kernel
  · decide +kernel
  · decide

end Highlight
