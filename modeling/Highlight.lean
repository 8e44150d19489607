import Highlight.Byte
import Highlight.Fold.Bracket
import Highlight.Fold.Document
import Highlight.Fold.Indentation
import Highlight.Fold.Level
import Highlight.Fold.Outline
import Highlight.Fold.Starts
import Highlight.Language.Placeholder
import Highlight.Language.Scala
import Highlight.Language.ScalaCategory
import Highlight.Language.ScalaComment
import Highlight.Language.ScalaLiteral
import Highlight.Language.ScalaMarkup
import Highlight.Language.ScalaMemory
import Highlight.Language.ScalaName
import Highlight.Language.ScalaWords
import Highlight.Language.Stuck
import Highlight.Language.Toml
import Highlight.Language.TomlCategory
import Highlight.Language.TomlKey
import Highlight.Language.TomlMemory
import Highlight.Language.TomlValue
import Highlight.Language.Toy
import Highlight.Language.Zig
import Highlight.Language.ZigCategory
import Highlight.Language.ZigLiteral
import Highlight.Language.ZigMemory
import Highlight.Language.ZigWords
import Highlight.Line.State
import Highlight.Line.Store
import Highlight.Line.Table
import Highlight.Palette
import Highlight.Proofs.Announced
import Highlight.Proofs.Characters
import Highlight.Proofs.Fold.Blocks
import Highlight.Proofs.Fold.Carried
import Highlight.Proofs.Fold.Comments
import Highlight.Proofs.Fold.Credited
import Highlight.Proofs.Fold.Levels
import Highlight.Proofs.Fold.Lines
import Highlight.Proofs.Fold.Renamed
import Highlight.Proofs.Fold.Returns
import Highlight.Proofs.Fold.Sections
import Highlight.Proofs.Fold.Split
import Highlight.Proofs.Language.Escapes
import Highlight.Proofs.Language.Placeholder
import Highlight.Proofs.Language.PlaceholderForm
import Highlight.Proofs.Language.PlaceholderLine
import Highlight.Proofs.Language.PlaceholderRead
import Highlight.Proofs.Language.PlaceholderTame
import Highlight.Proofs.Language.Scala
import Highlight.Proofs.Language.ScalaCareful
import Highlight.Proofs.Language.ScalaComments
import Highlight.Proofs.Language.ScalaElements
import Highlight.Proofs.Language.ScalaEnds
import Highlight.Proofs.Language.ScalaFolds
import Highlight.Proofs.Language.ScalaLineEnds
import Highlight.Proofs.Language.ScalaMarkupPlaces
import Highlight.Proofs.Language.ScalaMoves
import Highlight.Proofs.Language.ScalaNesting
import Highlight.Proofs.Language.ScalaPlaces
import Highlight.Proofs.Language.ScalaReferences
import Highlight.Proofs.Language.ScalaRegime
import Highlight.Proofs.Language.ScalaRoom
import Highlight.Proofs.Language.ScalaRules
import Highlight.Proofs.Language.ScalaTriggers
import Highlight.Proofs.Language.ScalaWords
import Highlight.Proofs.Language.Toml
import Highlight.Proofs.Language.TomlBrackets
import Highlight.Proofs.Language.TomlCareful
import Highlight.Proofs.Language.TomlEnds
import Highlight.Proofs.Language.TomlHeadings
import Highlight.Proofs.Language.TomlHeads
import Highlight.Proofs.Language.TomlMoves
import Highlight.Proofs.Language.Toy
import Highlight.Proofs.Language.ToyCareful
import Highlight.Proofs.Language.ToyEnds
import Highlight.Proofs.Language.TripleStrings
import Highlight.Proofs.Language.Zig
import Highlight.Proofs.Language.ZigCareful
import Highlight.Proofs.Language.ZigEnds
import Highlight.Proofs.Language.ZigFolds
import Highlight.Proofs.Language.ZigLevel
import Highlight.Proofs.Language.ZigLines
import Highlight.Proofs.Language.ZigLiterals
import Highlight.Proofs.Language.ZigMoves
import Highlight.Proofs.Language.ZigNames
import Highlight.Proofs.Language.ZigPassed
import Highlight.Proofs.Language.ZigPlaceholders
import Highlight.Proofs.Line.State
import Highlight.Proofs.Line.Store
import Highlight.Proofs.Line.Table
import Highlight.Proofs.Run
import Highlight.Proofs.Scan.Agree
import Highlight.Proofs.Scan.Asked
import Highlight.Proofs.Scan.Careful
import Highlight.Proofs.Scan.Ending
import Highlight.Proofs.Scan.Escape
import Highlight.Proofs.Scan.Fresh
import Highlight.Proofs.Scan.Hidden
import Highlight.Proofs.Scan.InLine
import Highlight.Proofs.Scan.Kin
import Highlight.Proofs.Scan.Level
import Highlight.Proofs.Scan.LineAhead
import Highlight.Proofs.Scan.LineEnd
import Highlight.Proofs.Scan.LineStart
import Highlight.Proofs.Scan.Lockstep
import Highlight.Proofs.Scan.Moves
import Highlight.Proofs.Scan.Orderly
import Highlight.Proofs.Scan.Part
import Highlight.Proofs.Scan.Parted
import Highlight.Proofs.Scan.Progress
import Highlight.Proofs.Scan.Renamed
import Highlight.Proofs.Scan.Room
import Highlight.Proofs.Scan.Runs
import Highlight.Proofs.Scan.Settling
import Highlight.Proofs.Scan.Sound
import Highlight.Proofs.Scan.Through
import Highlight.Proofs.Scan.Unbounded
import Highlight.Proofs.Scan.Visits
import Highlight.Proofs.Scan.Within
import Highlight.Proofs.Session.Causal
import Highlight.Proofs.Session.Characters
import Highlight.Proofs.Session.Committed
import Highlight.Proofs.Session.Edited
import Highlight.Proofs.Session.Exact
import Highlight.Proofs.Session.Forgets
import Highlight.Proofs.Session.HandsOn
import Highlight.Proofs.Session.Indented
import Highlight.Proofs.Session.LastLine
import Highlight.Proofs.Session.LetGo
import Highlight.Proofs.Session.Lines
import Highlight.Proofs.Session.ReadBack
import Highlight.Proofs.Session.Reached
import Highlight.Proofs.Session.Renamed
import Highlight.Proofs.Session.Requests
import Highlight.Proofs.Session.Restyle
import Highlight.Proofs.Session.Restyled
import Highlight.Proofs.Session.Resumed
import Highlight.Proofs.Session.Returns
import Highlight.Proofs.Session.Settled
import Highlight.Proofs.Session.Summed
import Highlight.Proofs.Session.Tiled
import Highlight.Proofs.Styles
import Highlight.Resume
import Highlight.Run
import Highlight.Scan.Cursor
import Highlight.Scan.Escape
import Highlight.Scan.Grammar
import Highlight.Scan.Outcome
import Highlight.Scan.Pass
import Highlight.Scan.ReturnStack
import Highlight.Scan.Trail
import Highlight.Session
import Highlight.Styles
import Highlight.Word.Class
import Highlight.Word.Set
