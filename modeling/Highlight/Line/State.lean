/-!
What a scan keeps of a finished line, and its form as one 32-bit word: the flags in the lowest
eight bits, the depth in the next eight and the indent in the upper sixteen. The next scan takes
from the line before it how deep its comments are nested, a restart asks whether the line ended
inside a nested region, and folding reads the rest.
-/

namespace Highlight

/-- The flags of a line. The two highest bits of their byte have no meaning; they are kept until
the word is read back. -/
structure LineFlags where
  /-- Nothing visible, and nothing carried over from the line before. -/
  blank : Bool := false
  /-- A line comment, or a line inside a block comment. -/
  comment : Bool := false
  /-- Part of a string over several lines. -/
  string : Bool := false
  /-- The line ends inside a nested region, so the next line cannot be scanned on its own. -/
  nested : Bool := false
  /-- The first visible byte closes a block. -/
  closer : Bool := false
  /-- The heading of a section, whose level stands in place of the depth. -/
  heading : Bool := false
  spareLow : Bool := false
  spareHigh : Bool := false
  deriving DecidableEq, Repr, Inhabited

namespace LineFlags

/-- No flag at all. -/
def none : LineFlags := {}

/-- The byte of the flags, `blank` lowest. -/
def toByte (f : LineFlags) : UInt8 :=
  UInt8.ofNat (f.blank.toNat + 2 * f.comment.toNat + 4 * f.string.toNat + 8 * f.nested.toNat +
    16 * f.closer.toNat + 32 * f.heading.toNat + 64 * f.spareLow.toNat + 128 * f.spareHigh.toNat)

/-- The flags of a byte, every bit kept. -/
def ofByte (b : UInt8) : LineFlags where
  blank := b.toNat.testBit 0
  comment := b.toNat.testBit 1
  string := b.toNat.testBit 2
  nested := b.toNat.testBit 3
  closer := b.toNat.testBit 4
  heading := b.toNat.testBit 5
  spareLow := b.toNat.testBit 6
  spareHigh := b.toNat.testBit 7

/-- The flags without the bits that have no meaning. -/
def known (f : LineFlags) : LineFlags := { f with spareLow := false, spareHigh := false }

end LineFlags

/-- What is kept of a line. -/
structure LineState where
  flags : LineFlags := {}
  /-- How deep block comments are nested at the end of the line, or the level of a heading. -/
  depth : UInt8 := 0
  /-- The number of spaces and tabs before the first visible byte. -/
  indent : UInt16 := 0
  deriving DecidableEq, Repr, Inhabited

namespace LineState

/-- The greatest depth that a line state holds. -/
def maxDepth : Nat := 255

/-- The greatest indent that a line state holds. -/
def maxIndent : Nat := 65535

/-- The state with the given flags, the depth and the indent cut to the greatest that it holds. -/
def of (flags : LineFlags) (depth indent : Nat) : LineState where
  flags := flags
  depth := UInt8.ofNat (min depth maxDepth)
  indent := UInt16.ofNat (min indent maxIndent)

/-- The word of a state. -/
def encode (s : LineState) : UInt32 :=
  UInt32.ofNat (s.flags.toByte.toNat + 256 * s.depth.toNat + 65536 * s.indent.toNat)

/-- The state of a word; flag bits that have no meaning are dropped. -/
def decode (w : UInt32) : LineState where
  flags := (LineFlags.ofByte (UInt8.ofNat w.toNat)).known
  depth := UInt8.ofNat (w.toNat / 256)
  indent := UInt16.ofNat (w.toNat / 65536)

/-- The level of a heading line. -/
def headingLevel? (s : LineState) : Option Nat :=
  if s.flags.heading then some s.depth.toNat else none

end LineState

end Highlight
