import Highlight.Run
import Highlight.Scan.Trail

/-!
The place of a scan in its text. A cursor holds the bytes that are still to be read, up to the end
of the chunk and no further, so that nothing behind the chunk can influence a scan; beyond the end
every byte reads as `0`. What it has passed it holds as categories, one per byte: those of closed
runs, and the bytes of the run in progress, whose category is the state of the scan and can still
change.
-/

namespace Highlight

/-- A place in a text, with the state of the scan there. -/
structure Cursor (σ : Type) where
  /-- The offset at which the chunk begins. -/
  start : Nat
  /-- The offset of the place. -/
  pos : Nat
  /-- The line of the place. -/
  line : Nat
  /-- The byte before the place, if there is one. -/
  prev : Option Byte
  /-- The bytes from the place to the end of the chunk. -/
  ahead : Text
  /-- The category of the run in progress. -/
  state : σ
  /-- The bytes of the run in progress, the last one first. -/
  word : Text
  /-- The categories of the bytes of the runs closed so far, the last one first. -/
  closed : List σ
  trail : Trail σ

namespace Cursor

variable {σ : Type}

/-! ### Looking around -/

/-- Whether any byte is left. -/
def more (c : Cursor σ) : Bool := !c.ahead.isEmpty

/-- The byte `n` places ahead. -/
def peek (c : Cursor σ) (n : Nat) : Byte := c.ahead.getD n 0

/-- The byte at the place. -/
def byte (c : Cursor σ) : Byte := c.peek 0

/-- The byte after it. -/
def next (c : Cursor σ) : Byte := c.peek 1

/-- The byte before the place. -/
def behind (c : Cursor σ) : Byte := c.prev.getD 0

/-- The place reads `a` and then `b`. -/
def reads (c : Cursor σ) (a b : Byte) : Bool := c.byte == a && c.next == b

/-- The byte at the place is followed by `a` and then `b`. -/
def readsNext (c : Cursor σ) (a b : Byte) : Bool := c.next == a && c.peek 2 == b

/-- The first byte of a text that is neither a space nor a tab; `0` if the line ends before it. -/
def firstVisible (text : Text) : Byte :=
  match text.dropWhile Byte.isBlank with
  | [] => 0
  | b :: _ => if Byte.isLineEnd b then 0 else b

/-- The first byte from the place on that is neither a space nor a tab, `0` at the end of the
line. -/
def nextVisible (c : Cursor σ) : Byte := firstVisible c.ahead

/-- The place is the beginning of a line. -/
def atLineStart (c : Cursor σ) : Bool := c.prev.isNone || c.prev == some Byte.newline

/-- The place is on the newline that ends the line. -/
def atLineEnd (c : Cursor σ) : Bool := c.ahead.head? == some Byte.newline

/-- The bytes of the run in progress. -/
def currentWord (c : Cursor σ) : Text := c.word.reverse

/-- The visible bytes of the line so far. -/
def visible (c : Cursor σ) : Nat := c.trail.visible

/-! ### Changing the state -/

/-- The run in progress ends and the next one, of category `s`, begins. -/
def switch (c : Cursor σ) (s : σ) : Cursor σ :=
  { c with
    state := s
    word := []
    closed := List.replicate c.word.length c.state ++ c.closed }

/-- The run in progress takes the category `s`. -/
def recolor (c : Cursor σ) (s : σ) : Cursor σ := { c with state := s }

/-- The last visible byte is remembered in the category `s`. -/
def remember (c : Cursor σ) (s : σ) : Cursor σ :=
  { c with trail := { c.trail with category := s } }

/-- The counts of the line begin again. -/
def newLine [Palette σ] (c : Cursor σ) : Cursor σ := { c with trail := c.trail.newLine }

/-! ### Moving on -/

variable [Palette σ]

/-- The place after the next byte, which joins the run in progress; at the end the place stays. -/
def forward (c : Cursor σ) : Cursor σ :=
  match c.ahead with
  | [] => c
  | b :: rest =>
    { c with
      pos := c.pos + 1
      line := if b = Byte.newline then c.line + 1 else c.line
      prev := some b
      ahead := rest
      word := b :: c.word
      trail := c.trail.pass b c.state }

/-- The place after the next `n` bytes. -/
def forwardN (c : Cursor σ) : Nat → Cursor σ
  | 0 => c
  | n + 1 => if c.more then c.forward.forwardN n else c

/-- The place after the next byte, where a run of category `s` begins. -/
def forwardSwitch (c : Cursor σ) (s : σ) : Cursor σ := c.forward.switch s

/-- The place of the last byte of the run of equal bytes that begins here. -/
def toLastOfRun (c : Cursor σ) : Cursor σ :=
  c.forwardN (c.ahead.tail.takeWhile (· == c.byte)).length

/-! ### Making and finishing -/

/-- The place at the offset `start` of a text, on the line `line` and in state `s`, for a chunk
that ends before the offset `stop`. Both offsets are cut to the text. -/
def ofRange (text : Text) (start stop line : Nat) (s : σ) : Cursor σ :=
  let stop := min stop text.length
  let start := min start stop
  { start := start
    pos := start
    line := line
    prev := (text.take start).getLast?
    ahead := (text.take stop).drop start
    state := s
    word := []
    closed := []
    trail := Trail.start }

/-- The categories of all bytes passed, in order. -/
def passed (c : Cursor σ) : List σ :=
  (List.replicate c.word.length c.state ++ c.closed).reverse

omit [Palette σ] in
/-- Beginning a new run changes no category of what was passed. -/
@[simp] theorem passed_switch (c : Cursor σ) (s : σ) : (c.switch s).passed = c.passed := by
  simp [passed, switch]

/-- Going on adds one byte to what was passed, in the category of the run in progress. -/
theorem passed_forward {c : Cursor σ} {b : Byte} {rest : Text} (h : c.ahead = b :: rest) :
    c.forward.passed = c.passed ++ [c.state] := by
  simp [passed, forward, h, List.replicate_succ]

/-- The runs of all bytes passed. -/
def runs [DecidableEq σ] (c : Cursor σ) : List (Run σ) := Run.encode c.start c.passed

end Cursor

end Highlight
