import ParsingMachine.Text.CodePoint
import ParsingMachine.Text.Lenient

/-!
# Source buffers

A buffer gives access to the bytes of one input by position. Reading at or past the end gives the
byte zero, which is also the value of a literal zero byte; the two cannot be told apart.

Access may change the buffer (a paged buffer loads pages), so every access is a state transformer.
Seven operations make a buffer; text, code points, line starts and indentation are derived from them
here, and diagnostics in `ParsingMachine.Source.Diagnostic`.
-/

namespace ParsingMachine

/-- The newline byte. -/
def newline : UInt8 := 0x0a

/-- The tab byte. -/
def tab : UInt8 := 0x09

/-- The space byte. -/
def space : UInt8 := 0x20

/-- What reading at or past the end gives. -/
def endByte : UInt8 := 0

/-- Access to one input. -/
class Buffer (σ : Type) where
  /-- The name used in diagnostics. -/
  name : σ → String
  /-- The number reported for the first line. -/
  startLine : σ → Nat
  /-- The number of bytes. -/
  length : σ → Nat
  /-- The byte at a position, or `endByte` at or past the end. -/
  byteAt : Nat → StateM σ UInt8
  /-- Whether a byte string occurs at a position; false when it would run past the end. -/
  matchesAt : Nat → List UInt8 → StateM σ Bool
  /-- The bytes between two positions, cut to the input. -/
  subbytes : Nat → Nat → StateM σ (List UInt8)
  /-- The number of the line that contains a position. -/
  lineNumber : Nat → StateM σ Nat

namespace Buffer

variable {σ : Type} [Buffer σ]

/-! ### Text -/

/-- The text between two positions, with replacement characters for ill-formed input. -/
def substring (start stop : Nat) : StateM σ String := do
  return Lenient.text (← subbytes start stop)

/-- The code point whose encoding starts at a position. -/
def codePointAt (pos : Nat) : StateM σ Nat := do
  let lead ← byteAt pos
  let rest ← (List.range (CodePoint.encodedLength lead - 1)).mapM fun i ↦ byteAt (pos + 1 + i)
  return CodePoint.decode lead rest

/-- The length in bytes of the code point at a position. -/
def codePointLength (pos : Nat) : StateM σ Nat := do
  return CodePoint.encodedLength (← byteAt pos)

/-! ### Lines -/

/-- The position after the last newline before a position, or zero. -/
def afterNewline : Nat → StateM σ Nat
  | 0 => pure 0
  | pos + 1 => do
    if (← byteAt pos) = newline then pure (pos + 1) else afterNewline pos

/-- The first position of the line that contains a position. -/
def lineStart (pos : Nat) : StateM σ Nat := do
  afterNewline (min pos (length (← get)))

/-- Whether a byte is a space or a tab. -/
def isBlank (b : UInt8) : Bool :=
  b = space || b = tab

/-- The position of the first byte from `pos` on that is neither space nor tab, looking at most at
the next `n` bytes. -/
def afterBlanks : Nat → Nat → StateM σ Nat
  | 0, pos => pure pos
  | n + 1, pos => do
    if isBlank (← byteAt pos) then afterBlanks n (pos + 1) else pure pos

/-- The indentation at a position: the spaces and tabs with which its line begins. When more than
one other byte lies between these and the position, a space for each of those bytes follows. -/
def indent (pos : Nat) : StateM σ (List UInt8) := do
  let start ← lineStart pos
  let stop ← afterBlanks (pos - start) start
  let blanks ← subbytes start stop
  return blanks ++ if stop + 1 < pos then List.replicate (pos - stop) space else []

/-- The indentation at a position as text. -/
def indentText (pos : Nat) : StateM σ String := do
  return Lenient.text (← indent pos)

end Buffer

end ParsingMachine
