import ParsingMachine.Source.Buffer

/-!
# Diagnostics

A diagnostic names the source, the line and the severity, and may show the text around the position
with a line of markers below it (`excerpt`).

The excerpt stays on one line where it can. It starts at most about sixty bytes before the position
and ends at most about eighty bytes after its start, both moved outwards to the next ASCII byte so
that no character is cut. A newline is shown as a backslash and `N`, a tab as four spaces, and the
markers are padded to match; bytes that continue a character take no column.
-/

namespace ParsingMachine

/-- How bad a diagnostic is. -/
inductive Severity where
  | error
  | warning
  | notice
  deriving DecidableEq

/-- The word for a severity. -/
def Severity.text : Severity → String
  | error => "error"
  | warning => "warning"
  | notice => "notice"

namespace Excerpt

/-- How far before the position an excerpt may start. -/
def maxBefore : Nat := 60

/-- How wide an excerpt may become. -/
def maxWidth : Nat := 78

/-- What is shown for a byte. -/
def shown (b : UInt8) : List UInt8 :=
  if b = newline then [0x5c, 0x4e]
  else if b = tab then List.replicate 4 space
  else [b]

/-- What stands below a byte: carets below the marked one, else padding of the same width. -/
def markers (b : UInt8) (marked : Bool) : List Char :=
  if b = newline then (if marked then ['^', '^'] else ['\\', 'N'])
  else if b = tab then List.replicate 4 (if marked then '^' else ' ')
  else if marked then ['^']
  else if CodePoint.isContinuation b then []
  else [' ']

end Excerpt

/-- A range of bytes to be shown, with one of its positions marked. -/
structure Excerpt where
  /-- The first position. -/
  start : Nat
  /-- The marked position. -/
  mark : Nat
  /-- The bytes from `start` on. -/
  bytes : List UInt8
  deriving DecidableEq

namespace Excerpt

/-- The line of text. -/
def source (x : Excerpt) : String :=
  Lenient.text (x.bytes.flatMap shown)

/-- The line of markers. -/
def marker (x : Excerpt) : String :=
  String.ofList ((x.bytes.zipIdx x.start).flatMap fun (b, i) ↦ markers b (i == x.mark))

/-- Both lines, each after a delimiter. -/
def text (x : Excerpt) (delimiter : String) : String :=
  delimiter ++ x.source ++ delimiter ++ x.marker

end Excerpt

namespace Buffer

variable {σ : Type} [Buffer σ]

/-- The last position up to a given one that does not read as the end of input, or zero. -/
def lastByte : Nat → StateM σ Nat
  | 0 => pure 0
  | pos + 1 => do
    if (← byteAt (pos + 1)) = endByte then lastByte pos else pure (pos + 1)

/-- Where the excerpt around `pos` starts, looking back from a position. -/
def excerptStart (pos : Nat) : Nat → StateM σ Nat
  | 0 => pure 0
  | start + 1 => do
    let b ← byteAt (start + 1)
    if b = newline ∧ start + 1 < pos then pure (start + 2)
    else if Excerpt.maxBefore < pos - (start + 1) ∧ CodePoint.isAscii b then pure (start + 1)
    else excerptStart pos start

/-- Where the excerpt from `start` stops, looking at most at `n` bytes from a position on. -/
def excerptStop (start : Nat) : Nat → Nat → StateM σ Nat
  | 0, stop => pure stop
  | n + 1, stop => do
    let b ← byteAt stop
    if b = endByte ∨ b = newline ∨ (Excerpt.maxWidth < stop - start ∧ CodePoint.isAscii b) then
      pure stop
    else excerptStop start n (stop + 1)

/-- The bytes to be shown around a position. At the end of input the last byte is marked. -/
def excerpt (pos : Nat) : StateM σ Excerpt := do
  let size := length (← get)
  let mark ← lastByte pos
  let start ← excerptStart mark mark
  let stop ← if mark + 1 < size then excerptStop start (size - (mark + 1)) (mark + 1) else pure size
  let bytes ← (List.range' start (stop - start)).mapM byteAt
  return ⟨start, mark, bytes⟩

/-- A message with the name of the source, the line of a position and a severity. -/
def positionMessage (severity : Severity) (pos : Nat) (message : String) : StateM σ String := do
  let line ← lineNumber pos
  return "(" ++ name (← get) ++ ":" ++ toString line ++ ") [" ++ severity.text ++ "] " ++ message

/-- The message at a position, followed by the excerpt around it. -/
def positionExcerpt (severity : Severity) (pos : Nat) (message : String) : StateM σ String := do
  let head ← positionMessage severity pos message
  return head ++ (← excerpt pos).text "\n "

end Buffer

end ParsingMachine
