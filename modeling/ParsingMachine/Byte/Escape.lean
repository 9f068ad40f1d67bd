import ParsingMachine.Byte.Set

/-!
# Written forms of bytes and byte classes

Listings write a byte as one printable character, as a backslash before a character that would be
read as punctuation, as one of the short forms for newline, tab and carriage return, or as a
backslash, `x` and two lower-case hexadecimal digits. An `EscapeStyle` says which printable
characters are punctuation in the surrounding text.

A byte class is written between brackets as its maximal runs in ascending order (`runs`), a run of
one byte as that byte and a longer one as its two ends with a dash between them.
-/

namespace ParsingMachine

/-! ### Single bytes -/

/-- Which printable bytes stand for themselves in a listing. -/
structure EscapeStyle where
  /-- The printable bytes that take a backslash. -/
  guarded : List UInt8
  /-- The lowest byte that stands for itself; the highest is always the tilde. -/
  lowest : UInt8

/-- Inside brackets a backslash, a closing bracket and a dash are guarded, and a space is not
printable. -/
def EscapeStyle.byteClass : EscapeStyle := ⟨[0x5c, 0x5d, 0x2d], 0x21⟩

/-- Inside quotes a backslash and both quotes are guarded. -/
def EscapeStyle.quoted : EscapeStyle := ⟨[0x5c, 0x27, 0x22], 0x20⟩

/-- The character with the code of `b`. -/
def byteChar (b : UInt8) : Char :=
  Char.ofNat b.toNat

/-- One lower-case hexadecimal digit. -/
def hexDigit (n : Nat) : Char :=
  if n < 10 then Char.ofNat (0x30 + n) else Char.ofNat (0x61 + (n - 10))

/-- Two lower-case hexadecimal digits. -/
def hexPair (b : UInt8) : List Char :=
  [hexDigit (b.toNat / 16), hexDigit (b.toNat % 16)]

/-- The written form of one byte. -/
def EscapeStyle.escape (style : EscapeStyle) (b : UInt8) : List Char :=
  if b = 0x0a then ['\\', 'n']
  else if b = 0x09 then ['\\', 't']
  else if b = 0x0d then ['\\', 'r']
  else if style.guarded.contains b then ['\\', byteChar b]
  else if style.lowest ≤ b && b ≤ 0x7e then [byteChar b]
  else '\\' :: 'x' :: hexPair b

/-- The written form of a byte string inside quotes. -/
def quotedBytes (bytes : List UInt8) : List Char :=
  bytes.flatMap EscapeStyle.quoted.escape

/-! ### Byte classes -/

/-- Adds `b` in front of ascending runs, joining it to the first when that starts right after
`b`. -/
def extendRuns (b : UInt8) : List (UInt8 × UInt8) → List (UInt8 × UInt8)
  | [] => [(b, b)]
  | (lo, hi) :: rest =>
    if b.toNat + 1 = lo.toNat then (b, hi) :: rest else (b, b) :: (lo, hi) :: rest

namespace ByteSet

/-- The maximal runs of members, each as its first and last byte, in ascending order. -/
def runs (s : ByteSet) : List (UInt8 × UInt8) :=
  s.members.foldr extendRuns []

/-- The written form of a run. -/
def runChars (run : UInt8 × UInt8) : List Char :=
  let first := EscapeStyle.byteClass.escape run.1
  if run.1 < run.2 then first ++ '-' :: EscapeStyle.byteClass.escape run.2 else first

/-- The written form of a set: its runs between brackets. -/
def chars (s : ByteSet) : List Char :=
  '[' :: s.runs.flatMap runChars ++ [']']

/-- The written form of a set as a string. -/
def text (s : ByteSet) : String :=
  String.ofList s.chars

end ByteSet

end ParsingMachine
