/-!
# Reading bytes as text with replacement characters

Text is read from bytes that need not be well-formed UTF-8. The reader is a machine that takes one
byte at a time: it is either between characters or inside one, and then knows the bits read so far,
how many bytes are owed, and the range in which the next byte has to lie. A byte outside that range
ends the character: what was read of it becomes one replacement character, and the byte starts anew.
So each maximal ill-formed part of the input becomes exactly one replacement character.

The ranges exclude overlong forms, surrogates and values above the last code point, so every
completed character is a valid scalar value.
-/

namespace ParsingMachine.Lenient

/-- The character that stands for ill-formed input. -/
def replacement : Char := '\uFFFD'

/-- What has been read of a character. -/
structure Pending where
  /-- The value of the bits read so far. -/
  bits : Nat
  /-- How many bytes are owed after the next one. -/
  owed : Nat
  /-- The least value of the next byte. -/
  low : UInt8
  /-- The greatest value of the next byte. -/
  high : UInt8

/-- Where the reader stands: between characters (`none`) or inside one. -/
abbrev State := Option Pending

/-- The first byte of a character: the characters it completes and the state after it. -/
def lead (b : UInt8) : List Char × State :=
  let n := b.toNat
  if n < 0x80 then ([Char.ofNat n], none)
  else if n < 0xC2 then ([replacement], none)
  else if n < 0xE0 then ([], some ⟨n % 0x20, 0, 0x80, 0xBF⟩)
  else if n = 0xE0 then ([], some ⟨n % 0x10, 1, 0xA0, 0xBF⟩)
  else if n = 0xED then ([], some ⟨n % 0x10, 1, 0x80, 0x9F⟩)
  else if n < 0xF0 then ([], some ⟨n % 0x10, 1, 0x80, 0xBF⟩)
  else if n = 0xF0 then ([], some ⟨n % 0x08, 2, 0x90, 0xBF⟩)
  else if n < 0xF4 then ([], some ⟨n % 0x08, 2, 0x80, 0xBF⟩)
  else if n = 0xF4 then ([], some ⟨n % 0x08, 2, 0x80, 0x8F⟩)
  else ([replacement], none)

/-- One byte: the characters it completes and the state after it. -/
def step : State → UInt8 → List Char × State
  | none, b => lead b
  | some p, b =>
    if p.low ≤ b && b ≤ p.high then
      let bits := p.bits * 64 + b.toNat % 64
      match p.owed with
      | 0 => ([Char.ofNat bits], none)
      | owed + 1 => ([], some ⟨bits, owed, 0x80, 0xBF⟩)
    else
      let (chars, state) := lead b
      (replacement :: chars, state)

/-- The characters read from `bytes`, starting in a given state. A character cut off by the end of
input becomes one replacement character. -/
def charsFrom : State → List UInt8 → List Char
  | none, [] => []
  | some _, [] => [replacement]
  | state, b :: bytes => (step state b).1 ++ charsFrom (step state b).2 bytes

/-- The characters of a byte string. -/
def chars (bytes : List UInt8) : List Char :=
  charsFrom none bytes

/-- A byte string as text. -/
def text (bytes : List UInt8) : String :=
  String.ofList (chars bytes)

end ParsingMachine.Lenient
