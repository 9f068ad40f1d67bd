/-!
# Code points by their first byte

The first byte of an encoded code point announces how many bytes it takes (`encodedLength`).
Decoding trusts that announcement: the bytes after the first contribute their low six bits and are
not checked, so malformed input reads as some number and never as an error. On well-formed text this
is ordinary UTF-8 decoding.
-/

namespace ParsingMachine.CodePoint

/-- The length in bytes announced by the first byte. ASCII, stray continuation bytes and bytes that
start nothing count as one byte. -/
def encodedLength (lead : UInt8) : Nat :=
  if lead < 0xC0 then 1
  else if lead < 0xE0 then 2
  else if lead < 0xF0 then 3
  else if lead < 0xF8 then 4
  else 1

/-- The number made of the leading bits and the low six bits of each following byte. -/
def extend (bits : Nat) (rest : List UInt8) : Nat :=
  rest.foldl (fun n b ↦ n * 64 + b.toNat % 64) bits

/-- The code point with first byte `lead`, where `rest` holds the bytes after it. -/
def decode (lead : UInt8) (rest : List UInt8) : Nat :=
  match encodedLength lead with
  | 2 => extend (lead.toNat % 0x20) rest
  | 3 => extend (lead.toNat % 0x10) rest
  | 4 => extend (lead.toNat % 0x08) rest
  | _ => lead.toNat

/-- Whether a byte continues a code point. -/
def isContinuation (b : UInt8) : Bool :=
  0x80 ≤ b && b < 0xC0

/-- Whether a byte is an ASCII character. -/
def isAscii (b : UInt8) : Bool :=
  b < 0x80

end ParsingMachine.CodePoint
