import ParsingMachine.Source.Diagnostic

/-!
# Sources held in memory

A resident source is a byte string with a name and the number of its first line. Access never
changes it.
-/

namespace ParsingMachine

/-- A whole input in memory. -/
structure Resident where
  /-- The name used in diagnostics. -/
  name : String := "(string)"
  /-- The number reported for the first line. -/
  startLine : Nat := 1
  /-- The bytes. -/
  text : Array UInt8
  deriving DecidableEq

namespace Resident

/-- The byte at a position, or `endByte` at or past the end. -/
def byteAt (s : Resident) (pos : Nat) : UInt8 :=
  s.text[pos]?.getD endByte

/-- The bytes between two positions, cut to the input. -/
def subbytes (s : Resident) (start stop : Nat) : List UInt8 :=
  (s.text.extract start stop).toList

/-- Whether a byte string occurs at a position. -/
def matchesAt (s : Resident) (pos : Nat) (bytes : List UInt8) : Bool :=
  decide (pos + bytes.length ≤ s.text.size) && s.subbytes pos (pos + bytes.length) == bytes

/-- The number of the line that contains a position: one more for each newline before it. -/
def lineNumber (s : Resident) (pos : Nat) : Nat :=
  s.startLine + (s.text.extract 0 pos).count newline

instance : Buffer Resident where
  name := Resident.name
  startLine := Resident.startLine
  length s := s.text.size
  byteAt pos s := (s.byteAt pos, s)
  matchesAt pos bytes s := (s.matchesAt pos bytes, s)
  subbytes start stop s := (s.subbytes start stop, s)
  lineNumber pos s := (s.lineNumber pos, s)

end Resident

end ParsingMachine
