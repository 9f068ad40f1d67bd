/-!
# Readers

A reader is a seekable stream of bytes that need not behave well. Each attempt to read at a position
answers some bytes, an interruption, or a failure. An interrupted attempt is made again; fewer bytes
than asked for are followed by another attempt; no bytes mean the end.

Attempts are numbered, so a reader may answer the same request differently from one attempt to the
next. It may not interrupt for ever: `settles` bounds the interruptions in a row.
-/

namespace ParsingMachine

/-- The answer to an attempt to read. -/
inductive ReadResult where
  /-- Some bytes, from the position on; none at the end. -/
  | data (bytes : Array UInt8)
  /-- Nothing happened; the attempt can be made again. -/
  | interrupted
  /-- The read cannot be done. -/
  | failed
  deriving DecidableEq

/-- A seekable stream of bytes. -/
structure Reader where
  /-- The length found by going to the end, or the reason why that was refused. -/
  size : Except String Nat
  /-- The answer to an attempt to read up to `limit` bytes at a position. -/
  answer : (attempt position limit : Nat) → ReadResult
  /-- How many interruptions in a row are possible. -/
  patience : Nat
  /-- Interruptions end. -/
  settles : ∀ attempt position limit, ∃ k ≤ patience,
    answer (attempt + k) position limit ≠ .interrupted

namespace Reader

/-- Attempts to read until an attempt is not interrupted, at most `n` times again. Answers the
result and the number of the next attempt. -/
def settle (r : Reader) (position limit : Nat) : Nat → Nat → ReadResult × Nat
  | 0, attempt => (r.answer attempt position limit, attempt + 1)
  | n + 1, attempt =>
    match r.answer attempt position limit with
    | .interrupted => settle r position limit n (attempt + 1)
    | result => (result, attempt + 1)

/-- Reads on from a position until `acc` holds `limit` bytes or the stream ends, with at most `n`
reads; `none` when a read fails. Answers also the number of the next attempt. -/
def fill (r : Reader) (position limit : Nat) :
    Nat → Array UInt8 → Nat → Option (Array UInt8) × Nat
  | 0, acc, attempt => (some acc, attempt)
  | n + 1, acc, attempt =>
    let room := limit - acc.size
    if room = 0 then (some acc, attempt)
    else
      match r.settle (position + acc.size) room r.patience attempt with
      | (.data bytes, attempt) =>
        if bytes.isEmpty then (some acc, attempt)
        else fill r position limit n (acc ++ bytes.extract 0 room) attempt
      | (_, attempt) => (none, attempt)

/-- Reads `limit` bytes at a position, or as many as there are; `none` when a read fails. Each read
adds a byte, so `limit` reads are enough. -/
def readAt (r : Reader) (position limit attempt : Nat) : Option (Array UInt8) × Nat :=
  r.fill position limit limit #[] attempt

/-- A reader of a byte string that answers every request in full. -/
def ofBytes (text : Array UInt8) : Reader where
  size := .ok text.size
  answer _ position limit := .data (text.extract position (position + limit))
  patience := 0
  settles _ _ _ := ⟨0, Nat.le_refl 0, fun h ↦ nomatch h⟩

end Reader

/-! ### Scripted readers -/

/-- How a reader of a byte string misbehaves. -/
structure Script where
  /-- The bytes. -/
  text : Array UInt8
  /-- The length reported when it differs from that of `text`. -/
  size : Option Nat := none
  /-- The most bytes that one read gives. -/
  chunk : Option Nat := none
  /-- Whether every other attempt, beginning with the first, is interrupted. -/
  interrupts : Bool := false
  /-- Reads that start from here on fail. -/
  failFrom : Nat := 0
  /-- Reads that start from here on do not fail again. -/
  failTo : Nat := 0
  /-- Why going to a position is refused, if it is. -/
  refusal : Option String := none

namespace Script

/-- The answer to an attempt to read. -/
def answer (s : Script) (attempt position limit : Nat) : ReadResult :=
  if s.interrupts && attempt % 2 = 0 then .interrupted
  else if s.failFrom ≤ position && position < s.failTo then .failed
  else .data (s.text.extract position (position + min limit (s.chunk.getD limit)))

theorem answer_ne_interrupted (s : Script) {attempt : Nat} (h : attempt % 2 = 1)
    (position limit : Nat) : s.answer attempt position limit ≠ .interrupted := by
  simp only [answer, h]
  simp only [Nat.succ_ne_self, decide_false, Bool.and_false, Bool.false_eq_true, if_false]
  split <;> exact fun h ↦ nomatch h

/-- The reader that follows a script. Of two attempts in a row at most one is interrupted. -/
def reader (s : Script) : Reader where
  size :=
    match s.refusal with
    | some reason => .error reason
    | none => .ok (s.size.getD s.text.size)
  answer := s.answer
  patience := 1
  settles attempt position limit := by
    by_cases h : attempt % 2 = 1
    · exact ⟨0, by omega, s.answer_ne_interrupted h position limit⟩
    · exact ⟨1, by omega, s.answer_ne_interrupted (by omega) position limit⟩

end Script

end ParsingMachine
