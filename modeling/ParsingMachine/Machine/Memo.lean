import ParsingMachine.Program.Opcode
import ParsingMachine.Semantics.ParseState
import Std.Data.TreeMap

/-!
# Memoized results

A memo entry is found by its slot, its position and, for slots that depend on it, the parse state.
The table keeps the entries of each position together, since few of them share one. It is described
by `find?` alone: an entry is what was recorded last under its index (`find?_insert`).
-/

namespace ParsingMachine.Machine

/-- What a memo entry is found by. -/
structure MemoIndex where
  /-- The slot. -/
  memo : MemoId
  /-- The position. -/
  pos : Nat
  /-- The symbols and the recorded indentation, for slots that depend on them. -/
  state : Option (List (String × List UInt8) × List (List UInt8))
  deriving DecidableEq

/-- The index of a memo entry. -/
def memoIndex (use : MemoUse) (pos : Nat) (parse : ParseState) : MemoIndex :=
  { memo := use.memo, pos
    state := match use.key with
      | .position => none
      | .state => some (parse.symbols, parse.indents) }

/-- Memoized results: the end of a success, or nothing for a failure. -/
structure MemoTable where
  /-- For each position its entries, newest first. -/
  rows : Std.TreeMap Nat (List (MemoIndex × Option Nat)) := {}

namespace MemoTable

/-- The entries of a position, newest first. -/
def row (m : MemoTable) (pos : Nat) : List (MemoIndex × Option Nat) :=
  m.rows.getD pos []

/-- The result recorded under an index. -/
def find? (m : MemoTable) (i : MemoIndex) : Option (Option Nat) :=
  (m.row i.pos).lookup i

/-- Records a result under an index. -/
def insert (m : MemoTable) (i : MemoIndex) (result : Option Nat) : MemoTable where
  rows := m.rows.insert i.pos ((i, result) :: m.row i.pos)

@[simp] theorem find?_empty (i : MemoIndex) : ({} : MemoTable).find? i = none := by
  simp [find?, row]

@[simp] theorem find?_insert (m : MemoTable) (i : MemoIndex) (result : Option Nat) (j : MemoIndex) :
    (m.insert i result).find? j = if j = i then some result else m.find? j := by
  by_cases h : j = i
  · subst h
    simp [find?, row, insert]
  · have hb : (j == i) = false := by simpa using h
    by_cases hp : i.pos = j.pos
    · simp [find?, row, insert, List.lookup_cons, hp, hb, h]
    · simp [find?, row, insert, Std.TreeMap.getD_insert, hp, h]

end MemoTable

end ParsingMachine.Machine
