import ParsingMachine.Compile.Code
import ParsingMachine.Compile.Memo
import ParsingMachine.Compile.Options

/-!
# Compilation sessions

A session holds everything that compiling rules builds up: the grammar with the nodes added to it,
the code, the memo slots and the blocks of the rules compiled so far. Encoding an expression is a
computation on a session that may run out of depth.
-/

namespace ParsingMachine

/-- What compiling rules builds up. The heads of the blocks are positions in the arena of
instructions. -/
structure Session where
  /-- Which features are on. -/
  options : Options
  /-- How deeply encoding may recurse. -/
  depth : Nat
  /-- The grammar, with the nodes that simplification and factoring added. -/
  grammar : Grammar
  /-- The code. -/
  code : Code := {}
  /-- The memo slots. -/
  memo : Array MemoSlot := #[]
  /-- The blocks of the compiled rules. -/
  blocks : Array Block := #[]

/-- A computation on a session; `none` when encoding would recurse too deeply or an analysis would
not come to an end. -/
abbrev Encoder := StateT Session Option

namespace Encoder

/-- The grammar as it is now. -/
def grammar : Encoder Grammar := do
  return (← get).grammar

/-- The options of the session. -/
def options : Encoder Options := do
  return (← get).options

/-- Extends the grammar. -/
def build {α : Type} (b : Builder α) : Encoder α := fun s ↦
  let (a, g) := b s.grammar
  some (a, { s with grammar := g })

/-- Makes an instruction and answers its position in the arena. -/
def emitWith (op : Opcode) (next : Option InstrId) (origin : ExprId) : Encoder InstrId := fun s ↦
  some (s.code.instrs.size, { s with code := s.code.push op next origin })

/-- Makes an instruction that falls through to `next`. -/
def emit (op : Opcode) (next : InstrId) (origin : ExprId) : Encoder InstrId :=
  emitWith op (some next) origin

/-- Makes an instruction that does not fall through. -/
def emitEnd (op : Opcode) (origin : ExprId) : Encoder InstrId :=
  emitWith op none origin

/-- Lets an instruction fall through to `next`. -/
def patchNext (i next : InstrId) : Encoder Unit :=
  modify fun s ↦ { s with code := s.code.patchNext i next }

/-- Replaces the operation of an instruction. -/
def patchOp (i : InstrId) (op : Opcode) : Encoder Unit :=
  modify fun s ↦ { s with code := s.code.patchOp i op }

/-- The memo slot for an expression. -/
def issue (label : String) (expr : ExprId) (node : Bool) : Encoder MemoSlot := fun s ↦
  (issueMemo s.grammar label expr node s.memo).map fun (slot, memo) ↦ (slot, { s with memo })

/-- The end of recursion. -/
def tooDeep {α : Type} : Encoder α := fun _ ↦ none

end Encoder

end ParsingMachine
