import ParsingMachine.Program.Opcode

/-!
# Programs

A program is a finished, linked instruction graph: the instructions in the order of placement, the
blocks of the rules, one after the other, and the memo slots that they use.
-/

namespace ParsingMachine

/-- The instructions of one rule. -/
structure Block where
  /-- The rule. -/
  rule : RuleId
  /-- Where calls to the rule jump. -/
  head : InstrId
  /-- The first place. -/
  start : Nat
  /-- The place after the last. -/
  stop : Nat
  deriving DecidableEq, Inhabited

/-- A memo slot. -/
structure MemoSlot where
  /-- The number of the slot. -/
  id : MemoId
  /-- The name of the rule, or the linked expression. -/
  label : String
  /-- The expression whose results are kept. -/
  expr : ExprId
  /-- Whether entries hold the tree node built by a link. -/
  node : Bool
  /-- Whether results can depend on symbols or indentation. -/
  contextSensitive : Bool
  deriving DecidableEq, Inhabited

/-- What the entries of a slot depend on. -/
def MemoSlot.key (slot : MemoSlot) : MemoKey :=
  if slot.contextSensitive then .state else .position

/-- A finished program. -/
structure Program where
  /-- The instructions. -/
  code : Array Instruction
  /-- The blocks, in the order in which the rules were compiled. -/
  blocks : Array Block
  /-- The memo slots. -/
  memoSlots : Array MemoSlot
  deriving DecidableEq, Inhabited

namespace Program

/-- The head of the first block. -/
def entry (p : Program) : InstrId :=
  match p.blocks[0]? with
  | some block => block.head
  | none => 0

/-- The number of instructions. -/
def size (p : Program) : Nat :=
  p.code.size

/-- The block of a rule. -/
def block? (p : Program) (rule : RuleId) : Option Block :=
  p.blocks.find? (·.rule == rule)

end Program

end ParsingMachine
