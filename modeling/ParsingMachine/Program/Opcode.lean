import ParsingMachine.Grammar.Expr

/-!
# Instructions

Instructions form a directed graph. The fallthrough successor of an instruction is `next`; opcodes
that branch carry their other targets as operands. Several instructions may share a successor, and
loops and calls may close cycles.

While a program is being made an instruction is known by its place in the arena of instructions,
later by its place in the finished program. `mapTargets` carries every reference over.
-/

namespace ParsingMachine

/-- The position of an instruction. -/
abbrev InstrId := Nat

/-- The number of a memo slot. -/
abbrev MemoId := Nat

/-- What a memo entry depends on besides its slot. -/
inductive MemoKey where
  /-- The position alone. -/
  | position
  /-- The position, the symbols and the recorded indentation. -/
  | state
  deriving DecidableEq

/-- How an instruction uses a memo slot. -/
structure MemoUse where
  /-- The slot. -/
  memo : MemoId
  /-- What the entries of the slot depend on. -/
  key : MemoKey
  /-- The switch that guards the memoized path, if there is one. -/
  monitor : Option InstrId
  deriving DecidableEq

/-- An operation and its operands. -/
inductive Opcode where
  /-- Fails. -/
  | fail
  /-- Returns to the caller, or accepts when there is none. -/
  | ret
  /-- Consumes any byte. -/
  | anyByte
  /-- Consumes a given byte; when `optional`, another byte falls through. -/
  | byte (b : UInt8) (optional : Bool)
  /-- Consumes a byte of a set; when `optional`, another byte falls through. -/
  | byteClass (set : ByteSet) (optional : Bool)
  /-- Consumes bytes as long as they are in a set. -/
  | skipClass (set : ByteSet)
  /-- Fails if the next byte is in a set. -/
  | notClass (set : ByteSet)
  /-- Fails if a byte string is next. -/
  | notLiteral (bytes : List UInt8)
  /-- Saves a failure frame: a later failure resumes at `onFail`. -/
  | failPush (onFail : InstrId)
  /-- Drops the newest failure frame. -/
  | failPop
  /-- Moves the newest failure frame to this position and loops. When `guarded` and the position has
  not moved since the frame was saved, leaves the loop through the frame. -/
  | failSkip (guarded : Bool)
  /-- Saves the position. -/
  | posPush
  /-- Goes back to the position saved last. -/
  | posBack
  /-- Jumps by the next byte or the end of input. -/
  | dispatch (table : List InstrId)
  /-- Calls a rule; `next` is where it returns to. The target is filled in by linking. -/
  | call (rule : RuleId) (target : Option InstrId)
  /-- Takes the memoized path. -/
  | monitoredSwitch (activated : InstrId)
  /-- Looks a result up: jumps to `onHit`, or fails for a recorded failure, or saves a failure frame
  that resumes at `onMemoFail` and goes on to compute. With `child` the entry holds the tree node at
  that index. -/
  | lookup (use : MemoUse) (child : Option Int) (onHit onMemoFail : InstrId)
  /-- Records success for the frame that the lookup saved, and drops the frame. -/
  | memoize (use : MemoUse) (child : Option Int)
  /-- Records failure at this position, then fails. -/
  | memoizeFail (use : MemoUse)
  /-- Opens the tree node of a link. -/
  | nodePush
  /-- Attaches the tree node of a link. -/
  | nodeStore (index : Int)
  /-- A tree operator without operands. -/
  | mark (m : TreeMark)
  /-- Opens a block. -/
  | tablePush
  /-- Closes a block. -/
  | tablePop
  /-- Defines the text since the saved position as a symbol. -/
  | defSymbol (table : String)
  /-- Requires the text since the saved position to be a symbol. -/
  | isSymbol (table : String) (lastOnly : Bool)
  /-- Records the indentation. -/
  | defIndent
  /-- Requires the recorded indentation. -/
  | isIndent
  deriving DecidableEq

namespace Opcode

instance : Inhabited Opcode := ⟨fail⟩

/-- The jump targets other than the fallthrough, in the order of placement. -/
def branches : Opcode → List InstrId
  | failPush onFail => [onFail]
  | call _ target => target.toList
  | monitoredSwitch activated => [activated]
  | lookup _ _ onHit onMemoFail => [onHit, onMemoFail]
  | dispatch table => table
  | _ => []

/-- The memo slot that an instruction uses. -/
def memoUse? : Opcode → Option MemoUse
  | lookup use _ _ _ | memoize use _ | memoizeFail use => some use
  | _ => none

/-- Every instruction that an operand names: the branches and the monitor. -/
def references (op : Opcode) : List InstrId :=
  op.branches ++ (op.memoUse?.bind MemoUse.monitor).toList

/-- Replaces every instruction that an operand names. -/
def mapTargets (f : InstrId → InstrId) : Opcode → Opcode
  | failPush onFail => failPush (f onFail)
  | call rule target => call rule (target.map f)
  | monitoredSwitch activated => monitoredSwitch (f activated)
  | lookup use child onHit onMemoFail =>
    lookup { use with monitor := use.monitor.map f } child (f onHit) (f onMemoFail)
  | memoize use child => memoize { use with monitor := use.monitor.map f } child
  | memoizeFail use => memoizeFail { use with monitor := use.monitor.map f }
  | dispatch table => dispatch (table.map f)
  | op => op

end Opcode

/-- A node of the instruction graph. -/
structure Instruction where
  /-- What it does. -/
  op : Opcode
  /-- The fallthrough successor; none for instructions that always jump, fail or return. -/
  next : Option InstrId
  /-- The expression from which it was made. -/
  origin : ExprId
  /-- Whether something jumps here other than the instruction before by falling through. -/
  label : Bool := false
  deriving DecidableEq, Inhabited

namespace Instruction

/-- The fallthrough, then the branches. -/
def successors (i : Instruction) : List InstrId :=
  i.next.toList ++ i.op.branches

/-- Replaces every instruction that this one names. -/
def mapTargets (f : InstrId → InstrId) (i : Instruction) : Instruction :=
  { i with op := i.op.mapTargets f, next := i.next.map f }

/-- The targets to which an instruction at place `n` jumps: its branches, and the fallthrough unless
that is the next place. -/
def jumps (n : Nat) (i : Instruction) : List InstrId :=
  (i.next.toList.filter (· != n + 1)) ++ i.op.branches

end Instruction

end ParsingMachine
