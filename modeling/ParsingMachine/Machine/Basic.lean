import ParsingMachine.Machine.Memo
import ParsingMachine.Machine.Stack
import ParsingMachine.Program.Basic
import ParsingMachine.Source.Buffer

/-!
# The parsing machine

The machine executes a program over a buffer. It has a program counter, a position, a stack of
return addresses, a stack of saved positions, a stack of failure frames, the parse state, and a
table of memoized results. A failure takes the newest frame and restores what it saved; without a
frame the input is rejected.

Tree instructions have no effect on recognition and none here.

`step` is total: what a program made by the compiler never does is a `Fault`.
-/

namespace ParsingMachine.Machine

/-! ### States -/

/-- A saved position. -/
structure SavedPosition where
  /-- The position. -/
  pos : Nat
  /-- The instruction that saved it. -/
  owner : InstrId
  deriving DecidableEq

/-- What a failure restores. -/
structure Frame where
  /-- The position. -/
  pos : Nat
  /-- Where to go on. -/
  onFail : InstrId
  /-- The height of the stack of return addresses. -/
  calls : Nat
  /-- The height of the stack of saved positions. -/
  positions : Nat
  /-- The parse state. -/
  parse : ParseState
  /-- The instruction that saved the frame. -/
  owner : InstrId
  deriving DecidableEq

/-- A state of the machine. -/
structure State where
  /-- The instruction to be executed. -/
  pc : InstrId
  /-- The position in the input. -/
  pos : Nat := 0
  /-- Return addresses. -/
  calls : Stack InstrId := .empty
  /-- Saved positions. -/
  positions : Stack SavedPosition := .empty
  /-- Failure frames, newest first. -/
  frames : List Frame := []
  /-- Symbols, blocks and indentation. -/
  parse : ParseState := {}
  /-- Memoized results. -/
  memo : MemoTable := {}

/-- What a well-made program never does. -/
inductive Fault where
  /-- Goes to an address outside the program. -/
  | noInstruction
  /-- Goes on where there is no fallthrough. -/
  | noSuccessor
  /-- Calls without a return address. -/
  | noReturnAddress
  /-- Calls a rule that was not linked. -/
  | unlinkedCall
  /-- Uses a frame where there is none. -/
  | noFrame
  /-- Uses a saved position where there is none. -/
  | noPosition
  /-- Jumps by a table that has no entry for the byte. -/
  | noEntry
  deriving DecidableEq

/-! ### Executing one instruction -/

/-- What an operation asks for. -/
inductive Effect where
  /-- Go on at the fallthrough. -/
  | next (s : State)
  /-- Go on at an instruction. -/
  | jump (target : InstrId) (s : State)
  /-- Fail. -/
  | fail (s : State)
  /-- Accept. -/
  | accept (pos : Nat)
  /-- Stop with a fault. -/
  | fault (f : Fault)

section

variable {σ : Type} [Buffer σ]

/-- The byte at a position before the end of input. -/
def byte? (pos : Nat) : StateM σ (Option UInt8) := do
  if pos < Buffer.length (← get) then return some (← Buffer.byteAt pos) else pure none

/-- Consumes the next byte if it passes a test; else fails, or goes on when `optional`. -/
def consume (test : UInt8 → Bool) (optional : Bool) (s : State) : StateM σ Effect := do
  match ← byte? s.pos with
  | some b => if test b then return .next { s with pos := s.pos + 1 }
  | none => pure ()
  return if optional then .next s else .fail s

/-- The first position from `pos` on whose byte is not in a set, looking at most at the next `n`
bytes. -/
def skipClass (set : ByteSet) : Nat → Nat → StateM σ Nat
  | 0, pos => pure pos
  | n + 1, pos => do
    match ← byte? pos with
    | some b => if set.contains b then skipClass set n (pos + 1) else pure pos
    | none => pure pos

/-- The frame that a failure at `onFail` needs. -/
def frame (s : State) (onFail : InstrId) : Frame :=
  { pos := s.pos, onFail, calls := s.calls.height, positions := s.positions.height
    parse := s.parse, owner := s.pc }

/-- Executes an operation with fallthrough `next`. -/
def perform (op : Opcode) (next : Option InstrId) (s : State) : StateM σ Effect := do
  match op with
  | .fail => return .fail s
  | .ret =>
    match s.calls.pop? with
    | some (target, calls) => return .jump target { s with calls }
    | none => return .accept s.pos
  | .anyByte =>
    return if s.pos < Buffer.length (← get) then .next { s with pos := s.pos + 1 } else .fail s
  | .byte b optional => consume (· == b) optional s
  | .byteClass set optional => consume set.contains optional s
  | .skipClass set =>
    let pos ← skipClass set (Buffer.length (← get) - s.pos) s.pos
    return .next { s with pos }
  | .notClass set =>
    match ← byte? s.pos with
    | some b => return if set.contains b then .fail s else .next s
    | none => return .next s
  | .notLiteral bytes => return if ← Buffer.matchesAt s.pos bytes then .fail s else .next s
  | .failPush onFail => return .next { s with frames := frame s onFail :: s.frames }
  | .failPop => return .next { s with frames := s.frames.tail }
  | .failSkip guarded =>
    match s.frames with
    | [] => return .fault .noFrame
    | top :: frames =>
      if guarded && top.pos = s.pos then return .jump top.onFail { s with frames }
      else return .next { s with frames := { top with pos := s.pos, parse := s.parse } :: frames }
  | .posPush => return .next { s with positions := s.positions.push ⟨s.pos, s.pc⟩ }
  | .posBack =>
    match s.positions.pop? with
    | some (saved, positions) => return .next { s with pos := saved.pos, positions }
    | none => return .fault .noPosition
  | .dispatch table =>
    let slot := match ← byte? s.pos with
      | some b => b.toNat
      | none => 256
    match table[slot]? with
    | some target => return .jump target s
    | none => return .fault .noEntry
  | .call _ target =>
    match next, target with
    | some back, some target => return .jump target { s with calls := s.calls.push back }
    | none, _ => return .fault .noReturnAddress
    | _, none => return .fault .unlinkedCall
  | .monitoredSwitch activated => return .jump activated s
  | .lookup use _ onHit onMemoFail =>
    match s.memo.find? (memoIndex use s.pos s.parse) with
    | some (some stop) => return .jump onHit { s with pos := stop }
    | some none => return .fail s
    | none => return .next { s with frames := frame s onMemoFail :: s.frames }
  | .memoize use _ =>
    match s.frames with
    | [] => return .fault .noFrame
    | top :: frames =>
      return .next { s with
        frames, memo := s.memo.insert (memoIndex use top.pos top.parse) (some s.pos) }
  | .memoizeFail use =>
    return .fail { s with memo := s.memo.insert (memoIndex use s.pos s.parse) none }
  | .nodePush | .nodeStore _ | .mark _ => return .next s
  | .tablePush => return .next { s with parse := s.parse.openScope }
  | .tablePop => return .next { s with parse := s.parse.closeScope }
  | .defSymbol table =>
    match s.positions.pop? with
    | some (saved, positions) =>
      let text ← Buffer.subbytes saved.pos s.pos
      return .next { s with positions, parse := s.parse.define table text }
    | none => return .fault .noPosition
  | .isSymbol table lastOnly =>
    match s.positions.pop? with
    | some (saved, positions) =>
      let text ← Buffer.subbytes saved.pos s.pos
      let s := { s with positions }
      return if s.parse.isSymbol table text lastOnly then .next s else .fail s
    | none => return .fault .noPosition
  | .defIndent =>
    let indent ← Buffer.indent s.pos
    return .next { s with parse := s.parse.pushIndent indent }
  | .isIndent =>
    let indent := s.parse.lastIndent
    if ← Buffer.matchesAt s.pos indent then return .next { s with pos := s.pos + indent.length }
    else return .fail s

end

/-! ### Steps -/

/-- What a step leads to. -/
inductive Step where
  /-- Another state. -/
  | running (s : State)
  /-- The end of the run. -/
  | halted (outcome : Outcome)
  /-- A fault. -/
  | faulted (f : Fault)

/-- Takes the newest frame and restores what it saved; without a frame the input is rejected. -/
def backtrack (s : State) : Step :=
  match s.frames with
  | [] => .halted .failed
  | top :: frames =>
    .running { s with
      pc := top.onFail, pos := top.pos, frames, parse := top.parse
      calls := s.calls.cut top.calls, positions := s.positions.cut top.positions }

/-- Carries out what an operation with fallthrough `next` asks for. -/
def Effect.step (next : Option InstrId) : Effect → Step
  | .next s =>
    match next with
    | some target => .running { s with pc := target }
    | none => .faulted .noSuccessor
  | .jump target s => .running { s with pc := target }
  | .fail s => backtrack s
  | .accept pos => .halted (.matched pos)
  | .fault f => .faulted f

/-- Executes the instruction at the program counter. -/
def step {σ : Type} [Buffer σ] (p : Program) (s : State) : StateM σ Step := do
  match p.code[s.pc]? with
  | some instr => return (← perform instr.op instr.next s).step instr.next
  | none => return .faulted .noInstruction

/-- The state in which a program starts. -/
def start (p : Program) : State :=
  { pc := p.entry }

end ParsingMachine.Machine
