import ParsingMachine.Machine.Basic
import ParsingMachine.Source.Resident

/-!
# Running programs

A run executes a program from its entry until it halts, within a number of instructions, and records
which instructions were executed. A program that is meant to halt has a run for some number of
instructions.
-/

namespace ParsingMachine.Machine

/-- How a run ends. -/
inductive Ending where
  /-- The program halted, or did not within the allowed number of instructions. -/
  | outcome (o : Outcome)
  /-- The program did what a well-made program never does. -/
  | fault (f : Fault)
  deriving DecidableEq

/-- A run. -/
structure Run where
  /-- How it ended. -/
  ending : Ending
  /-- The executed instructions in order. -/
  executed : Array InstrId
  deriving DecidableEq

/-- Runs a program from a state within a number of instructions. -/
def runFrom {σ : Type} [Buffer σ] (p : Program) :
    Nat → State → Array InstrId → σ → Run × σ
  | 0, _, executed, src => ({ ending := .outcome .diverged, executed }, src)
  | n + 1, s, executed, src =>
    let executed := executed.push s.pc
    match step p s src with
    | (.running s, src) => runFrom p n s executed src
    | (.halted o, src) => ({ ending := .outcome o, executed }, src)
    | (.faulted f, src) => ({ ending := .fault f, executed }, src)

/-- Runs a program over a buffer within a number of instructions. -/
def runOn {σ : Type} [Buffer σ] (limit : Nat) (p : Program) (src : σ) : Run :=
  (runFrom p limit (start p) #[] src).1

/-- Runs a program over a byte string within a number of instructions. -/
def run (limit : Nat) (p : Program) (input : Array UInt8) : Run :=
  runOn limit p { text := input : Resident }

/-- Runs that take more instructions count as diverging, and so do walks that take more steps. -/
def defaultLimit : Nat := 200000

end ParsingMachine.Machine
