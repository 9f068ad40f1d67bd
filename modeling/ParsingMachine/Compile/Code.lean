import ParsingMachine.Graph.Explore
import ParsingMachine.Program.Opcode

/-!
# Code under construction

Instructions are made in an arena and placed later. Placing a head puts everything reachable from it
that was not placed before at the end of the order, depth first: the fallthrough, then the branches,
then the entries of a jump table. So shared tails are placed once.

At the end the placed instructions are numbered by their places (`numbered`) and the others are
dropped.
-/

namespace ParsingMachine

/-- Instructions in the order in which they were made, and the order of placement so far. -/
structure Code where
  /-- The arena; while a program is made an instruction is known by its position in it. -/
  instrs : Array Instruction := #[]
  /-- The placed instructions. -/
  order : Array InstrId := #[]
  deriving DecidableEq, Inhabited

namespace Code

/-! ### Making instructions -/

/-- Appends an instruction that is not placed. -/
def push (c : Code) (op : Opcode) (next : Option InstrId) (origin : ExprId) : Code :=
  { c with instrs := c.instrs.push { op, next, origin } }

/-- Lets an instruction fall through to `next`. -/
def patchNext (c : Code) (i next : InstrId) : Code :=
  { c with instrs := c.instrs.modify i ({ · with next := some next }) }

/-- Replaces the operation of an instruction. -/
def patchOp (c : Code) (i : InstrId) (op : Opcode) : Code :=
  { c with instrs := c.instrs.modify i ({ · with op }) }

/-! ### Placement -/

/-- The successors of an instruction. -/
def successors (c : Code) (i : InstrId) : List InstrId :=
  match c.instrs[i]? with
  | some instr => instr.successors
  | none => []

/-- Places everything reachable from a head that was not placed before. -/
def place (c : Code) (head : InstrId) : Code :=
  { c with order := Graph.explore c.successors c.instrs.size [head] c.order }

/-- The place of each instruction of the arena, if it was placed. -/
def places (c : Code) : Array (Option InstrId) :=
  c.order.zipIdx.foldl (fun places (i, n) ↦ places.setIfInBounds i (some n))
    (Array.replicate c.instrs.size none)

/-- The place of an instruction, or the instruction itself when it was not placed. -/
def placeOf (places : Array (Option InstrId)) (i : InstrId) : InstrId :=
  (places[i]?.join).getD i

/-- The places to which some instruction jumps, and those listed as heads. -/
def targets (code : Array Instruction) (heads : List InstrId) : List InstrId :=
  heads ++ code.zipIdx.toList.flatMap fun (i, n) ↦ i.jumps n

/-- For each place below `n`, whether it is among `places`. -/
def marks (n : Nat) (places : List InstrId) : Array Bool :=
  places.foldl (·.setIfInBounds · true) (Array.replicate n false)

theorem getElem?_marks (n : Nat) (places : List InstrId) (i : InstrId) :
    (marks n places)[i]? = if i < n then some (places.contains i) else none := by
  have key (bits : Array Bool) : (places.foldl (·.setIfInBounds · true) bits)[i]? =
      bits[i]?.map (· || places.contains i) := by
    induction places generalizing bits with
    | nil => simp
    | cons place places ih =>
      rw [List.foldl_cons, ih, Array.getElem?_setIfInBounds]
      by_cases h : place = i
      · subst h
        by_cases hs : place < bits.size <;> simp [hs]
      · simp [h, Ne.symm h]
  rw [marks, key, Array.getElem?_replicate]
  split <;> simp

/-- Marks the instructions to which another one jumps, and those listed as heads. -/
def labelled (code : Array Instruction) (heads : List InstrId) : Array Instruction :=
  code.zipWith (fun i label ↦ { i with label }) (marks code.size (targets code heads))

theorem getElem?_labelled (code : Array Instruction) (heads : List InstrId) (n : Nat) :
    (labelled code heads)[n]? =
      code[n]?.map fun i ↦ { i with label := (targets code heads).contains n } := by
  rw [labelled, Array.getElem?_zipWith, getElem?_marks]
  by_cases h : n < code.size <;> simp [h]

/-- The placed instructions in order, numbered by their places and with labels. -/
def numbered (c : Code) (heads : List InstrId) : Array Instruction :=
  let places := c.places
  let code := c.order.filterMap fun i ↦ c.instrs[i]?.map (·.mapTargets (placeOf places))
  labelled code (heads.map (placeOf places))

end Code

end ParsingMachine
