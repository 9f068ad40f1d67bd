import ParsingMachine.Compile.Basic

/-!
# Origins of instructions

An instruction remembers the expression from which it was made. Nothing else depends on this: code
that differs in the origins of its instructions only is patched, placed, linked and numbered in the
same way (`Session.erased_finish_eq`).

Origins matter to whoever reads a program, for they tell which part of the grammar an instruction
belongs to. But they name nodes by their ids, and ids depend on what was added to the grammar
before. A statement that two programs are the same has therefore to leave them out, and it is stated
for the programs with all origins erased (`Program.eraseOrigins`).

That erasing commutes with everything that is done to code is shown from the ground up. Appending
and changing an instruction come first. Placement looks only at where instructions lead, and that is
the same function for the code and the erased code (`Code.successors_eraseOrigins`), so the search
behind it is the same term. Numbering comes to the labels and to the renumbering of each
instruction, and linking is a fold over the placed instructions.

Finishing also looks at the session: at the bodies and names of rules and at the blocks, through the
target of a call, and at the memo slots. Two sessions that agree in these need not have the same
grammar, which is what makes the result useful for grammars that grew in different ways.

## Main statements

* `Code.eraseOrigins_place`: placement commutes with erasing.
* `Code.numbered_eraseOrigins`: so does numbering.
* `Session.foldlM_linkInstruction_eraseOrigins`: and linking.
* `Session.erased_finish_eq`: sessions that agree up to origins are finished in the same way.
-/

namespace ParsingMachine

/-! ### Erasing -/

/-- The instruction without what it was made from. -/
def Instruction.eraseOrigin (i : Instruction) : Instruction :=
  { i with origin := 0 }

/-- The program without what its instructions were made from. -/
def Program.eraseOrigins (p : Program) : Program :=
  { p with code := p.code.map Instruction.eraseOrigin }

namespace Code

/-- The code without what its instructions were made from. -/
def eraseOrigins (c : Code) : Code :=
  { c with instrs := c.instrs.map Instruction.eraseOrigin }

variable {c c' : Code}

/-- An instruction of the erased code is an erased instruction. -/
theorem getElem?_eraseOrigins (c : Code) (i : InstrId) :
    c.eraseOrigins.instrs[i]? = c.instrs[i]?.map Instruction.eraseOrigin :=
  Array.getElem?_map

theorem size_eraseOrigins (c : Code) : c.eraseOrigins.instrs.size = c.instrs.size :=
  Array.size_map

/-- Erasing leaves the order of instructions. -/
theorem order_eq_of_erased (h : c'.eraseOrigins = c.eraseOrigins) : c'.order = c.order :=
  show c'.eraseOrigins.order = c.eraseOrigins.order by rw [h]

/-- An instruction is appended to the erased code in the same way. -/
theorem eraseOrigins_push (c : Code) (op : Opcode) (next : Option InstrId) (origin : ExprId) :
    (c.push op next origin).eraseOrigins = c.eraseOrigins.push op next 0 := by
  rw [push, eraseOrigins, Array.map_push]
  rfl

/-- A change that commutes with erasing commutes with it at every place. -/
theorem eraseOrigins_modify (c : Code) (i : InstrId) {f : Instruction → Instruction}
    (hf : ∀ instr, (f instr).eraseOrigin = f instr.eraseOrigin) :
    eraseOrigins { c with instrs := c.instrs.modify i f } =
      { c.eraseOrigins with instrs := c.eraseOrigins.instrs.modify i f } := by
  have hinstrs : (c.instrs.modify i f).map Instruction.eraseOrigin =
      (c.instrs.map Instruction.eraseOrigin).modify i f := by
    refine Array.ext_getElem? fun j ↦ ?_
    rw [Array.getElem?_map, Array.getElem?_modify, Array.getElem?_modify, Array.getElem?_map]
    split
    · rw [Option.map_map, Option.map_map]
      exact congrArg (Option.map · _) (funext hf)
    · rfl
  rw [eraseOrigins, hinstrs]
  rfl

/-- Continuations are put in without regard to origins. -/
theorem eraseOrigins_patchNext (c : Code) (i next : InstrId) :
    (c.patchNext i next).eraseOrigins = c.eraseOrigins.patchNext i next :=
  c.eraseOrigins_modify i fun _ ↦ rfl

/-- So are operations. -/
theorem eraseOrigins_patchOp (c : Code) (i : InstrId) (op : Opcode) :
    (c.patchOp i op).eraseOrigins = c.eraseOrigins.patchOp i op :=
  c.eraseOrigins_modify i fun _ ↦ rfl

/-- Where instructions lead does not depend on origins. -/
theorem successors_eraseOrigins (c : Code) : c.eraseOrigins.successors = c.successors := by
  funext i
  rw [successors, successors, getElem?_eraseOrigins]
  cases c.instrs[i]? <;> rfl

/-- Placing a head does not look at origins. -/
theorem eraseOrigins_place (c : Code) (head : InstrId) :
    (c.place head).eraseOrigins = c.eraseOrigins.place head := by
  rw [place, place, successors_eraseOrigins, size_eraseOrigins]
  rfl

/-! ### Numbering -/

theorem targets_map_eraseOrigin (code : Array Instruction) (heads : List InstrId) :
    targets (code.map Instruction.eraseOrigin) heads = targets code heads := by
  rw [targets, targets, Array.zipIdx_map, Array.toList_map, List.flatMap_map]
  rfl

/-- Labels go to the targets of jumps, whatever these were made for. -/
theorem labelled_map_eraseOrigin (code : Array Instruction) (heads : List InstrId) :
    labelled (code.map Instruction.eraseOrigin) heads =
      (labelled code heads).map Instruction.eraseOrigin := by
  refine Array.ext_getElem? fun n ↦ ?_
  rw [getElem?_labelled, targets_map_eraseOrigin, Array.getElem?_map, Array.getElem?_map,
    getElem?_labelled, Option.map_map, Option.map_map]
  rfl

/-- The places follow from the order, which is not erased. -/
theorem places_eraseOrigins (c : Code) : c.eraseOrigins.places = c.places := by
  rw [places, places, size_eraseOrigins]
  rfl

/-- Numbering does not look at origins. -/
theorem numbered_eraseOrigins (c : Code) (heads : List InstrId) :
    c.eraseOrigins.numbered heads = (c.numbered heads).map Instruction.eraseOrigin := by
  have hplaced : c.eraseOrigins.order.filterMap (fun i ↦
      c.eraseOrigins.instrs[i]?.map (·.mapTargets (placeOf c.places))) =
      (c.order.filterMap fun i ↦ c.instrs[i]?.map (·.mapTargets (placeOf c.places))).map
        Instruction.eraseOrigin := by
    rw [Array.map_filterMap]
    refine congrArg (Array.filterMap · c.order) (funext fun i ↦ ?_)
    rw [getElem?_eraseOrigins, Option.map_map, Option.map_map]
    rfl
  rw [numbered, numbered, ← labelled_map_eraseOrigin, ← hplaced, places_eraseOrigins]

end Code

/-! ### Linking -/

namespace Session

variable {s s' : Session}

/-- The block of a callee is found by the bodies, the names and the blocks. -/
theorem target_eq (hbody : s'.grammar.body? = s.grammar.body?)
    (hname : s'.grammar.ruleName = s.grammar.ruleName) (hblocks : s'.blocks = s.blocks) :
    s'.target = s.target := by
  funext rule
  rw [target, target, block?, block?, hbody, hname, hblocks]

theorem linkInstruction_eq (htarget : s'.target = s.target) :
    s'.linkInstruction = s.linkInstruction := by
  funext c i
  rw [linkInstruction, linkInstruction, htarget]

/-- Linking one call does not look at origins. -/
theorem linkInstruction_eraseOrigins (s : Session) (c : Code) (i : InstrId) :
    s.linkInstruction c.eraseOrigins i = (s.linkInstruction c i).map Code.eraseOrigins := by
  unfold linkInstruction
  rw [Code.getElem?_eraseOrigins]
  rcases c.instrs[i]? with - | ⟨op, next, origin, label⟩
  · rfl
  · cases op with
    | call rule target =>
      show (do return c.eraseOrigins.patchOp i (.call rule (some (← s.target rule)))) =
        (do return c.patchOp i (.call rule (some (← s.target rule)))).map Code.eraseOrigins
      rcases s.target rule with e | head
      · rfl
      · exact congrArg Except.ok (c.eraseOrigins_patchOp i _).symm
    | _ => rfl

/-- Linking all of them, one after the other, does not either. -/
theorem foldlM_linkInstruction_eraseOrigins (s : Session) (order : List InstrId) (c : Code) :
    order.foldlM s.linkInstruction c.eraseOrigins =
      (order.foldlM s.linkInstruction c).map Code.eraseOrigins := by
  induction order generalizing c with
  | nil => rfl
  | cons i order ih =>
    rw [List.foldlM_cons, List.foldlM_cons, linkInstruction_eraseOrigins]
    rcases s.linkInstruction c i with e | c'
    · rfl
    · exact ih c'

/-- Finishing does not look at origins. -/
theorem erased_finish_eq (htarget : s'.target = s.target)
    (hcode : s'.code.eraseOrigins = s.code.eraseOrigins) (hmemo : s'.memo = s.memo)
    (hblocks : s'.blocks = s.blocks) :
    s'.finish.map Program.eraseOrigins = s.finish.map Program.eraseOrigins := by
  have hlinked : s'.linked.map Code.eraseOrigins = s.linked.map Code.eraseOrigins := by
    rw [linked, linked, ← foldlM_linkInstruction_eraseOrigins,
      ← foldlM_linkInstruction_eraseOrigins, linkInstruction_eq htarget, hcode,
      Code.order_eq_of_erased hcode]
  unfold finish
  rw [hmemo, hblocks]
  split
  · rfl
  · generalize s'.linked = linked', s.linked = linked at hlinked
    rcases linked' with e | c' <;> rcases linked with e | c
    · cases hlinked
      rfl
    · cases hlinked
    · cases hlinked
    · have herased : c'.eraseOrigins = c.eraseOrigins := Except.ok.inj hlinked
      have hplaces : c'.places = c.places := by
        rw [← c'.places_eraseOrigins, herased, c.places_eraseOrigins]
      have hnumbered (heads : List InstrId) : (c'.numbered heads).map Instruction.eraseOrigin =
          (c.numbered heads).map Instruction.eraseOrigin := by
        rw [← c'.numbered_eraseOrigins, herased, c.numbered_eraseOrigins]
      refine congrArg Except.ok ?_
      show Program.mk _ _ _ = Program.mk _ _ _
      rw [hnumbered, hplaces]

end Session

end ParsingMachine
