import ParsingMachine.Grammar.FirstByte

/-!
# Jump tables of choices

The first-byte answers for the alternatives of a choice make up its jump table: a slot holds what
has to be tried when that byte is next. `makeTable` finds the table of one choice, and
`attachTables` attaches a table to every choice that can be reached from a rule, where at least one
slot is narrower than the choice.
-/

namespace ParsingMachine.Grammar

/-! ### The table of one choice -/

/-- The places in `alts` of the alternatives that may succeed for a slot. -/
def viable (g : Grammar) (alts : List ExprId) (slot : Nat) : List Nat :=
  (alts.zipIdx.filter fun (alt, _) ↦ g.accept alt slot != .reject).map Prod.snd

/-- Nodes made while a jump table is filled. -/
structure Narrowed where
  /-- The node for slots without a viable alternative. -/
  failure : Option ExprId := none
  /-- The choice made for each set of viable alternatives, newest entry first. -/
  subsets : List (List Nat × ExprId) := []

/-- The entry of a jump table for a slot with the given viable alternatives: the choice itself if
all are viable, else a node that fails, the only viable alternative, or a choice of the viable ones
in their order. Nodes are made once and shared by the slots that need them. -/
def tableEntry (choice : ExprId) (alts : List ExprId) (viable : List Nat) :
    StateT Narrowed Builder ExprId := do
  if viable.length = alts.length then return choice
  else
    match viable with
    | [] =>
      match (← get).failure with
      | some node => pure node
      | none =>
        let node ← alloc .fail
        modify ({ · with failure := some node })
        pure node
    | [i] => pure (alts.getD i 0)
    | _ =>
      match (← get).subsets.lookup viable with
      | some node => pure node
      | none =>
        let node ← alloc (.choice (viable.map fun i ↦ alts.getD i 0))
        modify fun s ↦ { s with subsets := (viable, node) :: s.subsets }
        pure node

/-- The jump table of a choice; `none` when the node is no choice or when every alternative is
viable for every slot. -/
def makeTable (choice : ExprId) : Builder (Option JumpTable) := do
  let g ← get
  match g.op choice with
  | .choice alts =>
    let viables := (List.range slotCount).map (g.viable alts)
    if viables.all (·.length = alts.length) then pure none
    else
      let (table, _) ← (viables.mapM (tableEntry choice alts)).run {}
      pure (some table)
  | _ => pure none

/-! ### Attaching tables -/

/-- The choices reachable from rule bodies through operands, by ascending id. -/
def reachableChoices (g : Grammar) : List ExprId :=
  let reachable := g.operandsFrom (g.rules.toList.filterMap Rule.body)
  (List.range g.size).filter fun e ↦ (g.op e).isChoice && reachable.contains e

/-- Attaches a jump table to a choice that has none, if there is one; answers whether there is. -/
def attachTable (choice : ExprId) : Builder Bool := do
  if ((← get).table? choice).isSome then pure false
  else
    match ← makeTable choice with
    | some table =>
      modify (·.setTable choice table)
      pure true
    | none => pure false

/-- Attaches jump tables to the choices reachable from rule bodies, and answers how many were
attached. Choices that have one already are left alone. -/
def attachTables : Builder Nat := do
  let attached ← (← get).reachableChoices.mapM attachTable
  pure (attached.count true)

end ParsingMachine.Grammar
