import ParsingMachine.Grammar.Reach
import ParsingMachine.Program.Basic

/-!
# Planning memo slots

A memo slot belongs to one expression node and is shared by all references that come down to that
node. Links have slots of their own, apart from those of plain references, because their entries
hold a tree node. A slot whose results can depend on symbols or indentation keys its entries by
these.
-/

namespace ParsingMachine

/-- The slot for an expression, made on first request if it can be said what its results depend
on. -/
def issueMemo (g : Grammar) (label : String) (expr : ExprId) (node : Bool)
    (slots : Array MemoSlot) : Option (MemoSlot × Array MemoSlot) :=
  match slots.find? fun slot ↦ slot.expr == expr && slot.node == node with
  | some slot => some (slot, slots)
  | none => do
    let contextSensitive ← g.find? Operator.isStateQuery [] expr
    let slot : MemoSlot := { id := slots.size, label, expr, node, contextSensitive }
    return (slot, slots.push slot)

end ParsingMachine
