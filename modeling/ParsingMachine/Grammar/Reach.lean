import ParsingMachine.Grammar.Basic
import ParsingMachine.Graph.Explore

/-!
# Reachability in a grammar

Which nodes an expression is made of: its operands, their operands, and so on (`operandsFrom`).

Two questions about rules are answered by a search that goes down the operands and enters the rules
that are referred to, each of them once (`find`): whether matching can touch the syntax tree under
construction (`isTreeFree`), and whether the outcome can depend on parse state
(`isContextSensitive`).

`resolve` follows a reference through rules whose bodies are references themselves.
-/

namespace ParsingMachine.Grammar

/-- The nodes reachable from `roots` through operands. -/
def operandsFrom (g : Grammar) (roots : List ExprId) : List ExprId :=
  (Graph.explore (fun e ↦ (g.op e).children) g.size roots #[]).toList

/-! ### Questions about rules -/

/-- How deep an analysis can go that enters no rule twice: down the operands of one rule body after
another. -/
def analysisDepth (g : Grammar) : Nat :=
  (g.ruleCount + 1) * (g.size + 1) + 1

/-- A search that carries the rules entered so far. It answers nothing when it does not come to an
end in the grammar. -/
abbrev Search := StateT (List RuleId) Option

/-- Looks for an operator that passes a test at a node, given how other nodes are searched. A
reference to a rule that was entered before, on whatever branch, is not followed again. The operands
come before the node itself; a find ends the whole search, so the answer does not depend on this. -/
def findAt (g : Grammar) (test : Operator → Bool) (recur : ExprId → Search Bool) (e : ExprId) :
    Search Bool := do
  match g.op e with
  | .reference rule =>
    if (← get).contains rule then pure false
    else
      modify (rule :: ·)
      match g.body? rule with
      | some body => recur body
      | none => pure false
  | op =>
    if ← op.children.anyM recur then pure true
    else pure (test op)

/-- Looks for an operator that passes a test from a node on, at most `depth` levels down and among
the nodes of the grammar. -/
def findWithin (g : Grammar) (test : Operator → Bool) : Nat → ExprId → Search Bool
  | 0, _ => failure
  | depth + 1, e => if e < g.size then g.findAt test (findWithin g test depth) e else failure

/-- Whether a search from a node, with some rules entered already, finds an operator that passes a
test, if it comes to an end. -/
def find? (g : Grammar) (test : Operator → Bool) (entered : List RuleId) (e : ExprId) :
    Option Bool :=
  (g.findWithin test g.analysisDepth e entered).map Prod.fst

/-- Whether a search from a node, with some rules entered already, finds an operator that passes a
test or does not come to an end. -/
def find (g : Grammar) (test : Operator → Bool) (entered : List RuleId) (e : ExprId) : Bool :=
  (g.find? test entered e).getD true

/-- Whether matching a rule can never touch the syntax tree under construction. -/
def isTreeFree (g : Grammar) (rule : RuleId) : Bool :=
  match g.body? rule with
  | some body => !g.find Operator.isTreeOperator [rule] body
  | none => true

/-- Whether the outcome of matching a node can depend on symbols or indentation. -/
def isContextSensitive (g : Grammar) (e : ExprId) : Bool :=
  g.find Operator.isStateQuery [] e

/-! ### References -/

/-- Follows at most `n` references from `e`, stopping at a rule followed before. -/
def resolveSteps (g : Grammar) : Nat → List RuleId → ExprId → ExprId
  | 0, _, e => e
  | n + 1, followed, e =>
    match g.op e with
    | .reference rule =>
      if followed.contains rule then e
      else
        match g.body? rule with
        | some body => resolveSteps g n (rule :: followed) body
        | none => e
    | _ => e

/-- Follows references until a node that is not a reference to a defined rule. On a cycle of pure
references it stops at the first reference to a rule followed before. Each step follows another
defined rule, so their number bounds the steps. -/
def resolve (g : Grammar) (e : ExprId) : ExprId :=
  g.resolveSteps (g.ruleCount + 1) [] e

/-! ### Subtrees -/

/-- Puts the ids met from `e` through operands down to a given depth before `rest`, the last operand
first; a shared node is listed once for each path to it. -/
def subtreeOnto (g : Grammar) : (depth : Nat) → (rest : List ExprId) → ExprId → List ExprId
  | 0, rest, _ => rest
  | depth + 1, rest, e => e :: (g.op e).children.foldl (subtreeOnto g depth) rest

/-- The ids met from `e` through operands. No path is longer than the number of nodes. -/
def subtree (g : Grammar) (e : ExprId) : List ExprId :=
  g.subtreeOnto (g.size + 1) [] e

theorem subtreeOnto_eq_append (g : Grammar) (depth : Nat) (rest : List ExprId) (e : ExprId) :
    g.subtreeOnto depth rest e = g.subtreeOnto depth [] e ++ rest := by
  induction depth generalizing rest e with
  | zero => rfl
  | succ depth ih =>
    have key (children : List ExprId) (first : List ExprId) :
        children.foldl (subtreeOnto g depth) (first ++ rest) =
          children.foldl (subtreeOnto g depth) first ++ rest := by
      induction children generalizing first with
      | nil => rfl
      | cons child children ihc =>
        rw [List.foldl_cons, List.foldl_cons, ih, ih first, ← List.append_assoc, ihc]
    simpa [subtreeOnto] using key (g.op e).children []

end ParsingMachine.Grammar
