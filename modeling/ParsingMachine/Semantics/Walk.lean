import ParsingMachine.Grammar.Basic
import ParsingMachine.Semantics.ParseState
import ParsingMachine.Source.Resident

/-!
# Matching by walking the grammar

The meaning of an expression: from a position and a parse state it either fails or succeeds at a
position, and leaves a parse state. `eval` walks the grammar and computes this directly, with
ordinary ordered-choice semantics. An alternative that fails gives the parse state back as it was;
look-ahead by negation and optional operands do the same.

Recursive rules need not end, so the walk is bounded by a number of steps, one for each node
evaluated, and answers nothing when they run out. The same number bounds the depth of the walk and
the rounds of a repetition, neither of which can be greater than the number of steps. That an
expression is meant to have a result is said by "for some number of steps".
-/

namespace ParsingMachine

/-- What a walk carries besides its position. -/
structure WalkState where
  /-- Symbols, blocks and indentation. -/
  parse : ParseState := {}
  /-- How many steps are left. -/
  steps : Nat
  deriving DecidableEq

/-- A computation that may run out of steps. -/
abbrev Walk := StateT WalkState Option

namespace Walk

/-- Takes one step. -/
def spend : Walk Unit := fun s ↦
  match s.steps with
  | 0 => none
  | n + 1 => some ((), { s with steps := n })

/-- The current parse state. -/
def parseState : Walk ParseState := do
  return (← get).parse

/-- Replaces the parse state. -/
def setParseState (parse : ParseState) : Walk Unit :=
  modify ({ · with parse })

/-- Runs out of steps. -/
def exhausted {α : Type} : Walk α := fun _ ↦ none

section

variable (recur : ExprId → Nat → Walk (Option Nat))

/-- Items one after the other. -/
def inSequence : List ExprId → Nat → Walk (Option Nat)
  | [], pos => pure (some pos)
  | item :: items, pos => do
    match ← recur item pos with
    | some next => inSequence items next
    | none => pure none

/-- The first alternative that succeeds. -/
def inChoice : List ExprId → Nat → Walk (Option Nat)
  | [], _ => pure none
  | alt :: alts, pos => do
    let saved ← parseState
    match ← recur alt pos with
    | some stop => pure (some stop)
    | none =>
      setParseState saved
      inChoice alts pos

/-- Zero or more rounds, up to the first that fails or consumes nothing. -/
def repeated (inner : ExprId) : Nat → Nat → Walk Nat
  | 0, _ => exhausted
  | rounds + 1, pos => do
    let saved ← parseState
    match ← recur inner pos with
    | some next => if next = pos then pure pos else repeated inner rounds next
    | none =>
      setParseState saved
      pure pos

end

end Walk

namespace Grammar

/-- The result of an operator at a position, given the results of nodes. -/
def evalOp (g : Grammar) (src : Resident) (rounds : Nat)
    (recur : ExprId → Nat → Walk (Option Nat)) (op : Operator) (pos : Nat) : Walk (Option Nat) := do
  match op with
  | .empty | .mark _ => pure (some pos)
  | .fail => pure none
  | .anyByte => pure (src.text[pos]?.map fun _ ↦ pos + 1)
  | .byte b => pure (if src.text[pos]? = some b then some (pos + 1) else none)
  | .byteClass set => pure ((src.text[pos]?.filter set.contains).map fun _ ↦ pos + 1)
  | .sequence items | .construct items _ => Walk.inSequence recur items pos
  | .choice alts => Walk.inChoice recur alts pos
  | .star inner _ => some <$> Walk.repeated recur inner rounds pos
  | .plus inner _ =>
    match ← recur inner pos with
    | some next => some <$> Walk.repeated recur inner rounds next
    | none => pure none
  | .optional inner =>
    let saved ← Walk.parseState
    match ← recur inner pos with
    | some stop => pure (some stop)
    | none =>
      Walk.setParseState saved
      pure (some pos)
  | .and inner => return (← recur inner pos).map fun _ ↦ pos
  | .not inner =>
    let saved ← Walk.parseState
    let result ← recur inner pos
    Walk.setParseState saved
    pure (if result.isSome then none else some pos)
  | .reference rule =>
    match g.body? rule with
    | some body => recur body pos
    | none => pure none
  | .link inner _ => recur inner pos
  | .block inner =>
    Walk.setParseState (← Walk.parseState).openScope
    let result ← recur inner pos
    Walk.setParseState (← Walk.parseState).closeScope
    pure result
  | .defSymbol table inner =>
    let result ← recur inner pos
    match result with
    | some stop =>
      Walk.setParseState ((← Walk.parseState).define table (src.subbytes pos stop))
      pure (some stop)
    | none => pure none
  | .isSymbol table inner lastOnly =>
    match ← recur inner pos with
    | some stop =>
      let defined := (← Walk.parseState).isSymbol table (src.subbytes pos stop) lastOnly
      pure (if defined then some stop else none)
    | none => pure none
  | .defIndent =>
    Walk.setParseState ((← Walk.parseState).pushIndent (Buffer.indent pos src).1)
    pure (some pos)
  | .isIndent =>
    let indent := (← Walk.parseState).lastIndent
    pure (if src.matchesAt pos indent then some (pos + indent.length) else none)

/-- The result of a node at a position, within a depth. -/
def eval (g : Grammar) (src : Resident) : Nat → ExprId → Nat → Walk (Option Nat)
  | 0, _, _ => Walk.exhausted
  | depth + 1, e, pos => do
    Walk.spend
    g.evalOp src depth (eval g src depth) (g.op e) pos

/-- Matches a rule against an input from its start, within a number of steps. A rule without a body
matches nothing. -/
def interpret (g : Grammar) (steps : Nat) (rule : RuleId) (input : Array UInt8) : Outcome :=
  match g.body? rule with
  | none => .failed
  | some body =>
    match (g.eval { text := input } (steps + 1) body 0).run { steps } with
    | some (some stop, _) => .matched stop
    | some (none, _) => .failed
    | none => .diverged

end Grammar

end ParsingMachine
