import ParsingMachine.Grammar.Basic

/-!
# Simplifying expressions

`simplify` finds a node that may be encoded in place of another one. Results are recorded in the
grammar, so each node is looked at once and a repeated request gives the same id.

* A choice of bytes and byte classes becomes one byte class, their union.
* `!c₁ … !cₖ .` where every `cᵢ` is a byte or byte class becomes the complement of their union.
* The same shape with at least one `cᵢ` that is a literal of two or more bytes becomes the dispatch
  form `[fast] / .`, where `fast` holds the bytes that start none of the negated operands. This form
  is a hint to the encoder and is not equivalent to the sequence; it is made for sequences only and
  never becomes part of what another node is simplified to.
* A sequence of one item, or a reference to a rule, becomes what the item or the body of the rule
  becomes, if that is a terminal.

Everything else becomes itself. A node that is being simplified counts as its own result meanwhile,
which cuts recursion through rules: each level of the recursion marks another node, so the number of
nodes bounds the depth.
-/

namespace ParsingMachine.Grammar

/-! ### Shapes -/

/-- The bytes of a literal: a sequence of two or more given bytes. -/
def literalBytes? (g : Grammar) (e : ExprId) : Option (List UInt8) :=
  match g.op e with
  | .sequence items => if items.length < 2 then none else items.mapM fun item ↦ (g.op item).byte?
  | _ => none

/-- The class of a dispatch form: a choice of a byte class and any byte, in this order. -/
def dispatchForm? (g : Grammar) (e : ExprId) : Option ByteSet :=
  match g.op e with
  | .choice [fast, any] =>
    match g.op fast, g.op any with
    | .byteClass set, .anyByte => some set
    | _, _ => none
  | _ => none

/-! ### One node, given the results for others -/

section

variable (recur : ExprId → Builder ExprId)

/-- The union of the byte sets to which `alts` are simplified, if all are. The first alternative
that is not ends the search. -/
def unionOf (set : ByteSet) : List ExprId → Builder (Option ByteSet)
  | [] => pure (some set)
  | alt :: alts => do
    let alt ← recur alt
    match ((← get).op alt).byteSet? with
    | some s => unionOf (set.union s) alts
    | none => pure none

/-- The bytes that start one of the negated operands, and whether one of these is a literal; `none`
as soon as an item is no negation or its operand neither a byte set nor a literal. -/
def negatedStarts (starts : ByteSet) (hasLiteral : Bool) :
    List ExprId → Builder (Option (ByteSet × Bool))
  | [] => pure (some (starts, hasLiteral))
  | item :: items => do
    match (← get).op item with
    | .not inner =>
      let inner ← recur inner
      let g ← get
      match (g.op inner).byteSet?, g.literalBytes? inner with
      | some set, _ => negatedStarts (starts.union set) hasLiteral items
      | none, some (first :: _) => negatedStarts (starts.insert first) true items
      | none, _ => pure none
    | _ => pure none

/-- The result for a sequence of negations and any byte, if `items` are of that shape. -/
def negatedLookahead (e : ExprId) (items : List ExprId) : Builder (Option ExprId) := do
  match items.getLast? with
  | none => pure none
  | some last =>
    let nots := items.dropLast
    if nots.isEmpty then pure none
    else
      let last ← recur last
      match (← get).op last with
      | .anyByte =>
        match ← negatedStarts recur .empty false nots with
        | none => pure none
        | some (starts, hasLiteral) =>
          let span := (← get).span e
          let fast := starts.compl
          let set ← allocAt (.byteClass fast) span
          if hasLiteral then
            let any ← allocAt .anyByte span
            some <$> allocAt (.choice [set, any]) span
          else pure (some set)
      | _ => pure none

/-- The result for `other` if that is a terminal, else `e` itself. -/
def terminalOr (e other : ExprId) : Builder ExprId := do
  let other ← recur other
  if ((← get).op other).isTerminal then pure other else pure e

/-- The result for a node. -/
def simplifyNode (e : ExprId) : Builder ExprId := do
  match (← get).op e with
  | .choice alts =>
    match ← unionOf recur .empty alts with
    | some set =>
      let span := (← get).span e
      allocAt (.byteClass set) span
    | none => pure e
  | .sequence [only] => terminalOr recur e only
  | .sequence items => return (← negatedLookahead recur e items).getD e
  | .reference rule =>
    match (← get).body? rule with
    | some body => terminalOr recur e body
    | none => pure e
  | _ => pure e

end

/-! ### The recorded result -/

/-- The result for a node with at most `depth` levels of recursion, recorded in the grammar. -/
def simplifyWithin : Nat → ExprId → Builder ExprId
  | 0, e => pure e
  | depth + 1, e => do
    match (← get).simplified? e with
    | some done => pure done
    | none =>
      modify (·.setSimplified e e)
      let simpler ← simplifyNode (simplifyWithin depth) e
      modify (·.setSimplified e simpler)
      pure simpler

/-- The node that may be encoded in place of a node, recorded in the grammar. -/
def simplify (e : ExprId) : Builder ExprId := do
  simplifyWithin ((← get).size + 1) e

end ParsingMachine.Grammar
