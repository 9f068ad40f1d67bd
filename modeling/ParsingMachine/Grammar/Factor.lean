import ParsingMachine.Grammar.Reach

/-!
# Factoring common prefixes of alternatives

Two neighbouring alternatives that begin with the same nodes, `p s / p t`, are merged into `p (s /
t)`. Nodes are compared by id. A reference to a rule is looked through for the comparison, so `A /
"x" B` with `A = "x" C` shares `"x"`. Rules stay as they are; only new nodes are made.
-/

namespace ParsingMachine.Grammar

/-! ### Alternatives as lists -/

/-- An alternative as a list of items, looking through references. -/
def elements (g : Grammar) (e : ExprId) : List ExprId :=
  let e := g.resolve e
  match g.op e with
  | .sequence items => items
  | _ => [e]

/-- Whether two alternatives begin with the same node. -/
def sameHead (g : Grammar) (a b : ExprId) : Bool :=
  match (g.elements a).head?, (g.elements b).head? with
  | some x, some y => x == y
  | _, _ => false

/-- The items that a node contributes to a sequence. -/
def sequenceItems (g : Grammar) (e : ExprId) : List ExprId :=
  match g.op e with
  | .sequence items => items
  | .empty => []
  | _ => [e]

/-- The alternatives that a node contributes to a choice. -/
def choiceItems (g : Grammar) (e : ExprId) : List ExprId :=
  match g.op e with
  | .choice alts => alts
  | _ => [e]

/-- The longest list with which both lists begin. -/
def sharedHead : List ExprId → List ExprId → List ExprId
  | x :: xs, y :: ys => if x = y then x :: sharedHead xs ys else []
  | _, _ => []

/-! ### Merging -/

/-- The sequence of `items`, with the items of nested sequences in their place. -/
def flatSequence (items : List ExprId) : Builder ExprId := do
  let g ← get
  sequence (items.flatMap g.sequenceItems)

/-- The merged form of two alternatives, if they begin with the same node. -/
def mergeAlternatives (a b : ExprId) : Builder (Option ExprId) := do
  let g ← get
  let a := g.elements a
  let b := g.elements b
  let shared := sharedHead a b
  if shared.isEmpty then pure none
  else
    let restA ← flatSequence (a.drop shared.length)
    let restB ← flatSequence (b.drop shared.length)
    let g ← get
    let suffix ← choice (g.choiceItems restA ++ g.choiceItems restB)
    let g ← get
    some <$> flatSequence (shared ++ g.sequenceItems suffix)

/-- Merges `common` with the following alternatives as long as they begin with the same node, and
answers the resulting alternatives. -/
def mergeFollowing (common : ExprId) : List ExprId → Builder (List ExprId)
  | [] => pure [common]
  | alt :: alts => do
    match ← mergeAlternatives common alt with
    | some merged => mergeFollowing merged alts
    | none => return common :: (← mergeFollowing alt alts)

/-- Splits a list of alternatives before the first neighbouring pair that begins with the same
node. -/
def splitAtShared (g : Grammar) : List ExprId → Option (List ExprId × ExprId × ExprId × List ExprId)
  | a :: b :: rest =>
    if g.sameHead a b then some ([], a, b, rest)
    else (g.splitAtShared (b :: rest)).map fun (before, pair) ↦ (a :: before, pair)
  | _ => none

/-- Factors a choice in one pass from left to right; `none` when the node is no choice or no
neighbouring alternatives begin with the same node. -/
def factorCommonHead (e : ExprId) : Builder (Option ExprId) := do
  let g ← get
  match g.op e with
  | .choice alts =>
    match g.splitAtShared alts with
    | none => pure none
    | some (before, a, b, rest) =>
      match ← mergeAlternatives a b with
      | none => pure none
      | some common => some <$> choice (before ++ (← mergeFollowing common rest))
  | _ => pure none

end ParsingMachine.Grammar
