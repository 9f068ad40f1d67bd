import ParsingMachine.Grammar.Expr
import Std.Data.TreeMap

/-!
# Grammars

A grammar is an arena of expression nodes and a table of named rules. Nodes are only ever appended,
so an id that was handed out stays valid and its node never changes. Two side tables hold what later
passes attach to a node: the simpler node found for it, and the jump table of a choice.

Lookup is total. An id outside the arena behaves as a node that always fails, and a rule outside the
table as a rule without a body.
-/

namespace ParsingMachine

/-- A named production. It has no body between its declaration and its definition; references to it
may be built in between. -/
structure Rule where
  /-- The name by which the rule is declared. -/
  name : String
  /-- What the rule matches, once defined. -/
  body : Option ExprId := none
  /-- The span of the body. -/
  span : Span := .synthetic
  deriving DecidableEq, Inhabited

/-- A jump table by the next byte: one entry for each byte value and one for end of input. -/
abbrev JumpTable := List ExprId

/-- The number of entries of a jump table. -/
def slotCount : Nat := 257

/-- The entry of a jump table for end of input. -/
def endSlot : Nat := 256

/-- An expression arena and the rules that name parts of it. -/
structure Grammar where
  /-- The nodes; an id is a position in this array. -/
  nodes : Array Expr := #[]
  /-- The rules; a rule id is a position in this array. -/
  rules : Array Rule := #[]
  /-- The simpler node found for a node. -/
  simplified : Std.TreeMap ExprId ExprId := {}
  /-- The jump table attached to a choice. -/
  tables : Std.TreeMap ExprId JumpTable := {}
  deriving Inhabited

/-- A computation that may extend a grammar. -/
abbrev Builder := StateM Grammar

namespace Grammar

/-! ### Nodes -/

/-- The number of nodes. -/
def size (g : Grammar) : Nat :=
  g.nodes.size

/-- The operator of a node. -/
def op (g : Grammar) (e : ExprId) : Operator :=
  match g.nodes[e]? with
  | some node => node.op
  | none => .fail

/-- The span of a node. -/
def span (g : Grammar) (e : ExprId) : Span :=
  match g.nodes[e]? with
  | some node => node.span
  | none => .synthetic

/-- Appends a node. -/
def push (g : Grammar) (op : Operator) (span : Span) : Grammar :=
  { g with nodes := g.nodes.push ⟨op, span⟩ }

/-- Appends a node and answers its id. -/
def allocAt (op : Operator) (span : Span) : Builder ExprId :=
  fun g ↦ (g.size, g.push op span)

/-- Appends a node that stands nowhere in the text of the grammar. -/
def alloc (op : Operator) : Builder ExprId :=
  allocAt op .synthetic

/-- The sequence of `items`: nothing for no item, and a single item is the sequence itself. -/
def sequence : List ExprId → Builder ExprId
  | [] => alloc .empty
  | [item] => pure item
  | items => alloc (.sequence items)

/-- The ordered choice of `alts`: failure for no alternative, and a single alternative is the choice
itself. -/
def choice : List ExprId → Builder ExprId
  | [] => alloc .fail
  | [alt] => pure alt
  | alts => alloc (.choice alts)

/-- A byte string: one node for each byte, in sequence. -/
def literal (bytes : List UInt8) : Builder ExprId := do
  sequence (← bytes.mapM fun b ↦ alloc (.byte b))

/-! ### Side tables -/

/-- The simpler node found for a node, if simplification has visited it; the node itself if there is
none. -/
def simplified? (g : Grammar) (e : ExprId) : Option ExprId :=
  g.simplified[e]?

/-- Records the simpler node found for a node. -/
def setSimplified (g : Grammar) (e simpler : ExprId) : Grammar :=
  { g with simplified := g.simplified.insert e simpler }

@[simp] theorem simplified?_setSimplified (g : Grammar) (e simpler other : ExprId) :
    (g.setSimplified e simpler).simplified? other =
      if other = e then some simpler else g.simplified? other := by
  simp only [simplified?, setSimplified, Std.TreeMap.getElem?_insert, Nat.compare_eq_eq,
    eq_comm (a := e)]

/-- The jump table attached to a node. -/
def table? (g : Grammar) (e : ExprId) : Option JumpTable :=
  g.tables[e]?

/-- Attaches a jump table to a node. -/
def setTable (g : Grammar) (e : ExprId) (table : JumpTable) : Grammar :=
  { g with tables := g.tables.insert e table }

@[simp] theorem table?_setTable (g : Grammar) (e : ExprId) (table : JumpTable) (other : ExprId) :
    (g.setTable e table).table? other = if other = e then some table else g.table? other := by
  simp only [table?, setTable, Std.TreeMap.getElem?_insert, Nat.compare_eq_eq, eq_comm (a := e)]

/-- Attaches a jump table given from outside; refused unless it has one entry for each slot. -/
def attachTable? (g : Grammar) (e : ExprId) (table : JumpTable) : Option Grammar :=
  if table.length = slotCount then some (g.setTable e table) else none

/-! ### Rules -/

/-- The number of rules. -/
def ruleCount (g : Grammar) : Nat :=
  g.rules.size

/-- The body of a rule, if it is defined. -/
def body? (g : Grammar) (rule : RuleId) : Option ExprId :=
  g.rules[rule]?.bind Rule.body

/-- The name of a rule. -/
def ruleName (g : Grammar) (rule : RuleId) : String :=
  match g.rules[rule]? with
  | some entry => entry.name
  | none => ""

/-- The rule declared under a name. -/
def ruleByName? (g : Grammar) (name : String) : Option RuleId :=
  g.rules.findIdx? (·.name == name)

/-- The rule of a name, declared without a body if there is none yet. -/
def declareRule (name : String) : Builder RuleId := fun g ↦
  match g.ruleByName? name with
  | some rule => (rule, g)
  | none => (g.rules.size, { g with rules := g.rules.push { name } })

/-- The grammar in which `body` is the body of a declared rule. Only the rule's entry changes: the
side tables stay as they are. -/
def defineRule (g : Grammar) (rule : RuleId) (body : ExprId) : Grammar :=
  { g with rules := g.rules.modify rule fun entry ↦
      { entry with body := some body, span := g.span body } }

/-- Declares and defines a rule. -/
def addRule (name : String) (body : ExprId) : Builder RuleId := do
  let rule ← declareRule name
  modify (·.defineRule rule body)
  pure rule

/-! ### Well-formed arenas -/

/-- Every node was built after its operands. -/
def BottomUp (g : Grammar) : Prop :=
  ∀ e < g.size, ∀ child ∈ (g.op e).children, child < e

end Grammar

end ParsingMachine
