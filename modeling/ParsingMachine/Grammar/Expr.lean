import ParsingMachine.Byte.Set
import ParsingMachine.Grammar.Span

/-!
# Expressions of a parsing grammar

An expression is a node of an arena: an operator whose operands are the ids of other nodes. The id
is the identity of a node. Code is shared, prefixes are compared and memo slots are keyed by id,
never by structure.

Operators fall into three groups: recognition (bytes, sequence, ordered choice, repetition,
look-ahead, references to rules), construction of a syntax tree (`construct`, `mark`, `link`), and
scoped parse state (`block`, symbols, indentation).
-/

namespace ParsingMachine

/-- The position of an expression node in its arena. -/
abbrev ExprId := Nat

/-- The position of a rule in the rule table. -/
abbrev RuleId := Nat

/-- Operators without operands that touch only the syntax tree under construction. They always
succeed and consume nothing. -/
inductive TreeMark where
  /-- Starts a node; `left` folds the current node in as its first child. -/
  | new (left : Bool)
  /-- Ends the current node. -/
  | capture
  /-- Names the current node. -/
  | tag (text : String)
  /-- Gives the current node a text of its own. -/
  | replace (text : String)
  deriving DecidableEq

/-- A grammar operator. -/
inductive Operator where
  /-- Succeeds and consumes nothing. -/
  | empty
  /-- Fails. -/
  | fail
  /-- Any single byte; fails only at end of input. -/
  | anyByte
  /-- One given byte. -/
  | byte (b : UInt8)
  /-- One byte of a set. -/
  | byteClass (set : ByteSet)
  /-- All items, one after the other. -/
  | sequence (items : List ExprId)
  /-- Ordered choice: the first alternative that succeeds wins. -/
  | choice (alts : List ExprId)
  /-- Zero or more. The flag is raised when `inner` may succeed without consuming. -/
  | star (inner : ExprId) (nullable : Bool)
  /-- One or more. -/
  | plus (inner : ExprId) (nullable : Bool)
  /-- Zero or one. -/
  | optional (inner : ExprId)
  /-- Succeeds exactly when `inner` does, and consumes nothing. -/
  | and (inner : ExprId)
  /-- Succeeds exactly when `inner` fails, and consumes nothing. -/
  | not (inner : ExprId)
  /-- The body of a rule. -/
  | reference (rule : RuleId)
  /-- Starts a tree node, matches the body and captures the node. -/
  | construct (body : List ExprId) (left : Bool)
  /-- A tree operator without operands. -/
  | mark (m : TreeMark)
  /-- Attaches the tree node built by `inner` to its parent; a negative index appends. -/
  | link (inner : ExprId) (index : Int)
  /-- Symbols defined inside are dropped at the end. -/
  | block (inner : ExprId)
  /-- Matches `inner` and defines the matched text as a symbol of a table. -/
  | defSymbol (table : String) (inner : ExprId)
  /-- Matches `inner` and requires the matched text to be a symbol of a table, the most recent one
  when `lastOnly` is set. -/
  | isSymbol (table : String) (inner : ExprId) (lastOnly : Bool)
  /-- Records the indentation at this position. -/
  | defIndent
  /-- Requires the indentation recorded last. -/
  | isIndent
  deriving DecidableEq

namespace Operator

instance : Inhabited Operator := ⟨fail⟩

/-- The operands in matching order. A reference has none: the body of its rule is not an operand. -/
def children : Operator → List ExprId
  | sequence items => items
  | choice alts => alts
  | construct body _ => body
  | star inner _ | plus inner _ | optional inner | and inner | not inner | link inner _
  | block inner | defSymbol _ inner | isSymbol _ inner _ => [inner]
  | empty | fail | anyByte | byte _ | byteClass _ | reference _ | mark _ | defIndent | isIndent =>
    []

/-- Whether the operator matches exactly one byte. -/
def isTerminal : Operator → Bool
  | anyByte | byte _ | byteClass _ => true
  | _ => false

/-- Whether the operator touches the syntax tree under construction. -/
def isTreeOperator : Operator → Bool
  | construct _ _ | mark _ | link _ _ => true
  | _ => false

/-- Whether the outcome depends on the symbol table or on the recorded indentation. -/
def isStateQuery : Operator → Bool
  | isSymbol _ _ _ | isIndent => true
  | _ => false

/-- Whether the operator is an ordered choice. -/
def isChoice : Operator → Bool
  | choice _ => true
  | _ => false

/-- The set of bytes tested, if the operator tests a given byte or a byte class. -/
def byteSet? : Operator → Option ByteSet
  | byte b => some (.singleton b)
  | byteClass set => some set
  | _ => none

/-- The byte tested, if the operator tests a given byte. -/
def byte? : Operator → Option UInt8
  | byte b => some b
  | _ => none

end Operator

/-- A node of the arena. -/
structure Expr where
  /-- What the node does. -/
  op : Operator
  /-- Where it stands in the text of the grammar. -/
  span : Span
  deriving DecidableEq, Inhabited

end ParsingMachine
