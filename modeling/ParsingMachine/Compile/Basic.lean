import ParsingMachine.Compile.Encode
import ParsingMachine.Compile.Error

/-!
# Compiling rules

`compile` makes a program of a list of rules; the first is the entry. Every rule that is called has
to be in the list. Calls are linked after all rules are encoded, so references may go forward and in
circles.

Encoding recurses within a depth. `encodingDepth` is enough for every grammar for which encoding
ends: on the way down no choice with a jump table is entered twice, and between two of these the
recursion goes down the operands of one body and through the nodes made by factoring. A computation
that would go deeper answers nothing.
-/

namespace ParsingMachine

/-- The number of nodes and operands. -/
def Grammar.weight (g : Grammar) : Nat :=
  g.size + Graph.edgeCount (fun e ↦ (g.op e).children) g.size

/-- A depth of recursion within which encoding ends, if it does. -/
def Grammar.encodingDepth (g : Grammar) : Nat :=
  (g.size + 1) * (4 * g.weight + 16)

namespace Session

/-- A session in which nothing is compiled yet. -/
def start (depth : Nat) (g : Grammar) (options : Options) : Session :=
  { options, depth, grammar := g }

/-- The block of a rule compiled in this session. -/
def block? (s : Session) (rule : RuleId) : Option Block :=
  s.blocks.find? (·.rule == rule)

/-- Encodes the body of a rule and places its code. -/
def encodeRule (rule : RuleId) (body : ExprId) : Encoder Unit := do
  let ret ← Encoder.emitEnd .ret body
  let head ← Encoder.encode (← get).depth body ret
  modify fun s ↦
    let start := s.code.order.size
    let code := s.code.place head
    { s with code, blocks := s.blocks.push { rule, head, start, stop := code.order.size } }

/-- Compiles a rule into a block of its own. A rule that has a block already is left alone, and an
undefined rule leaves the session as it was. The answer is nothing when encoding goes too deep
or a search in the grammar does not come to an end. -/
def compileRule (s : Session) (rule : RuleId) : Option (Except CompileError Session) :=
  if (s.block? rule).isSome then some (.ok s)
  else
    match s.grammar.body? rule with
    | none => some (.error (.undefinedRule (s.grammar.ruleName rule)))
    | some body => (encodeRule rule body s).map fun (_, s) ↦ .ok s

/-- A request to compile a rule, made to a session that goes on whatever the answer is. -/
def request (rule : RuleId) : Encoder (Except CompileError Unit) := do
  let s ← get
  if (s.block? rule).isSome then return .ok ()
  else
    match s.grammar.body? rule with
    | none => return .error (.undefinedRule (s.grammar.ruleName rule))
    | some body =>
      encodeRule rule body
      return .ok ()

/-! ### Linking -/

/-- Where calls to a rule go. -/
def target (s : Session) (rule : RuleId) : Except CompileError InstrId :=
  match s.block? rule, s.grammar.body? rule with
  | some block, _ => .ok block.head
  | none, none => .error (.undefinedRule (s.grammar.ruleName rule))
  | none, some _ => .error (.unlinkedCall (s.grammar.ruleName rule))

/-- Fills in the target of an instruction that is a call. -/
def linkInstruction (s : Session) (code : Code) (i : InstrId) : Except CompileError Code :=
  match code.instrs[i]? with
  | some { op := .call rule _, .. } => do
    return code.patchOp i (.call rule (some (← s.target rule)))
  | _ => .ok code

/-- Fills in the targets of all placed calls; the first in the order of placement that has none is
the error. -/
def linked (s : Session) : Except CompileError Code :=
  s.code.order.toList.foldlM s.linkInstruction s.code

/-- Links the calls and numbers the instructions. -/
def finish (s : Session) : Except CompileError Program := do
  if s.blocks.isEmpty then throw .emptyRuleList
  let code ← s.linked
  let places := code.places
  return {
    code := code.numbered (s.blocks.toList.map Block.head)
    blocks := s.blocks.map fun block ↦ { block with head := Code.placeOf places block.head }
    memoSlots := s.memo }

/-- Compiles rules one after the other, up to the first error. -/
def compileRules (s : Session) : List RuleId → Option (Option CompileError × Session)
  | [] => some (none, s)
  | rule :: rules =>
    match s.compileRule rule with
    | none => none
    | some (.error e) => some (some e, s)
    | some (.ok s) => compileRules s rules

end Session

/-- Compiles a list of rules within a depth of recursion. Answers the program or the error, and the
grammar with what compiling added to it. -/
def compileWithin (depth : Nat) (g : Grammar) (rules : List RuleId) (options : Options) :
    Option (Except CompileError Program × Grammar) :=
  match (Session.start depth g options).compileRules rules with
  | none => none
  | some (some e, s) => some (.error e, s.grammar)
  | some (none, s) => some (s.finish, s.grammar)

/-- Compiles a list of rules. -/
def compile (g : Grammar) (rules : List RuleId) (options : Options) :
    Option (Except CompileError Program × Grammar) :=
  compileWithin g.encodingDepth g rules options

end ParsingMachine
