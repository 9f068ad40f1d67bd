import ParsingMachine.Compile.Session
import ParsingMachine.Grammar.Factor
import ParsingMachine.Grammar.FirstByte
import ParsingMachine.Grammar.Simplify
import ParsingMachine.Grammar.Tree

/-!
# Encoding expressions

Encoding takes an expression and the code that runs after it succeeds, and answers the code for
"this expression, then that". A sequence is therefore encoded from its end, and several expressions
may share one continuation.

Each function below encodes one operator, given how to encode other nodes. `encode` ties the knot
within a depth of recursion.
-/

namespace ParsingMachine.Encoder

/-! ### Simplified operands -/

/-- The simplified form of a node when specialization is on, else the node itself. -/
def simplified (e : ExprId) : Encoder ExprId := do
  if (← options).specialize then build (Grammar.simplify e) else pure e

/-- The byte set tested by the simplified form of a node, when specialization is on. -/
def specializedSet? (e : ExprId) : Encoder (Option ByteSet) := do
  if (← options).specialize then
    let e ← build (Grammar.simplify e)
    return ((← grammar).op e).byteSet?
  else pure none

section

variable (recur : ExprId → InstrId → Encoder InstrId)

/-! ### Sequences -/

/-- Items one after the other, from the last. -/
def itemsCode (items : List ExprId) (next : InstrId) : Encoder InstrId :=
  items.foldrM recur next

/-- A sequence. When it has a dispatch form, bytes that start no negated operand go straight to the
final byte, and the others run the full sequence. -/
def sequenceCode (e : ExprId) (items : List ExprId) (next : InstrId) : Encoder InstrId := do
  let other ← simplified e
  if other ≠ e ∧ ((← grammar).op other).isTerminal then recur other next
  else
    let start ← itemsCode recur items next
    let g ← grammar
    match (if other = e then none else g.dispatchForm? other) with
    | some fast =>
      let any ← emit .anyByte next other
      let table := (List.range slotCount).map fun slot ↦
        if Grammar.slotIn fast slot then any else start
      emitEnd (.dispatch table) e
    | none => pure start

/-! ### Choices -/

/-- Each alternative in order; a failure goes back and on to the next. -/
def alternativesCode (e : ExprId) (next : InstrId) : List ExprId → Encoder InstrId
  | [] => emitEnd .fail e
  | [last] => recur last next
  | alt :: alts => do
    let rest ← alternativesCode e next alts
    let pop ← emit .failPop next alt
    let body ← recur alt pop
    emit (.failPush rest) body alt

/-- A choice with its common beginnings factored out, if that is on and possible, else as
alternatives. -/
def factoredCode (choice : ExprId) (next : InstrId) : Encoder InstrId := do
  let factored ←
    if (← options).commonHead then build (Grammar.factorCommonHead choice) else pure none
  match factored with
  | some e => recur e next
  | none =>
    match (← grammar).op choice with
    | .choice alts => alternativesCode recur choice next alts
    | _ => recur choice next

/-- An entry of a jump table. The choice itself and narrower choices do not enter a table again. -/
def entryCode (choice next target : Nat) : Encoder InstrId := do
  if target = choice ∨ ((← grammar).op target).isChoice then factoredCode recur target next
  else recur target next

/-- The entries of a jump table; each distinct one is encoded once. -/
def entryCodes (choice next : Nat) : List (ExprId × InstrId) → JumpTable → Encoder (List InstrId)
  | _, [] => pure []
  | done, target :: targets => do
    match done.lookup target with
    | some code => return code :: (← entryCodes choice next done targets)
    | none =>
      let code ← entryCode recur choice next target
      return code :: (← entryCodes choice next ((target, code) :: done) targets)

/-- A choice: a byte class, a jump by the next byte, or alternatives. -/
def choiceCode (e : ExprId) (alts : List ExprId) (next : InstrId) : Encoder InstrId := do
  let other ← simplified e
  match other == e, (← grammar).op other with
  | false, .byteClass _ => recur other next
  | _, _ =>
    match (← grammar).table? e with
    | some table => emitEnd (.dispatch (← entryCodes recur e next [] table)) e
    | none => alternativesCode recur e next alts

/-! ### Operators with one operand -/

/-- Zero or more: a loop that a failure leaves. -/
def starCode (e inner : ExprId) (nullable : Bool) (next : InstrId) : Encoder InstrId := do
  match ← specializedSet? inner with
  | some set => emit (.skipClass set) next e
  | none =>
    let skip ← emitEnd (.failSkip nullable) e
    let start ← recur inner skip
    patchNext skip start
    emit (.failPush next) start e

/-- Zero or one. -/
def optionalCode (e inner : ExprId) (next : InstrId) : Encoder InstrId := do
  let test ←
    if (← options).specialize then
      let inner ← build (Grammar.simplify inner)
      match (← grammar).op inner with
      | .byte b => pure (some (Opcode.byte b true))
      | .byteClass set => pure (some (Opcode.byteClass set true))
      | _ => pure none
    else pure none
  match test with
  | some op => emit op next e
  | none =>
    let pop ← emit .failPop next e
    let body ← recur inner pop
    emit (.failPush next) body e

/-- Negative look-ahead. -/
def notCode (e inner : ExprId) (next : InstrId) : Encoder InstrId := do
  let test ←
    if (← options).specialize then
      let inner ← build (Grammar.simplify inner)
      let g ← grammar
      match (g.op inner).byteSet?, g.literalBytes? inner with
      | some set, _ => pure (some (Opcode.notClass set))
      | none, some bytes => pure (some (Opcode.notLiteral bytes))
      | none, none => pure none
    else pure none
  match test with
  | some op => emit op next e
  | none =>
    let fail ← emitEnd .fail e
    let pop ← emit .failPop fail e
    let body ← recur inner pop
    emit (.failPush next) body e

/-- A block: the block is closed on both ways out. -/
def blockCode (e inner : ExprId) (next : InstrId) : Encoder InstrId := do
  let fail ← emitEnd .fail e
  let failed ← emit .tablePop fail e
  let popTable ← emit .tablePop next e
  let pop ← emit .failPop popTable e
  let body ← recur inner pop
  let push ← emit (.failPush failed) body e
  emit .tablePush push e

/-- An operand between saving the position and an operation that uses it. -/
def spannedCode (e inner : ExprId) (op : Opcode) (next : InstrId) : Encoder InstrId := do
  let done ← emit op next e
  let body ← recur inner done
  emit .posPush body e

/-! ### Memoized results -/

/-- The switch in front of a memoized path, when tracing is on; it starts out on the plain path. -/
def monitorCode (e : ExprId) (plain : Encoder InstrId) : Encoder (Option InstrId) := do
  if (← options).tracing then
    let plain ← plain
    some <$> emit (.monitoredSwitch plain) plain e
  else pure none

/-- Points the switch to the memoized path and answers the switch; without one answers the path. -/
def activate (monitor : Option InstrId) (lookup : InstrId) : Encoder InstrId :=
  match monitor with
  | some switch => do
    patchOp switch (.monitoredSwitch lookup)
    pure switch
  | none => pure lookup

/-- A memoized path: look the result up, else compute it by `inside` and record it. -/
def memoizedCode (e : ExprId) (slot : MemoSlot) (child : Option Int) (plain : Encoder InstrId)
    (inside : InstrId → Encoder InstrId) (next : InstrId) : Encoder InstrId := do
  let monitor ← monitorCode e plain
  let use : MemoUse := { memo := slot.id, key := slot.key, monitor }
  let memoize ← emit (.memoize use child) next e
  let inside ← inside memoize
  let memoFail ← emitEnd (.memoizeFail use) e
  let lookup ← emit (.lookup use child next memoFail) inside e
  activate monitor lookup

/-- A reference to a rule: its terminal, a call, or a memoized call. Results are kept for defined
rules, with trees only for rules that cannot touch them. -/
def referenceCode (e : ExprId) (rule : RuleId) (next : InstrId) : Encoder InstrId := do
  let other ← simplified e
  let g ← grammar
  if other ≠ e ∧ (g.op other).isTerminal then recur other next
  else
    let call := Opcode.call rule none
    let o ← options
    match g.body? rule with
    | some body =>
      if o.packrat && (!o.ast || g.isTreeFree rule) then
        let slot ← issue (g.ruleName rule) (g.resolve body) false
        memoizedCode e slot none (emit call next e) (fun memoize ↦ emit call memoize e) next
      else emit call next e
    | none => emit call next e

/-- A link without memo: the operand between opening and attaching a tree node. -/
def treeNodeCode (e inner : ExprId) (index : Int) (next : InstrId) : Encoder InstrId := do
  let store ← emit (.nodeStore index) next e
  let body ← recur inner store
  emit .nodePush body e

/-- A link. Its entries are never shared with a plain reference to the same rule. -/
def linkCode (e inner : ExprId) (index : Int) (next : InstrId) : Encoder InstrId := do
  let o ← options
  if !o.ast then recur inner next
  else if !o.packrat then treeNodeCode recur e inner index next
  else
    let g ← grammar
    let slot ← issue (g.display e) (g.resolve inner) true
    memoizedCode e slot (some index) (treeNodeCode recur e inner index next) (recur inner) next

/-! ### Nodes -/

/-- A node followed by `next`. -/
def nodeCode (e : ExprId) (next : InstrId) : Encoder InstrId := do
  let ast := (← options).ast
  match (← grammar).op e with
  | .empty => pure next
  | .fail => emitEnd .fail e
  | .anyByte => emit .anyByte next e
  | .byte b => emit (.byte b false) next e
  | .byteClass set => emit (.byteClass set false) next e
  | .sequence items => sequenceCode recur e items next
  | .choice alts => choiceCode recur e alts next
  | .star inner nullable => starCode recur e inner nullable next
  | .plus inner nullable =>
    let rest ← starCode recur e inner nullable next
    recur inner rest
  | .optional inner => optionalCode recur e inner next
  | .and inner => spannedCode recur e inner .posBack next
  | .not inner => notCode recur e inner next
  | .reference rule => referenceCode recur e rule next
  | .construct body left =>
    if ast then
      let capture ← emit (.mark .capture) next e
      let body ← sequenceCode recur e body capture
      emit (.mark (.new left)) body e
    else sequenceCode recur e body next
  | .mark m => if ast then emit (.mark m) next e else pure next
  | .link inner index => linkCode recur e inner index next
  | .block inner => blockCode recur e inner next
  | .defSymbol table inner => spannedCode recur e inner (.defSymbol table) next
  | .isSymbol table inner lastOnly => spannedCode recur e inner (.isSymbol table lastOnly) next
  | .defIndent => emit .defIndent next e
  | .isIndent => emit .isIndent next e

end

/-- The code for a node followed by `next`, within a depth of recursion. -/
def encode : Nat → ExprId → InstrId → Encoder InstrId
  | 0, _, _ => tooDeep
  | depth + 1, e, next => nodeCode (encode depth) e next

end ParsingMachine.Encoder
