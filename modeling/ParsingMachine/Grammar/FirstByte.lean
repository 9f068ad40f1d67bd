import ParsingMachine.Grammar.Reach

/-!
# First-byte analysis

Can an expression succeed when the next byte is given? `accept` answers this for a slot, a byte
value or the end of input. The answer `reject` is given only where the expression definitely fails;
whatever is uncertain is answered by `accept`.
-/

namespace ParsingMachine

/-- What the next byte says about an expression. -/
inductive Acceptance where
  /-- The expression may succeed and consume the byte, or is not known to fail. -/
  | accept
  /-- The expression definitely fails. -/
  | reject
  /-- If the expression succeeds, it consumes nothing. -/
  | unconsumed
  deriving DecidableEq

namespace Acceptance

/-- The answer for items one after the other: the first that does not leave the byte decides. -/
def inSequence (answer : ExprId → Acceptance) : List ExprId → Acceptance
  | [] => unconsumed
  | item :: items =>
    match answer item with
    | unconsumed => inSequence answer items
    | decided => decided

/-- The answer for alternatives: `accept` if one accepts, else `unconsumed` if one leaves the
byte. -/
def inChoice (answer : ExprId → Acceptance) : List ExprId → Acceptance
  | [] => reject
  | alt :: alts =>
    match answer alt with
    | accept => accept
    | reject => inChoice answer alts
    | unconsumed =>
      match inChoice answer alts with
      | accept => accept
      | _ => unconsumed

end Acceptance

namespace Grammar

/-! ### One slot -/

/-- Whether a slot is a byte of a set. The slot for end of input is not. -/
def slotIn (set : ByteSet) (slot : Nat) : Bool :=
  decide (slot < endSlot) && set.contains (UInt8.ofNat slot)

/-- The answer of a node, given the answers of others. `visiting` holds the rules whose bodies are
being looked at; a reference to one of these is uncertain. -/
def acceptNode (g : Grammar) (slot : Nat) (recur : List RuleId → ExprId → Acceptance)
    (visiting : List RuleId) (e : ExprId) : Acceptance :=
  match g.op e with
  | .empty | .mark _ | .defIndent => .unconsumed
  | .fail => .reject
  | .anyByte => if slot = endSlot then .reject else .accept
  | .byte b => if slot = b.toNat then .accept else .reject
  | .byteClass set => if slotIn set slot then .accept else .reject
  | .sequence items | .construct items _ => .inSequence (recur visiting) items
  | .choice alts => .inChoice (recur visiting) alts
  | .star inner _ | .optional inner =>
    match recur visiting inner with
    | .accept => .accept
    | _ => .unconsumed
  | .plus inner _ | .link inner _ | .block inner | .defSymbol _ inner | .isSymbol _ inner _ =>
    recur visiting inner
  | .and inner =>
    match recur visiting inner with
    | .reject => .reject
    | _ => .unconsumed
  | .not inner =>
    if (g.op inner).isTerminal && recur visiting inner == .accept then .reject else .unconsumed
  | .reference rule =>
    match g.body? rule with
    | none => .accept
    | some body => if visiting.contains rule then .accept else recur (rule :: visiting) body
  | .isIndent => .accept

/-- The answer with at most `depth` levels of recursion. -/
def acceptWithin (g : Grammar) (slot : Nat) : Nat → List RuleId → ExprId → Acceptance
  | 0, _, _ => .accept
  | depth + 1, visiting, e => g.acceptNode slot (acceptWithin g slot depth) visiting e

/-- What a slot says about an expression. -/
def accept (g : Grammar) (e : ExprId) (slot : Nat) : Acceptance :=
  g.acceptWithin slot g.analysisDepth [] e

end Grammar

end ParsingMachine
