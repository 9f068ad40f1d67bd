import ParsingMachine.Proofs.Semantics.Refines

/-!
# Growing grammars

Passes over a grammar only append nodes. What was known of a grammar stays true of every grammar
that extends it: the old nodes keep their operators and the rules their bodies, so old expressions
keep their results. Every later fact about old nodes is carried over by one of the lemmas here.

Four relations say how much stays the same, each with the one before as its first part:

* `Retains`: the nodes are still there.
* `Extends`: the rules also keep their bodies. With operands before their nodes this is enough for
  results to stay, since an old node leads to old nodes only.
* `Grows`: the new nodes are of the few kinds that passes append (`Operator.isGlue`). None is a
  reference, a repetition or touches the parse state, so a pass adds no recursion and no query.
* `Appends`: the side tables are the same, too, as they are while a single node is being made.

All four are reflexive and transitive and hold where a node of the right kind is pushed, so a proof
about a pass follows its steps. `Builder.Ensures` carries such facts through the builders: it speaks
of the answer and of the grammar that is left, and has one lemma for each way in which builders are
made of others. What a builder that makes a node ensures is `Makes`: in all extensions of the
grammar that it leaves, the node refines a given term. Later extensions are part of the statement
because nodes are made one after the other, and the first has to be right when the last is there.

## Main statements

* `yields_of_common`: two grammars with nodes in common give terms over them the same results.
* `Extends.yields_iff`: old expressions keep their results.
* `Extends.wellFormed`, `Grows.wellFormed`: operands stay before their nodes.
* `ensures_allocAt`, `ensures_sequence`, `ensures_choice`: what the builders of nodes make.
-/

namespace ParsingMachine

/-! ### Old and new nodes -/

namespace Grammar

variable {g h k : Grammar}

/-- Ids outside the arena fail. -/
theorem op_of_size_le {e : ExprId} (he : g.size ≤ e) : g.op e = .fail := by
  rw [op, Array.getElem?_eq_none he]

/-- A node that is not a failure lies in the arena. -/
theorem lt_size_of_op_ne {e : ExprId} (he : g.op e ≠ .fail) : e < g.size :=
  Nat.lt_of_not_le fun hle ↦ he (op_of_size_le hle)

/-- A node with operands lies in the arena. -/
theorem lt_size_of_mem_children {e child : ExprId} (hc : child ∈ (g.op e).children) :
    e < g.size := by
  refine lt_size_of_op_ne fun hfail ↦ ?_
  rw [hfail] at hc
  cases hc

@[simp] theorem size_push (g : Grammar) (op : Operator) (span : Span) :
    (g.push op span).size = g.size + 1 := by
  simp [push, size]

/-- A pushed node has the next id, and the others stay as they are. -/
theorem op_push (g : Grammar) (op : Operator) (span : Span) (e : ExprId) :
    (g.push op span).op e = if e = g.size then op else g.op e := by
  by_cases he : e = g.size
  · subst he
    simp [Grammar.op, push, size]
  · have hne : e ≠ g.nodes.size := he
    simp [Grammar.op, push, Array.getElem?_push, he, hne]

/-- Defining a declared rule changes its own body and no other. -/
theorem body?_defineRule {rule : RuleId} (hrule : rule < g.ruleCount) (body : ExprId)
    (other : RuleId) :
    (g.defineRule rule body).body? other = if other = rule then some body else g.body? other := by
  simp only [body?, defineRule, Array.getElem?_modify, eq_comm (a := rule)]
  split
  · rename_i heq
    rw [heq, Array.getElem?_eq_getElem hrule]
    rfl
  · rfl

/-- The nodes of a grammar are still there. -/
structure Retains (g h : Grammar) : Prop where
  /-- Nodes are only appended. -/
  size_le : g.size ≤ h.size
  /-- Old nodes keep their operators. -/
  op_eq : ∀ e < g.size, h.op e = g.op e

namespace Retains

theorem refl (g : Grammar) : g.Retains g :=
  ⟨Nat.le_refl _, fun _ _ ↦ rfl⟩

theorem trans (hgh : g.Retains h) (hhk : h.Retains k) : g.Retains k where
  size_le := Nat.le_trans hgh.size_le hhk.size_le
  op_eq e he := by rw [hhk.op_eq e (Nat.lt_of_lt_of_le he hgh.size_le), hgh.op_eq e he]

/-- Side tables and rules do not matter. -/
theorem of_nodes_eq (hnodes : h.nodes = g.nodes) : g.Retains h where
  size_le := Nat.le_of_eq (congrArg Array.size hnodes.symm)
  op_eq e _ := by rw [op, op, hnodes]

theorem push (g : Grammar) (op : Operator) (span : Span) : g.Retains (g.push op span) where
  size_le := by rw [size_push]; exact Nat.le_succ _
  op_eq e he := by rw [op_push, if_neg (Nat.ne_of_lt he)]

/-- A node that does not fail of itself keeps its operator. -/
theorem op_eq_of_ne (hgh : g.Retains h) {e : ExprId} (he : g.op e ≠ .fail) : h.op e = g.op e :=
  hgh.op_eq e (lt_size_of_op_ne he)

/-- The nodes of a bottom-up grammar were bottom-up before. -/
theorem bottomUp (hgh : g.Retains h) (hh : h.BottomUp) : g.BottomUp := by
  intro e he child hc
  rw [← hgh.op_eq e he] at hc
  exact hh e (Nat.lt_of_lt_of_le he hgh.size_le) child hc

end Retains

/-- The old nodes and the rules are still there. -/
structure Extends (g h : Grammar) : Prop extends g.Retains h where
  /-- Rules keep their bodies. -/
  body?_eq : ∀ rule, h.body? rule = g.body? rule

namespace Extends

theorem refl (g : Grammar) : g.Extends g :=
  ⟨.refl g, fun _ ↦ rfl⟩

theorem trans (hgh : g.Extends h) (hhk : h.Extends k) : g.Extends k where
  toRetains := hgh.toRetains.trans hhk.toRetains
  body?_eq rule := by rw [hhk.body?_eq, hgh.body?_eq]

/-- Side tables do not matter. -/
theorem of_eq (hnodes : h.nodes = g.nodes) (hrules : h.rules = g.rules) : g.Extends h :=
  ⟨.of_nodes_eq hnodes, fun rule ↦ by rw [body?, body?, hrules]⟩

end Extends

/-- Operands come before their nodes, and the bodies of rules are nodes. -/
structure WellFormed (g : Grammar) : Prop where
  /-- Every node was built after its operands. -/
  bottomUp : g.BottomUp
  /-- Bodies are nodes. -/
  body_lt : ∀ rule body, g.body? rule = some body → body < g.size

/-- Bodies stay where they are while nodes are appended. -/
theorem Extends.wellFormed (hgh : g.Extends h) (hg : g.WellFormed) (hh : h.BottomUp) :
    h.WellFormed where
  bottomUp := hh
  body_lt rule body hbody := by
    rw [hgh.body?_eq] at hbody
    exact Nat.lt_of_lt_of_le (hg.body_lt rule body hbody) hgh.size_le

/-- Whether a grammar is well formed, by a look at its nodes and rules. -/
theorem wellFormed_iff (g : Grammar) : g.WellFormed ↔
    (∀ e < g.size, ∀ child ∈ (g.op e).children, child < e) ∧
      ∀ rule ∈ g.rules, ∀ body ∈ rule.body, body < g.size := by
  constructor
  · rintro ⟨hup, hbody⟩
    refine ⟨hup, fun rule hrule body hb ↦ ?_⟩
    obtain ⟨i, hi⟩ := Array.mem_iff_getElem?.mp hrule
    exact hbody i body (by rw [body?, hi]; exact hb)
  · rintro ⟨hup, hbody⟩
    refine ⟨hup, fun i body hb ↦ ?_⟩
    obtain ⟨rule, hrule, hb⟩ := Option.bind_eq_some_iff.mp hb
    exact hbody rule (Array.mem_of_getElem? hrule) body hb

instance (g : Grammar) : Decidable g.WellFormed :=
  decidable_of_iff' _ g.wellFormed_iff

/-- Operands come before their nodes, whatever the id. -/
theorem WellFormed.child_lt (hg : g.WellFormed) {e child : ExprId}
    (hc : child ∈ (g.op e).children) : child < e :=
  hg.bottomUp e (lt_size_of_mem_children hc) child hc

end Grammar

/-! ### Old expressions keep their results -/

namespace Term

/-- The nodes of a term lie below a bound. -/
def Below (n : Nat) : Term → Prop
  | node e | loop e => e < n
  | call _ | prim _ => True
  | around _ t _ => t.Below n
  | both t u | either t u => t.Below n ∧ u.Below n

theorem below_all {n : Nat} {items : List ExprId} (h : ∀ e ∈ items, e < n) :
    (Term.all (items.map .node)).Below n := by
  induction items with
  | nil => trivial
  | cons item items ih =>
    exact ⟨h item List.mem_cons_self, ih fun e he ↦ h e (List.mem_cons_of_mem _ he)⟩

theorem below_any {n : Nat} {alts : List ExprId} (h : ∀ e ∈ alts, e < n) :
    (Term.any (alts.map .node)).Below n := by
  induction alts with
  | nil => trivial
  | cons alt alts ih =>
    exact ⟨h alt List.mem_cons_self, ih fun e he ↦ h e (List.mem_cons_of_mem _ he)⟩

end Term

/-- The term of an operator is over its operands. -/
theorem Operator.below_term (src : Resident) {op : Operator} {n : Nat}
    (h : ∀ child ∈ op.children, child < n) : (op.term src).Below n := by
  cases op with
  | empty | fail | anyByte | byte _ | byteClass _ | reference _ | mark _ | defIndent | isIndent =>
    trivial
  | sequence items | construct items _ => exact Term.below_all h
  | choice alts => exact Term.below_any h
  | star inner _ | and inner | not inner | link inner _ | block inner | defSymbol _ inner
  | isSymbol _ inner _ => exact h inner (List.mem_singleton_self _)
  | plus inner _ => exact ⟨h inner (List.mem_singleton_self _), h inner (List.mem_singleton_self _)⟩
  | optional inner => exact ⟨h inner (List.mem_singleton_self _), trivial⟩

namespace Grammar

variable {g h k : Grammar} {src : Resident}

/-- Two grammars that have nodes and bodies below a bound in common give terms below it the same
results. -/
theorem yields_of_common {n d pos : Nat} {s : ParseState} {t : Term} {r : Match}
    (hop : ∀ e < n, h.op e = g.op e) (hchild : ∀ e < n, ∀ child ∈ (g.op e).children, child < n)
    (hbody : ∀ rule, h.body? rule = g.body? rule)
    (hbody_lt : ∀ rule body, g.body? rule = some body → body < n) (ht : t.Below n)
    (hyields : Yields g src d t pos s r) : Yields h src d t pos s r := by
  induction hyields with
  | @node d e pos s r _ ih =>
    refine .node ?_
    rw [hop e ht]
    exact ih (Operator.below_term src (hchild e ht))
  | call hsome _ ih => exact .call ((hbody _).trans hsome) (ih (hbody_lt _ _ hsome))
  | undefined hnone => exact .undefined ((hbody _).trans hnone)
  | prim => exact .prim
  | around _ ih => exact .around (ih ht)
  | bothNone _ ih => exact .bothNone (ih ht.1)
  | bothSome _ _ ih ih' => exact .bothSome (ih ht.1) (ih' ht.2)
  | eitherSome _ ih => exact .eitherSome (ih ht.1)
  | eitherNone _ _ ih ih' => exact .eitherNone (ih ht.1) (ih' ht.2)
  | loopDone _ ih => exact .loopDone (ih ht)
  | loopStill _ ih => exact .loopStill (ih ht)
  | loopStep hmid _ _ ih ih' => exact .loopStep hmid (ih ht) (ih' ht)

/-- Old expressions keep their results. -/
theorem Extends.yields_iff (hgh : g.Extends h) (hg : g.WellFormed) {d pos : Nat} {s : ParseState}
    {t : Term} {r : Match} (ht : t.Below g.size) :
    Yields g src d t pos s r ↔ Yields h src d t pos s r := by
  have hchild : ∀ e < g.size, ∀ child ∈ (g.op e).children, child < g.size :=
    fun e he child hc ↦ Nat.lt_trans (hg.child_lt hc) he
  constructor
  · exact yields_of_common hgh.op_eq hchild hgh.body?_eq hg.body_lt ht
  · refine yields_of_common (fun e he ↦ (hgh.op_eq e he).symm) (fun e he ↦ ?_)
      (fun rule ↦ (hgh.body?_eq rule).symm) (fun rule body hbody ↦ ?_) ht
    · rw [hgh.op_eq e he]
      exact hchild e he
    · rw [hgh.body?_eq] at hbody
      exact hg.body_lt rule body hbody

end Grammar

/-! ### Appended nodes -/

/-- Whether the operator is one that passes use for new nodes. -/
def Operator.isGlue : Operator → Bool
  | empty | fail | anyByte | byteClass _ | sequence _ | choice _ => true
  | _ => false

namespace Grammar

variable {g h k : Grammar} {src : Resident}

/-- A grammar extended by glue over nodes that were there before. -/
structure Grows (g h : Grammar) : Prop extends g.Extends h where
  /-- New nodes are glue. -/
  isGlue : ∀ e, g.size ≤ e → (h.op e).isGlue
  /-- New nodes come after their operands. -/
  child_lt : ∀ e, g.size ≤ e → ∀ child ∈ (h.op e).children, child < e
  /-- No rule is added. -/
  ruleCount_eq : h.ruleCount = g.ruleCount

namespace Grows

theorem refl (g : Grammar) : g.Grows g where
  toExtends := .refl g
  isGlue e he := by rw [op_of_size_le he]; rfl
  child_lt e he child hc := by rw [op_of_size_le he] at hc; cases hc
  ruleCount_eq := rfl

theorem trans (hgh : g.Grows h) (hhk : h.Grows k) : g.Grows k where
  toExtends := hgh.toExtends.trans hhk.toExtends
  isGlue e he := by
    by_cases hlt : e < h.size
    · rw [hhk.op_eq e hlt]
      exact hgh.isGlue e he
    · exact hhk.isGlue e (Nat.le_of_not_lt hlt)
  child_lt e he := by
    by_cases hlt : e < h.size
    · rw [hhk.op_eq e hlt]
      exact hgh.child_lt e he
    · exact hhk.child_lt e (Nat.le_of_not_lt hlt)
  ruleCount_eq := hhk.ruleCount_eq.trans hgh.ruleCount_eq

/-- What grows from a well-formed grammar is well formed. -/
theorem wellFormed (hgh : g.Grows h) (hg : g.WellFormed) : h.WellFormed := by
  refine hgh.toExtends.wellFormed hg fun e _ child hc ↦ ?_
  by_cases hlt : e < g.size
  · rw [hgh.op_eq e hlt] at hc
    exact hg.child_lt hc
  · exact hgh.child_lt e (Nat.le_of_not_lt hlt) child hc

/-- Glue over old nodes may be appended. -/
theorem push (g : Grammar) {op : Operator} (span : Span) (hop : op.isGlue)
    (hchild : ∀ child ∈ op.children, child < g.size) : g.Grows (g.push op span) where
  toRetains := .push g op span
  body?_eq _ := rfl
  isGlue e he := by
    rw [op_push]
    split
    · exact hop
    · rw [op_of_size_le he]
      rfl
  child_lt e he child hc := by
    rw [op_push] at hc
    split at hc
    · exact Nat.lt_of_lt_of_le (hchild child hc) he
    · rw [op_of_size_le he] at hc
      cases hc
  ruleCount_eq := rfl

end Grows

/-- A grammar that grows and keeps what is attached to its nodes. -/
structure Appends (g h : Grammar) : Prop extends g.Grows h where
  /-- What is known of simpler nodes is the same. -/
  simplified_eq : h.simplified = g.simplified
  /-- The jump tables are the same. -/
  tables_eq : h.tables = g.tables

namespace Appends

theorem refl (g : Grammar) : g.Appends g :=
  ⟨.refl g, rfl, rfl⟩

theorem trans (hgh : g.Appends h) (hhk : h.Appends k) : g.Appends k :=
  ⟨hgh.toGrows.trans hhk.toGrows, hhk.simplified_eq.trans hgh.simplified_eq,
    hhk.tables_eq.trans hgh.tables_eq⟩

theorem push (g : Grammar) {op : Operator} (span : Span) (hop : op.isGlue)
    (hchild : ∀ child ∈ op.children, child < g.size) : g.Appends (g.push op span) :=
  ⟨.push g span hop hchild, rfl, rfl⟩

end Appends

end Grammar

/-! ### Builders -/

namespace Builder

variable {α β : Type} {g : Grammar}

/-- What holds of the answer of a builder and of the grammar it leaves. -/
def Ensures (m : Builder α) (g : Grammar) (Q : α → Grammar → Prop) : Prop :=
  Q (m g).1 (m g).2

theorem Ensures.pure {Q : α → Grammar → Prop} {a : α} (h : Q a g) : Ensures (Pure.pure a) g Q :=
  h

/-- What a builder ensures may be used for the one after it. -/
theorem Ensures.bind {m : Builder α} {f : α → Builder β} {P : α → Grammar → Prop}
    {Q : β → Grammar → Prop} (hm : Ensures m g P) (hf : ∀ a h, P a h → Ensures (f a) h Q) :
    Ensures (m >>= f) g Q :=
  hf _ _ hm

theorem Ensures.map {m : Builder α} {f : α → β} {Q : β → Grammar → Prop}
    (hm : Ensures m g fun a h ↦ Q (f a) h) : Ensures (f <$> m) g Q :=
  hm

theorem Ensures.get {f : Grammar → Builder β} {Q : β → Grammar → Prop} (hf : Ensures (f g) g Q) :
    Ensures (MonadState.get >>= f) g Q :=
  hf

/-- What is ensured may be weakened. -/
theorem Ensures.imp {m : Builder α} {P Q : α → Grammar → Prop} (hm : Ensures m g P)
    (h : ∀ a k, P a k → Q a k) : Ensures m g Q :=
  h _ _ hm

end Builder

namespace Grammar

variable {g : Grammar}

/-- What a builder leaves when it makes a node: a larger grammar with the node in it, in all
extensions of which the node refines a term. -/
def Makes (g : Grammar) (t : Resident → Term) (e : ExprId) (h : Grammar) : Prop :=
  g.Appends h ∧ e < h.size ∧ ∀ k, h.Extends k → ∀ src, Refines k src (t src) (.node e)

/-- A node that is appended has the operator, and refines its term. -/
theorem ensures_allocAt (op : Operator) (span : Span) (hop : op.isGlue)
    (hchild : ∀ child ∈ op.children, child < g.size) :
    Builder.Ensures (allocAt op span) g fun e h ↦ Makes g op.term e h ∧ h.op e = op := by
  have hlt : g.size < (g.push op span).size := by
    rw [size_push]
    exact Nat.lt_succ_self _
  have hnew : (g.push op span).op g.size = op := by rw [op_push, if_pos rfl]
  refine ⟨⟨.push g span hop hchild, hlt, fun k hk src ↦ ?_⟩, hnew⟩
  have href := refines_node k src g.size
  rw [hk.op_eq g.size hlt] at href
  change Refines k src (((g.push op span).op g.size).term src) _ at href
  rw [hnew] at href
  exact href

/-- As `ensures_allocAt`, for a node without a place in the text. -/
theorem ensures_alloc (op : Operator) (hop : op.isGlue)
    (hchild : ∀ child ∈ op.children, child < g.size) :
    Builder.Ensures (alloc op) g fun e h ↦ Makes g op.term e h ∧ h.op e = op :=
  ensures_allocAt op .synthetic hop hchild

/-- The sequence of some nodes, also if it is one of them or empty. -/
theorem ensures_sequence {items : List ExprId} (hitems : ∀ e ∈ items, e < g.size) :
    Builder.Ensures (sequence items) g (Makes g fun _ ↦ .all (items.map .node)) := by
  match items with
  | [] =>
    refine (ensures_alloc .empty rfl fun _ h ↦ ?_).imp fun _ _ h ↦ h.1
    cases h
  | [item] =>
    exact ⟨.refl g, hitems item (List.mem_singleton_self _), fun k _ src ↦ refines_of_both_done _⟩
  | _ :: _ :: _ => exact (ensures_alloc (.sequence _) rfl hitems).imp fun _ _ h ↦ h.1

/-- The choice of some nodes, also if it is one of them or empty. -/
theorem ensures_choice {alts : List ExprId} (halts : ∀ e ∈ alts, e < g.size) :
    Builder.Ensures (choice alts) g (Makes g fun _ ↦ .any (alts.map .node)) := by
  match alts with
  | [] =>
    refine (ensures_alloc .fail rfl fun _ h ↦ ?_).imp fun _ _ h ↦ h.1
    cases h
  | [alt] =>
    exact ⟨.refl g, halts alt (List.mem_singleton_self _), fun k _ src ↦ refines_of_either_fails _⟩
  | _ :: _ :: _ => exact (ensures_alloc (.choice _) rfl halts).imp fun _ _ h ↦ h.1

end Grammar

end ParsingMachine
