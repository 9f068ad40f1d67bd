import Mathlib.Logic.Relation
import ParsingMachine.Grammar.Reach
import ParsingMachine.Proofs.Grammar.Extension
import ParsingMachine.Proofs.Graph.Explore

/-!
# What a match can reach

A match of an expression goes from nodes to their operands and from references to the bodies of
their rules (`Grammar.Reach`). An exploration of the arena finds what can be reached, and nothing
else, so questions about it can be decided. This is the relation by which all analyses of a grammar
are specified; the analyses themselves are searches of other kinds.

An analysis of an expression looks at what can be reached from it. What it finds stays true as long
as these nodes and the bodies of the defined rules among them stay (`Grammar.Agrees`): other rules
may get another body, and undefined rules their first one. This is less than that the grammar
extends the one before, and it has to be: rules are defined, also again, after nodes were analysed,
and what is known of a node is lost only if one of *its* rules gets another body.

Agreement is a relation between two grammars and an expression. From an expression it passes to all
that takes part in matching it, and since these nodes and bodies are the same in the other grammar,
they can be reached there, too. So it is transitive, which is what a sequence of passes and edits
needs. The other grammar may reach more, through rules that were undefined before.

Where operands come before their nodes and bodies are nodes, what is reached from a node of the
arena lies in the arena. So a larger grammar adds nothing to what an old node reaches.

## Main statements

* `mem_matchedFrom`: the exploration finds what can be reached, and nothing else.
* `Extends.reach_iff`: old nodes reach the same in a larger grammar.
* `Agrees.of_reach`: agreement passes to what takes part.
* `Agrees.reach`, `Agrees.trans`: what could be reached still can, so agreement is transitive.
-/

namespace ParsingMachine.Grammar

variable {g h k : Grammar} {e x : ExprId}

/-! ### Reachable nodes -/

/-- The nodes that take part in matching a node: its operands, or the body of the rule it refers
to. -/
def successors (g : Grammar) (e : ExprId) : List ExprId :=
  match g.op e with
  | .reference rule => (g.body? rule).toList
  | op => op.children

/-- The nodes reachable from `roots` through operands and references. -/
def matchedFrom (g : Grammar) (roots : List ExprId) : List ExprId :=
  (Graph.explore g.successors g.size roots #[]).toList

/-- A node takes part in matching another one. -/
def Reach (g : Grammar) : ExprId → ExprId → Prop :=
  Relation.ReflTransGen fun e x ↦ x ∈ g.successors e

/-- Ids outside the arena lead nowhere. -/
theorem successors_of_size_le (he : g.size ≤ e) : g.successors e = [] := by
  rw [successors, op_of_size_le he]
  rfl

/-- Operands take part in matching their node. -/
theorem mem_successors_of_mem_children (hx : x ∈ (g.op e).children) : x ∈ g.successors e := by
  unfold successors
  split
  · rename_i rule hop
    rw [hop] at hx
    cases hx
  · exact hx

/-- The body of a rule takes part in matching a reference to the rule. -/
theorem mem_successors_of_body? {rule : RuleId} (hop : g.op e = .reference rule)
    (hbody : g.body? rule = some x) : x ∈ g.successors e := by
  rw [successors, hop]
  exact Option.mem_toList.mpr hbody

/-- The exploration finds what can be reached, and nothing else. -/
theorem mem_matchedFrom (roots : List ExprId) :
    x ∈ g.matchedFrom roots ↔ ∃ root ∈ roots, g.Reach root x := by
  rw [matchedFrom, Array.mem_toList_iff]
  exact Graph.mem_explore (fun _ hx ↦ successors_of_size_le hx) roots

theorem successors_lt (hg : g.WellFormed) (he : e < g.size) (hx : x ∈ g.successors e) :
    x < g.size := by
  unfold successors at hx
  split at hx
  · rename_i rule hop
    exact hg.body_lt rule x (Option.mem_toList.mp hx)
  · exact Nat.lt_trans (hg.child_lt hx) he

/-- What is reached from a node of the arena lies in the arena. -/
theorem reach_lt (hg : g.WellFormed) (he : e < g.size) (hx : g.Reach e x) : x < g.size := by
  induction hx with
  | refl => exact he
  | tail _ hz ih => exact successors_lt hg ih hz

/-- An old node leads to the same nodes in a larger grammar. -/
theorem Extends.successors_eq (hgh : g.Extends h) (he : e < g.size) :
    h.successors e = g.successors e := by
  rw [successors, successors, hgh.op_eq e he, funext hgh.body?_eq]

/-- What can be reached can be reached in a larger grammar. -/
theorem Extends.reach (hgh : g.Extends h) (hx : g.Reach e x) : h.Reach e x := by
  induction hx with
  | refl => exact .refl
  | @tail y z _ hz ih =>
    have hy : y < g.size := by
      refine Nat.lt_of_not_le fun hle ↦ ?_
      rw [successors_of_size_le hle] at hz
      cases hz
    rw [← hgh.successors_eq hy] at hz
    exact ih.tail hz

/-- Old nodes reach the same in a larger grammar. -/
theorem Extends.reach_iff (hgh : g.Extends h) (hg : g.WellFormed) (he : e < g.size) :
    h.Reach e x ↔ g.Reach e x := by
  refine ⟨fun hx ↦ ?_, hgh.reach⟩
  induction hx with
  | refl => exact .refl
  | tail _ hz ih =>
    rw [hgh.successors_eq (reach_lt hg he ih)] at hz
    exact ih.tail hz

/-! ### Grammars that agree on what can be reached -/

/-- The nodes are still there, and the defined rules that take part in matching an expression still
have their bodies. -/
structure Agrees (g : Grammar) (e : ExprId) (k : Grammar) : Prop extends g.Retains k where
  /-- Defined rules that take part keep their bodies. -/
  body?_eq : ∀ x rule, g.Reach e x → g.op x = .reference rule → ∀ body, g.body? rule = some body →
    k.body? rule = some body

/-- A larger grammar agrees on every expression. -/
theorem Extends.agrees (hgh : g.Extends h) (e : ExprId) : g.Agrees e h where
  toRetains := hgh.toRetains
  body?_eq _ _ _ _ _ hbody := (hgh.body?_eq _).trans hbody

namespace Agrees

theorem refl (g : Grammar) (e : ExprId) : g.Agrees e g :=
  (Extends.refl g).agrees e

/-- The body of a rule that is referred to. -/
theorem body?_of_op (hgk : g.Agrees e k) {rule : RuleId} {body : ExprId}
    (hop : g.op e = .reference rule) (hbody : g.body? rule = some body) :
    k.body? rule = some body :=
  hgk.body?_eq e rule .refl hop body hbody

/-- Grammars that agree on an expression agree on what takes part in matching it. -/
theorem of_reach (hgk : g.Agrees e k) (hx : g.Reach e x) : g.Agrees x k where
  toRetains := hgk.toRetains
  body?_eq y rule hy := hgk.body?_eq y rule (hx.trans hy)

/-- As `of_reach`, for one step. -/
theorem of_mem (hgk : g.Agrees e k) (hx : x ∈ g.successors e) : g.Agrees x k :=
  hgk.of_reach (.single hx)

theorem mem_successors (hgk : g.Agrees e k) (hx : x ∈ g.successors e) : x ∈ k.successors e := by
  have hop : k.op e = g.op e := by
    refine hgk.op_eq_of_ne fun hfail ↦ ?_
    rw [successors, hfail] at hx
    cases hx
  unfold successors at hx ⊢
  rw [hop]
  split at hx
  · rename_i rule hrule
    exact Option.mem_toList.mpr (hgk.body?_of_op hrule (Option.mem_toList.mp hx))
  · exact hx

/-- What could be reached still can. -/
theorem reach (hgk : g.Agrees e k) (hx : g.Reach e x) : k.Reach e x := by
  induction hx with
  | refl => exact .refl
  | tail hy hz ih => exact ih.tail ((hgk.of_reach hy).mem_successors hz)

/-- Agreement goes on through a third grammar, because what could be reached still can. -/
theorem trans (hgh : g.Agrees e h) (hhk : h.Agrees e k) : g.Agrees e k where
  toRetains := hgh.toRetains.trans hhk.toRetains
  body?_eq x rule hx hop body hbody := by
    have hop' : h.op x = .reference rule := (hgh.op_eq_of_ne (by simp [hop])).trans hop
    exact hhk.body?_eq x rule (hgh.reach hx) hop' body (hgh.body?_eq x rule hx hop body hbody)

end Agrees

end ParsingMachine.Grammar
