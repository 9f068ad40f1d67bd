import Mathlib.Computability.StateTransition
import ParsingMachine.Proofs.Grammar.Search

/-!
# Where references lead

A reference stands for the body of its rule (`StandsFor`), and that may be a reference again. So
references lead from a node to one that stands for nothing, or into a cycle (`EndsInCycle`). Every
node stands for at most one node, so there is one way to go, and where it ends is a fact about the
grammar that has nothing to do with how it is looked for.

`resolve` follows references in rounds (`follow?`), and a run of rounds is looked at as the run of a
deterministic machine. Nothing in the arena gets smaller on the way, as bodies may come before or
after the references to them. What makes the rounds end is the set of rules that were not followed
yet: each round takes one out of it (`mem_eval_resolveSteps`). The number of steps that `resolve`
allows is more than there are rules, so it plays no part in the answer.

What a run of rounds knows is that references lead to the node at hand, also from the bodies of all
rules that were followed (`Trail`). On a cycle the rounds go on until a reference is met whose rule
was followed before. By then the cycle has been closed, and that reference is on it.

The rounds remember which rules were followed, so the answer could depend on where they began. Only
on cycles it does. Any other node comes down to the one end to which its references lead, and so
does all that stands between.

## Main statements

* `exists_mem_eval_resolve`: following references comes to an end, and `resolve` answers where.
* `leads_resolve`: references lead from a node to what it comes down to.
* `circular_resolve_iff`: the answer is on a cycle exactly if references lead into one.
* `resolve_eq_of_leads`: a node comes down to the end to which its references lead.
* `resolve_eq_of_standsFor`: away from cycles, a reference and the body of its rule come down to the
  same node.
-/

namespace ParsingMachine.Grammar

open Relation

variable {g : Grammar} {e x : ExprId} {followed followed' : List RuleId}

/-! ### References and what they stand for -/

/-- A node is a reference to a rule with this body. -/
def StandsFor (g : Grammar) (e x : ExprId) : Prop :=
  ∃ rule, g.op e = .reference rule ∧ g.body? rule = some x

/-- A node is on a cycle of references: it stands for itself, through one reference or more. -/
def Circular (g : Grammar) (e : ExprId) : Prop :=
  TransGen g.StandsFor e e

/-- References lead from a node into a cycle. -/
def EndsInCycle (g : Grammar) (e : ExprId) : Prop :=
  ∃ x, ReflTransGen g.StandsFor e x ∧ g.Circular x

theorem rightUnique_standsFor (g : Grammar) : Relator.RightUnique g.StandsFor := by
  rintro e x y ⟨rule, hop, hx⟩ ⟨rule', hop', hy⟩
  cases hop.symm.trans hop'
  exact Option.some.inj (hx.symm.trans hy)

/-- A node that stands for nothing is no reference, or its rule has no body. -/
theorem forall_not_standsFor_iff : (∀ x, ¬g.StandsFor e x) ↔
    (∀ rule, g.op e ≠ .reference rule) ∨
      ∃ rule, g.op e = .reference rule ∧ g.body? rule = none := by
  constructor
  · intro hend
    by_cases hop : ∃ rule, g.op e = .reference rule
    · obtain ⟨rule, hop⟩ := hop
      refine .inr ⟨rule, hop, Option.eq_none_iff_forall_ne_some.mpr fun x hbody ↦ ?_⟩
      exact hend x ⟨rule, hop, hbody⟩
    · exact .inl fun rule h ↦ hop ⟨rule, h⟩
  · rintro (hop | ⟨rule, hop, hbody⟩) x ⟨rule', hop', hbody'⟩
    · exact hop rule' hop'
    · cases hop.symm.trans hop'
      cases hbody.symm.trans hbody'

/-- What references lead to takes part in matching. -/
theorem reach_of_leads (h : ReflTransGen g.StandsFor e x) : g.Reach e x := by
  induction h with
  | refl => exact .refl
  | tail _ hstands ih =>
    obtain ⟨rule, hop, hbody⟩ := hstands
    exact ih.tail (mem_successors_of_body? hop hbody)

namespace Circular

theorem exists_standsFor (h : g.Circular e) : ∃ x, g.StandsFor e x := by
  obtain ⟨x, hx, -⟩ := TransGen.head'_iff.mp h
  exact ⟨x, hx⟩

/-- References do not lead off a cycle. -/
theorem of_leads (h : g.Circular e) (hx : ReflTransGen g.StandsFor e x) : g.Circular x := by
  induction hx with
  | refl => exact h
  | tail _ hz ih =>
    obtain ⟨z, hz', hback⟩ := TransGen.head'_iff.mp ih
    cases g.rightUnique_standsFor hz hz'
    exact .tail' hback hz

end Circular

/-! ### Rounds -/

/-- A round of following references, after some rules were followed: a reference is replaced by what
it stands for. There is no round for a reference to a rule followed before, and none for a node that
stands for nothing. -/
def follow? (g : Grammar) : List RuleId × ExprId → Option (List RuleId × ExprId)
  | (followed, e) =>
    match g.op e with
    | .reference rule =>
      if followed.contains rule then none
      else (g.body? rule).map fun body ↦ (rule :: followed, body)
    | _ => none

/-- What a round does: it follows a reference to a rule that was not followed before. -/
theorem follow?_eq_some (h : g.follow? (followed, e) = some (followed', x)) :
    ∃ rule, g.op e = .reference rule ∧ rule ∉ followed ∧ g.body? rule = some x ∧
      followed' = rule :: followed := by
  rw [follow?] at h
  cases hop : g.op e with rw [hop] at h
  | reference rule =>
    obtain ⟨hrule, h⟩ := Option.ite_none_left_eq_some.mp h
    obtain ⟨body, hbody, heq⟩ := Option.map_eq_some_iff.mp h
    cases heq
    exact ⟨rule, rfl, mt List.contains_iff_mem.mpr hrule, hbody, rfl⟩
  | _ => cases h

/-- A reference to a defined rule is not followed only if the rule was followed before. -/
theorem mem_of_follow?_eq_none (h : g.follow? (followed, e) = none) {rule : RuleId}
    (hop : g.op e = .reference rule) (hbody : g.body? rule = some x) : rule ∈ followed := by
  rw [follow?, hop] at h
  dsimp only at h
  split at h
  · rename_i hrule
    exact List.contains_iff_mem.mp hrule
  · rw [hbody] at h
    cases h

theorem resolveSteps_succ (n : Nat) (followed : List RuleId) (e : ExprId) :
    g.resolveSteps (n + 1) followed e =
      (g.follow? (followed, e)).elim e fun (followed', x) ↦ g.resolveSteps n followed' x := by
  rw [resolveSteps, follow?]
  cases g.op e with
  | reference rule =>
    dsimp only
    split
    · rfl
    · cases g.body? rule <;> rfl
  | _ => rfl

/-- With more steps than there are rules to follow, references are followed until the rounds
end. -/
theorem mem_eval_resolveSteps {n : Nat} (hn : g.unentered followed < n) : ∃ followed',
    (followed', g.resolveSteps n followed e) ∈ StateTransition.eval g.follow? (followed, e) := by
  induction n generalizing followed e with
  | zero => exact absurd hn (Nat.not_lt_zero _)
  | succ n ih =>
    rw [resolveSteps_succ]
    rcases hround : g.follow? (followed, e) with - | ⟨followed₁, x⟩
    · exact ⟨followed, StateTransition.mem_eval.mpr ⟨.refl, hround⟩⟩
    · obtain ⟨rule, -, hrule, hbody, rfl⟩ := follow?_eq_some hround
      have hleft := unentered_cons hrule (lt_ruleCount_of_body? hbody)
      have hn' : g.unentered (rule :: followed) < n := by omega
      obtain ⟨followed', hend⟩ := ih (e := x) hn'
      obtain ⟨hreaches, hlast⟩ := StateTransition.mem_eval.mp hend
      exact ⟨followed', StateTransition.mem_eval.mpr ⟨.head hround hreaches, hlast⟩⟩

/-- Following references comes to an end, and `resolve` answers where. -/
theorem exists_mem_eval_resolve (g : Grammar) (e : ExprId) :
    ∃ followed, (followed, g.resolve e) ∈ StateTransition.eval g.follow? ([], e) :=
  mem_eval_resolveSteps (by rw [unentered_nil]; exact Nat.lt_succ_self _)

/-! ### What the rounds know -/

/-- What has come of a node in some rounds: references lead to what is at hand, and they do so from
the bodies of the rules that were followed. -/
structure Trail (g : Grammar) (e : ExprId) (s : List RuleId × ExprId) : Prop where
  /-- References lead from the node to the one at hand. -/
  leads : ReflTransGen g.StandsFor e s.2
  /-- So they do from what the followed references stand for. -/
  body_leads : ∀ rule ∈ s.1, ∀ body, g.body? rule = some body → ReflTransGen g.StandsFor body s.2

namespace Trail

variable {s s' : List RuleId × ExprId}

theorem start (g : Grammar) (e : ExprId) : g.Trail e ([], e) :=
  ⟨.refl, List.forall_mem_nil _⟩

/-- What is known before a round is known after it. -/
theorem follow (h : g.Trail e s) (hround : g.follow? s = some s') : g.Trail e s' := by
  obtain ⟨followed, x⟩ := s
  obtain ⟨followed', y⟩ := s'
  obtain ⟨rule, hop, -, hbody, rfl⟩ := follow?_eq_some hround
  have hstands : g.StandsFor x y := ⟨rule, hop, hbody⟩
  refine ⟨h.leads.tail hstands, fun rule' hrule' body hbody' ↦ ?_⟩
  rcases List.mem_cons.mp hrule' with rfl | hold
  · cases hbody.symm.trans hbody'
    exact .refl
  · exact (h.body_leads rule' hold body hbody').tail hstands

/-- References lead to whatever some rounds come to. -/
theorem of_reaches (h : StateTransition.Reaches g.follow? ([], e) s) : g.Trail e s := by
  induction h with
  | refl => exact start g e
  | tail _ hround ih => exact ih.follow hround

end Trail

theorem exists_trail_resolve (g : Grammar) (e : ExprId) :
    ∃ followed, g.Trail e (followed, g.resolve e) ∧ g.follow? (followed, g.resolve e) = none := by
  obtain ⟨followed, hend⟩ := g.exists_mem_eval_resolve e
  obtain ⟨hreaches, hlast⟩ := StateTransition.mem_eval.mp hend
  exact ⟨followed, .of_reaches hreaches, hlast⟩

/-! ### What is answered -/

/-- References lead from a node to what it comes down to. -/
theorem leads_resolve (g : Grammar) (e : ExprId) : ReflTransGen g.StandsFor e (g.resolve e) := by
  obtain ⟨_, htrail, -⟩ := g.exists_trail_resolve e
  exact htrail.leads

/-- What a node comes down to takes part in matching it. -/
theorem reach_resolve (g : Grammar) (e : ExprId) : g.Reach e (g.resolve e) :=
  reach_of_leads (g.leads_resolve e)

/-- What a node comes down to stands for something on a cycle only: its rule was followed before, so
the body of the rule leads back. -/
theorem circular_resolve (h : g.StandsFor (g.resolve e) x) : g.Circular (g.resolve e) := by
  obtain ⟨followed, htrail, hlast⟩ := g.exists_trail_resolve e
  obtain ⟨rule, hop, hbody⟩ := h
  have hrule := mem_of_follow?_eq_none hlast hop hbody
  exact .head' ⟨rule, hop, hbody⟩ (htrail.body_leads rule hrule x hbody)

/-- The answer is on a cycle exactly if references lead into one. -/
theorem circular_resolve_iff : g.Circular (g.resolve e) ↔ g.EndsInCycle e := by
  constructor
  · exact fun h ↦ ⟨_, g.leads_resolve e, h⟩
  · rintro ⟨x, hx, hcircular⟩
    rcases ReflTransGen.total_of_right_unique g.rightUnique_standsFor (g.leads_resolve e) hx with
      hresolve | hresolve
    · rcases hresolve.cases_head with rfl | ⟨y, hy, -⟩
      · exact hcircular
      · exact circular_resolve hy
    · exact hcircular.of_leads hresolve

/-- A node comes down to the end to which its references lead. -/
theorem resolve_eq_of_leads (hx : ReflTransGen g.StandsFor e x) (hend : ∀ y, ¬g.StandsFor x y) :
    g.resolve e = x := by
  rcases ReflTransGen.total_of_right_unique g.rightUnique_standsFor (g.leads_resolve e) hx with
    hresolve | hresolve
  · rcases hresolve.cases_head with heq | ⟨y, hy, -⟩
    · exact heq
    · -- from a cycle no end can be reached
      obtain ⟨z, hz⟩ := ((circular_resolve hy).of_leads hresolve).exists_standsFor
      exact absurd hz (hend z)
  · rcases hresolve.cases_head with heq | ⟨y, hy, -⟩
    · exact heq.symm
    · exact absurd hy (hend y)

/-- If no cycle is ahead, a reference comes down to what the body of its rule comes down to. -/
theorem resolve_eq_of_standsFor (h : g.StandsFor e x) (hcycle : ¬g.EndsInCycle e) :
    g.resolve x = g.resolve e := by
  have hend (y : ExprId) (hy : g.StandsFor (g.resolve e) y) : False :=
    hcycle (circular_resolve_iff.mp (circular_resolve hy))
  refine resolve_eq_of_leads ?_ hend
  rcases (g.leads_resolve e).cases_head with heq | ⟨y, hy, hleads⟩
  · rw [heq] at h
    exact absurd h (hend x)
  · cases g.rightUnique_standsFor h hy
    exact hleads

end ParsingMachine.Grammar
