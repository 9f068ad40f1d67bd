import ParsingMachine.Proofs.Grammar.Meaning
import ParsingMachine.Proofs.Grammar.Resolution

/-!
# What references mean

A reference is matched as the body of its rule is, with one step spent on the way. So a node may be
replaced by what it comes down to: walks from both end alike, in the same parse state also after a
failure, and walks from the latter take no more steps (`comesDownTo_resolve`).

All of this follows from one equation for one reference, `StandsFor.eval_eq`, by induction over the
path of references. It is about walks themselves and not about results: the step count and the parse
state after a failure are in it, which the relational form of matching leaves out.

No walk comes out of a cycle of references. A walk that did would come round the cycle to the node
where it began, with less depth to spare than it had, which cannot go on for ever; the induction is
on the depth. So to a match it makes no difference at which node of a cycle `resolve` stops. Where
nodes are compared it can make one: on a cycle, a reference and the body of its rule need not come
down to the same node, and the last part of `comesDownTo_resolve` leaves cycles out for that reason
(`circularNames`).

Nothing is assumed of the grammar. References may lead to rules without a body, operands may come
after their nodes, and ids may lie outside the arena.

## Main statements

* `StandsFor.eval_eq`: a walk spends one step on a reference.
* `walks_eq_of_leads`: walks end alike wherever references lead.
* `EndsInCycle.walks_eq_empty`: no walk ends where references lead into a cycle.
* `comesDownTo_resolve`: every node comes down to the node that `resolve` answers.
-/

namespace ParsingMachine.Grammar

open Relation

variable {g : Grammar} {src : Resident} {e x : ExprId} {depth pos steps : Nat} {s : ParseState}
  {result : Option Nat × WalkState}

/-! ### Walks through references -/

/-- A walk spends one step on a reference. -/
theorem StandsFor.eval_eq (h : g.StandsFor e x) :
    g.eval src (depth + 1) e pos { parse := s, steps := steps + 1 } =
      g.eval src depth x pos { parse := s, steps } := by
  obtain ⟨rule, hop, hbody⟩ := h
  show g.evalOp src depth (g.eval src depth) (g.op e) pos { parse := s, steps } = _
  simp only [hop, evalOp, hbody]

theorem StandsFor.exists_eval (h : g.StandsFor e x)
    (heval : g.eval src depth e pos { parse := s, steps } = some result) :
    ∃ depth' < depth, ∃ steps' < steps,
      g.eval src depth' x pos { parse := s, steps := steps' } = some result := by
  cases depth with
  | zero => cases heval
  | succ depth =>
    cases steps with
    | zero => cases heval
    | succ steps =>
      rw [h.eval_eq] at heval
      exact ⟨depth, Nat.lt_succ_self _, steps, Nat.lt_succ_self _, heval⟩

/-- A walk that ends has fewer steps to take behind references. -/
theorem exists_eval_of_transGen (h : TransGen g.StandsFor e x)
    (heval : g.eval src depth e pos { parse := s, steps } = some result) :
    ∃ depth' < depth, ∃ steps' < steps,
      g.eval src depth' x pos { parse := s, steps := steps' } = some result := by
  induction h with
  | single hstands => exact hstands.exists_eval heval
  | tail _ hstands ih =>
    obtain ⟨depth₁, hdepth₁, steps₁, hsteps₁, heval₁⟩ := ih
    obtain ⟨depth₂, hdepth₂, steps₂, hsteps₂, heval₂⟩ := hstands.exists_eval heval₁
    exact ⟨depth₂, Nat.lt_trans hdepth₂ hdepth₁, steps₂, Nat.lt_trans hsteps₂ hsteps₁, heval₂⟩

theorem exists_eval_of_leads (h : ReflTransGen g.StandsFor e x)
    (heval : g.eval src depth e pos { parse := s, steps } = some result) :
    ∃ depth' ≤ depth, ∃ steps' ≤ steps,
      g.eval src depth' x pos { parse := s, steps := steps' } = some result := by
  rcases reflTransGen_iff_eq_or_transGen.mp h with rfl | h
  · exact ⟨depth, Nat.le_refl _, steps, Nat.le_refl _, heval⟩
  · obtain ⟨depth', hdepth, steps', hsteps, heval'⟩ := exists_eval_of_transGen h heval
    exact ⟨depth', Nat.le_of_lt hdepth, steps', Nat.le_of_lt hsteps, heval'⟩

theorem StandsFor.walks_eq (h : g.StandsFor e x) (pos : Nat) (s : ParseState) :
    g.walks src x pos s = g.walks src e pos s := by
  ext ⟨q, s'⟩
  constructor
  · rintro ⟨depth, steps, left, heval⟩
    exact ⟨depth + 1, steps + 1, left, h.eval_eq.trans heval⟩
  · rintro ⟨depth, steps, left, heval⟩
    obtain ⟨depth', -, steps', -, heval'⟩ := h.exists_eval heval
    exact ⟨depth', steps', left, heval'⟩

/-- Walks end alike wherever references lead. -/
theorem walks_eq_of_leads (h : ReflTransGen g.StandsFor e x) (pos : Nat) (s : ParseState) :
    g.walks src x pos s = g.walks src e pos s := by
  induction h with
  | refl => rfl
  | tail _ hstands ih => rw [hstands.walks_eq, ih]

/-- A walk that came round a cycle would have fewer steps to take than it had. -/
theorem Circular.eval_eq_none (h : g.Circular e) :
    g.eval src depth e pos { parse := s, steps } = none := by
  induction depth using Nat.strong_induction_on generalizing steps with
  | _ depth ih =>
    refine Option.eq_none_iff_forall_ne_some.mpr fun result heval ↦ ?_
    obtain ⟨depth', hdepth, steps', -, heval'⟩ := exists_eval_of_transGen h heval
    rw [ih depth' hdepth] at heval'
    cases heval'

/-- No walk ends where references lead into a cycle. -/
theorem EndsInCycle.walks_eq_empty (h : g.EndsInCycle e) (pos : Nat) (s : ParseState) :
    g.walks src e pos s = ∅ := by
  obtain ⟨x, hx, hcircular⟩ := h
  rw [← walks_eq_of_leads hx]
  refine Set.eq_empty_of_forall_notMem ?_
  rintro _ ⟨depth, steps, left, heval⟩
  rw [hcircular.eval_eq_none] at heval
  cases heval

/-! ### What a node comes down to -/

/-- A node is what another one comes down to when references are followed. -/
structure ComesDownTo (g : Grammar) (e x : ExprId) : Prop where
  /-- The rounds come to an end there. -/
  ends : ∃ followed, (followed, x) ∈ StateTransition.eval g.follow? ([], e)
  /-- It is no reference, or one to a rule without a body, or it is on a cycle of references. -/
  last : (∀ rule, g.op x ≠ .reference rule) ∨
    (∃ rule, g.op x = .reference rule ∧ g.body? rule = none) ∨ g.Circular x
  /-- It is on a cycle exactly if references lead into one. -/
  circular_iff : g.Circular x ↔ g.EndsInCycle e
  /-- Walks from both nodes end alike, or neither ends. -/
  walks_eq : ∀ src pos s, g.walks src x pos s = g.walks src e pos s
  /-- A walk that ends comes to the same end from there, in no more steps. -/
  exists_eval : ∀ src depth pos s steps result,
    g.eval src depth e pos { parse := s, steps } = some result →
    ∃ depth' ≤ depth, ∃ steps' ≤ steps,
      g.eval src depth' x pos { parse := s, steps := steps' } = some result

/-- Every node comes down to the node that `resolve` answers. Unless references lead into a cycle,
that is also what the body of the rule comes down to. -/
theorem comesDownTo_resolve (g : Grammar) (e : ExprId) :
    g.ComesDownTo e (g.resolve e) ∧
      ∀ body, g.StandsFor e body → ¬g.EndsInCycle e → g.resolve body = g.resolve e := by
  have hleads := g.leads_resolve e
  refine ⟨?_, fun body ↦ resolve_eq_of_standsFor⟩
  constructor
  case ends => exact g.exists_mem_eval_resolve e
  case last =>
    by_cases hend : ∀ x, ¬g.StandsFor (g.resolve e) x
    · exact (forall_not_standsFor_iff.mp hend).imp_right .inl
    · obtain ⟨x, hx⟩ := not_forall_not.mp hend
      exact .inr (.inr (circular_resolve hx))
  case circular_iff => exact circular_resolve_iff
  case walks_eq => exact fun _ ↦ walks_eq_of_leads hleads
  case exists_eval => exact fun _ _ _ _ _ _ ↦ exists_eval_of_leads hleads

/-- `A = B` and `B = A`, beside `C = D` and `D = 'x'`. One of two references to `A` is on the
cycle. -/
def circularNames : Grammar where
  nodes := #[⟨.byte 120, .synthetic⟩, ⟨.reference 3, .synthetic⟩, ⟨.reference 2, .synthetic⟩,
    ⟨.reference 1, .synthetic⟩, ⟨.reference 0, .synthetic⟩, ⟨.reference 0, .synthetic⟩]
  rules := #[{ name := "A", body := some 3 }, { name := "B", body := some 4 },
    { name := "C", body := some 1 }, { name := "D", body := some 0 }]

/-- The reference to `C` comes down to the byte, as the body of `C` does. The reference to `A` from
outside comes down to the one on the cycle, and the body of `A` to itself. -/
theorem comesDownTo_resolve_circularNames :
    (circularNames.StandsFor 2 1 ∧ ¬circularNames.EndsInCycle 2 ∧
      circularNames.ComesDownTo 2 0 ∧ circularNames.resolve 1 = circularNames.resolve 2) ∧
    circularNames.StandsFor 5 3 ∧ circularNames.EndsInCycle 5 ∧ circularNames.ComesDownTo 5 4 ∧
      circularNames.resolve 3 ≠ circularNames.resolve 5 := by
  obtain ⟨hbyte, hbody⟩ := comesDownTo_resolve circularNames 2
  obtain ⟨hcycle, -⟩ := comesDownTo_resolve circularNames 5
  have hC : circularNames.StandsFor 2 1 := ⟨2, rfl, rfl⟩
  have hA : circularNames.StandsFor 5 3 := ⟨0, rfl, rfl⟩
  have hends : ¬circularNames.EndsInCycle 2 := by
    rw [← hbyte.circular_iff]
    intro hcircular
    obtain ⟨_, _, hop, -⟩ := hcircular.exists_standsFor
    cases hop
  have hcircular : circularNames.Circular 4 :=
    .tail (.single ⟨0, rfl, rfl⟩) (⟨1, rfl, rfl⟩ : circularNames.StandsFor 3 4)
  exact ⟨⟨hC, hends, hbyte, hbody 1 hC hends⟩, hA, hcycle.circular_iff.mp hcircular, hcycle,
    by decide⟩

end ParsingMachine.Grammar
