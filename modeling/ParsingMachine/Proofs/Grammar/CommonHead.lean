import ParsingMachine.Proofs.Grammar.Evolution
import ParsingMachine.Proofs.Semantics.Adequacy

/-!
# What factoring answers

Factoring has something to do exactly if two neighbouring alternatives of a choice begin with the
same node (`Begins`), where references are looked through. Two parts make this an equivalence: the
search for such a pair is complete (`splitAtShared_eq_none_iff`), and a pair that it finds is always
merged. Only then is an answer given at all, so whether there is one can be said without following
what is made.

Beginning with the same node is a matter of ids and not of what the nodes match. Two bytes of the
same value that were built separately do not count, and two alternatives do that are references to
one rule, as both are looked through to the same body. An empty sequence begins with nothing.

What is made then finds all results of the choice, with the parse states that they leave. That a
choice has a result where the factored one has none is excluded by soundness; that the factored
choice has a further result is not excluded for a choice without results, and the statement is
inclusion for this reason. Nothing that was there before is changed (`IntactIn`), and no node is
reached that the choice does not reach, apart from the nodes that were made.

## Main statements

* `splitAtShared_eq_none_iff`: the search passes over no pair.
* `ensures_mergeAlternatives_isSome`: alternatives that begin alike are merged.
* `reach_of_factorCommonHead`: what a factored choice reaches takes part in matching the choice.
* `results_of_factorCommonHead`: factoring keeps the results of a choice, and when there is no
  answer.
-/

namespace ParsingMachine.Grammar

variable {g : Grammar} {a b x : ExprId} {alts : List ExprId}

/-! ### Neighbours that begin alike -/

/-- What an alternative begins with once its references have been followed: the first item of a
sequence, and any other node itself. -/
def Begins (g : Grammar) (alt x : ExprId) : Prop :=
  match g.op (g.resolve alt) with
  | .sequence items => items.head? = some x
  | _ => g.resolve alt = x

/-- What an alternative begins with is its first element. -/
theorem begins_iff_head? : g.Begins a x ↔ (g.elements a).head? = some x := by
  unfold Begins elements
  dsimp only
  generalize g.resolve a = e
  cases g.op e with
  | sequence items => rfl
  | _ => exact Option.some_inj.symm

/-- Two alternatives begin with one node. -/
def BeginAlike (g : Grammar) (a b : ExprId) : Prop :=
  ∃ x, g.Begins a x ∧ g.Begins b x

/-- The comparison of alternatives is exact. -/
theorem sameHead_iff : g.sameHead a b = true ↔ g.BeginAlike a b := by
  unfold sameHead BeginAlike
  simp only [begins_iff_head?]
  split
  · rename_i x y hx hy
    rw [hx, hy, beq_iff_eq]
    constructor
    · rintro rfl
      exact ⟨x, rfl, rfl⟩
    · rintro ⟨_, ⟨⟩, ⟨⟩⟩
      rfl
  · rename_i hnone
    refine iff_of_false Bool.false_ne_true ?_
    rintro ⟨x, hx, hy⟩
    exact hnone x x hx hy

/-- The search passes over no pair. -/
theorem splitAtShared_eq_none_iff :
    g.splitAtShared alts = none ↔ alts.IsChain fun a b ↦ ¬g.BeginAlike a b := by
  induction alts with
  | nil => exact iff_of_true rfl .nil
  | cons x alts ih =>
    cases alts with
    | nil => exact iff_of_true rfl (.singleton x)
    | cons y alts =>
      rw [splitAtShared, List.isChain_cons_cons, ← sameHead_iff, ← ih]
      split
      · rename_i hsame
        simp [hsame]
      · rename_i hsame
        simp [hsame]

/-! ### Merging -/

theorem isEmpty_sharedHead {xs ys : List ExprId} (hx : xs.head? = some x) (hy : ys.head? = some x) :
    (sharedHead xs ys).isEmpty = false := by
  cases xs with
  | nil => cases hx
  | cons _ xs =>
    cases ys with
    | nil => cases hy
    | cons _ ys =>
      cases hx
      cases hy
      rw [sharedHead, if_pos rfl, List.isEmpty_cons]

/-- Alternatives that begin alike are merged. -/
theorem ensures_mergeAlternatives_isSome (h : g.BeginAlike a b) :
    Builder.Ensures (mergeAlternatives a b) g fun result _ ↦ result.isSome = true := by
  obtain ⟨x, ha, hb⟩ := h
  refine .get ?_
  dsimp only
  rw [isEmpty_sharedHead (begins_iff_head?.mp ha) (begins_iff_head?.mp hb)]
  exact rfl

/-- There is nothing to factor in nodes that are no choices, and in choices without neighbours that
begin alike. -/
theorem ensures_factorCommonHead_eq_none (e : ExprId) :
    Builder.Ensures (factorCommonHead e) g fun result _ ↦
      result = none ↔
        ∀ alts, g.op e = .choice alts → alts.IsChain fun a b ↦ ¬g.BeginAlike a b := by
  refine .get ?_
  split
  · rename_i alts hop
    have halts : (∀ alts', g.op e = .choice alts' → alts'.IsChain fun a b ↦ ¬g.BeginAlike a b) ↔
        g.splitAtShared alts = none := by
      rw [splitAtShared_eq_none_iff]
      refine ⟨fun h ↦ h alts hop, fun h alts' hop' ↦ ?_⟩
      cases hop.symm.trans hop'
      exact h
    simp only [halts]
    split
    · rename_i hsplit
      exact iff_of_true rfl hsplit
    · rename_i before a b rest hsplit
      have hmerge := ensures_mergeAlternatives_isSome (sameHead_iff.mp (of_splitAtShared hsplit).2)
      refine hmerge.bind fun result h hresult ↦ ?_
      split
      · cases hresult
      · exact iff_of_false (fun h ↦ nomatch h) (by simp [hsplit])
  · rename_i hchoice
    exact iff_of_true rfl fun alts hop ↦ absurd hop (hchoice alts)

/-! ### What can be reached -/

/-- What a factored choice reaches takes part in matching the choice, new nodes apart. -/
theorem reach_of_factorCommonHead (hg : g.WellFormed) {factored : ExprId}
    (hfactored : (factorCommonHead a g).1 = some factored)
    (hx : (factorCommonHead a g).2.Reach factored x) : g.size ≤ x ∨ g.Reach a x := by
  obtain ⟨⟨hgrows, -, -⟩, -⟩ := ensures_factorCommonHead hg a
  obtain ⟨alts, hop⟩ : ∃ alts, g.op a = .choice alts := by
    by_contra hchoice
    rw [(ensures_factorCommonHead_eq_none (g := g) a).mpr
      fun alts hop ↦ absurd ⟨alts, hop⟩ hchoice] at hfactored
    cases hfactored
  have hold {y : ExprId} (hy : Embeds g.size (factorCommonHead a g).2 factored y) :
      g.Reach a y := by
    obtain ⟨alt, halt, hreach⟩ := reach_of_embeds hg hop hfactored hy
    exact .head (by rwa [successors, hop]) hreach
  -- first through new nodes, then from an old one on
  have hpath : (g.size ≤ x ∧ Relation.ReflTransGen (fun b c ↦ g.size ≤ b ∧
      c ∈ ((factorCommonHead a g).2.op b).children) factored x) ∨ x < g.size ∧ g.Reach a x := by
    induction hx with
    | refl =>
      by_cases hlt : factored < g.size
      · exact .inr ⟨hlt, hold ⟨hlt, .refl⟩⟩
      · exact .inl ⟨Nat.le_of_not_lt hlt, .refl⟩
    | @tail y z _ hz ih =>
      rcases ih with ⟨hy, hpath⟩ | ⟨hy, hreach⟩
      · have hchild : z ∈ ((factorCommonHead a g).2.op y).children := by
          have hglue := hgrows.isGlue y hy
          unfold successors at hz
          split at hz
          · rename_i rule hrule
            rw [hrule] at hglue
            cases hglue
          · exact hz
        have hpath := hpath.tail ⟨hy, hchild⟩
        by_cases hlt : z < g.size
        · exact .inr ⟨hlt, hold ⟨hlt, hpath⟩⟩
        · exact .inl ⟨Nat.le_of_not_lt hlt, hpath⟩
      · rw [hgrows.toExtends.successors_eq hy] at hz
        exact .inr ⟨successors_lt hg hy hz, hreach.tail hz⟩
  exact hpath.imp (fun h ↦ h.1) fun h ↦ h.2

/-! ### Results -/

/-- Factoring keeps the meaning of a choice: walks from the node that it answers find the result of
the choice, and with it the same parse state. Nothing that was there is changed, and there is no
answer exactly if the node is no choice or no neighbouring alternatives begin alike. -/
theorem results_of_factorCommonHead (hg : g.WellFormed) (e : ExprId) :
    let result := (factorCommonHead e g).1
    let h := (factorCommonHead e g).2
    g.IntactIn h ∧
    (result = none ↔
      ∀ alts, g.op e = .choice alts → alts.IsChain fun a b ↦ ¬g.BeginAlike a b) ∧
    ∀ factored, result = some factored → factored < h.size ∧ ∀ src pos s,
      g.results src e pos s ⊆ h.results src factored pos s := by
  have hintact := keeps_factorCommonHead (enduring_intactIn g) e g (.refl g)
  have hnone := ensures_factorCommonHead_eq_none (g := g) e
  obtain ⟨-, hmakes⟩ := ensures_factorCommonHead hg e
  refine ⟨hintact, hnone, fun factored hfactored ↦ ?_⟩
  obtain ⟨hgh, hlt, hrefines⟩ := hmakes factored hfactored
  refine ⟨hlt, fun src pos s ↦ results_subset fun d r hyields ↦ ?_⟩
  have he : e < g.size := by
    refine lt_size_of_op_ne fun hop ↦ ?_
    rw [hnone.mpr fun alts hop' ↦ nomatch hop.symm.trans hop'] at hfactored
    cases hfactored
  rw [hgh.toExtends.yields_iff hg (t := .node e) he] at hyields
  exact hrefines _ (.refl _) src d pos s r hyields

/-- `S = A / <def t 'x'> 'c'` and `A = <def t 'x'> 'b'`, where one node defines the symbol in both
alternatives. -/
def sharedDefinition : Grammar where
  nodes := #[⟨.byte 120, .synthetic⟩, ⟨.defSymbol "t" 0, .synthetic⟩, ⟨.byte 98, .synthetic⟩,
    ⟨.byte 99, .synthetic⟩, ⟨.sequence [1, 2], .synthetic⟩, ⟨.reference 1, .synthetic⟩,
    ⟨.sequence [1, 3], .synthetic⟩, ⟨.choice [5, 6], .synthetic⟩]
  rules := #[{ name := "S", body := some 7 }, { name := "A", body := some 4 }]

theorem results_of_factorCommonHead_sharedDefinition :
    sharedDefinition.WellFormed ∧ sharedDefinition.BeginAlike 5 6 ∧ ∃ factored h,
      factorCommonHead 7 sharedDefinition = (some factored, h) ∧ sharedDefinition.IntactIn h ∧
      h.op factored = .sequence [1, 8] ∧ h.op 8 = .choice [2, 3] ∧
      some (2, { symbols := [("t", [120])] }) ∈
        h.results { text := #[120, 99] } factored 0 {} := by
  have hg : sharedDefinition.WellFormed := by decide
  obtain ⟨hintact, -, hresults⟩ := results_of_factorCommonHead hg 7
  refine ⟨hg, ⟨1, rfl, rfl⟩, 9, _, rfl, hintact, rfl, rfl, (hresults 9 rfl).2 _ 0 {} ?_⟩
  exact ⟨9, 12, _, _, rfl, rfl⟩

end ParsingMachine.Grammar
