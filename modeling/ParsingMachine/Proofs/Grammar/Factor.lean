import ParsingMachine.Grammar.Factor
import ParsingMachine.Proofs.Grammar.Resolution

/-!
# Factoring is sound

A factored choice has every result of the choice. Factoring takes alternatives apart, compares their
elements as nodes, and puts nodes together again; each part is a lemma of its own.

The forms that are taken apart have all results of their parts put together (`refines_elements`,
`refines_sequenceItems`, `refines_choiceItems`). Alternatives are looked at through references, and
a reference has every result of what it comes down to; that references may lead into a cycle does no
harm, as there are no results then. Nodes put together from parts have all results of these
(`Makes`), whether a new node was needed or not.

In between, a common beginning may be taken out of a choice (`refines_factored`). Two alternatives
that begin with the same nodes are merged to one, and this one is compared with the alternative
after it, from left to right. Only neighbours are merged, so the order of alternatives never
changes, and the statement for a list is an induction over it with the merged alternative at its
head.

All refinements are stated for every grammar that extends the one at hand, since more nodes are made
before the factored choice is complete.

How many nodes factoring makes is bounded by the number of alternatives. This is needed for the
depth of encoding, which must be fixed before the nodes are made.

## Main statements

* `refines_resolve`: a reference has every result of what it comes down to.
* `ensures_mergeAlternatives`: two alternatives are merged to one with the results of both.
* `ensures_mergeFollowing`: alternatives from left to right.
* `ensures_factorCommonHead`: a factored choice has every result of the choice.
* `size_factorCommonHead_le`: how many nodes factoring makes.
-/

namespace ParsingMachine.Grammar

variable {g h k : Grammar} {src : Resident}

/-! ### Taking apart -/

/-- A reference has every result of what it stands for. -/
theorem refines_of_standsFor (hgk : g.Extends k) {e x : ExprId} (h : g.StandsFor e x) :
    Refines k src (.node e) (.node x) := by
  obtain ⟨rule, hop, hbody⟩ := h
  have hnode := refines_of_node k src e
  rw [hgk.op_eq_of_ne (by simp [hop]), hop] at hnode
  exact hnode.trans (refines_body ((hgk.body?_eq rule).trans hbody))

/-- And of all nodes to which references lead from it. -/
theorem refines_of_leads (hgk : g.Extends k) {e x : ExprId}
    (h : Relation.ReflTransGen g.StandsFor e x) : Refines k src (.node e) (.node x) := by
  induction h with
  | refl => exact .refl _
  | tail _ hstands ih => exact ih.trans (refines_of_standsFor hgk hstands)

/-- A reference has every result of what it comes down to. -/
theorem refines_resolve (hgk : g.Extends k) (e : ExprId) :
    Refines k src (.node e) (.node (g.resolve e)) :=
  refines_of_leads hgk (g.leads_resolve e)

theorem resolve_lt (hg : g.WellFormed) {e : ExprId} (he : e < g.size) : g.resolve e < g.size := by
  rcases (g.leads_resolve e).cases_tail with heq | ⟨_, -, rule, -, hbody⟩
  · rwa [heq]
  · exact hg.body_lt rule _ hbody

/-- An alternative is the sequence of its elements. -/
theorem refines_elements (hgk : g.Extends k) (src : Resident) (e : ExprId) :
    Refines k src (.node e) (.all ((g.elements e).map .node)) := by
  refine (refines_resolve hgk e).trans ?_
  unfold elements
  dsimp only
  split
  · rename_i items hop
    have hnode := refines_of_node k src (g.resolve e)
    rw [hgk.op_eq_of_ne (by simp [hop]), hop] at hnode
    exact hnode
  · exact refines_both_done _

/-- The elements of an alternative are nodes. -/
theorem elements_lt (hg : g.WellFormed) {e : ExprId} (he : e < g.size) :
    ∀ x ∈ g.elements e, x < g.size := by
  intro x hx
  have hresolve := resolve_lt hg he
  unfold elements at hx
  dsimp only at hx
  split at hx
  · rename_i items hop
    exact Nat.lt_trans (hg.child_lt (by rw [hop]; exact hx)) hresolve
  · rw [List.mem_singleton.mp hx]
    exact hresolve

/-- A node is the sequence of the items that it contributes to one. -/
theorem refines_sequenceItems (hgk : g.Extends k) (e : ExprId) :
    Refines k src (.node e) (.all ((g.sequenceItems e).map .node)) := by
  have hnode := refines_of_node k src e
  unfold sequenceItems
  split
  · rename_i items hop
    rw [hgk.op_eq_of_ne (by simp [hop]), hop] at hnode
    exact hnode
  · rename_i hop
    rw [hgk.op_eq_of_ne (by simp [hop]), hop] at hnode
    exact hnode
  · exact refines_both_done _

theorem sequenceItems_lt (hg : g.WellFormed) {e : ExprId} (he : e < g.size) :
    ∀ x ∈ g.sequenceItems e, x < g.size := by
  intro x hx
  unfold sequenceItems at hx
  split at hx
  · rename_i items hop
    exact Nat.lt_trans (hg.child_lt (by rw [hop]; exact hx)) he
  · cases hx
  · rw [List.mem_singleton.mp hx]
    exact he

/-- A node is the choice of the alternatives that it contributes to one. -/
theorem refines_choiceItems (hgk : g.Extends k) (src : Resident) (e : ExprId) :
    Refines k src (.node e) (.any ((g.choiceItems e).map .node)) := by
  unfold choiceItems
  split
  · rename_i alts hop
    have hnode := refines_of_node k src e
    rw [hgk.op_eq_of_ne (by simp [hop]), hop] at hnode
    exact hnode
  · exact refines_either_fails _

theorem choiceItems_lt (hg : g.WellFormed) {e : ExprId} (he : e < g.size) :
    ∀ x ∈ g.choiceItems e, x < g.size := by
  intro x hx
  unfold choiceItems at hx
  split at hx
  · rename_i alts hop
    exact Nat.lt_trans (hg.child_lt (by rw [hop]; exact hx)) he
  · rw [List.mem_singleton.mp hx]
    exact he

/-- The shared beginning of two lists, and what follows it. -/
theorem eq_sharedHead_append (xs ys : List ExprId) :
    xs = sharedHead xs ys ++ xs.drop (sharedHead xs ys).length ∧
      ys = sharedHead xs ys ++ ys.drop (sharedHead xs ys).length := by
  induction xs generalizing ys with
  | nil => cases ys <;> exact ⟨rfl, rfl⟩
  | cons x xs ih =>
    cases ys with
    | nil => exact ⟨rfl, rfl⟩
    | cons y ys =>
      rw [sharedHead]
      split
      · rename_i heq
        obtain ⟨hx, hy⟩ := ih ys
        subst heq
        exact ⟨congrArg (x :: ·) hx, congrArg (x :: ·) hy⟩
      · exact ⟨rfl, rfl⟩

/-! ### Putting together -/

/-- A sequence of items is made with nested sequences taken apart. -/
theorem ensures_flatSequence {items : List ExprId} (hg : g.WellFormed)
    (hitems : ∀ e ∈ items, e < g.size) :
    Builder.Ensures (flatSequence items) g (Makes g fun _ ↦ .all (items.map .node)) := by
  refine Builder.Ensures.get ((ensures_sequence fun e he ↦ ?_).imp fun e h ⟨hgh, hlt, href⟩ ↦ ?_)
  · obtain ⟨item, hitem, he⟩ := List.mem_flatMap.mp he
    exact sequenceItems_lt hg (hitems item hitem) e he
  · exact ⟨hgh, hlt, fun k hk src ↦ (refines_all_flatMap items g.sequenceItems fun e _ ↦
      refines_sequenceItems (hgh.toExtends.trans hk) e).trans (href k hk src)⟩

/-- Two alternatives with a common beginning are merged to one with the results of both. -/
theorem ensures_mergeAlternatives {a b : ExprId} (hg : g.WellFormed) (ha : a < g.size)
    (hb : b < g.size) :
    Builder.Ensures (mergeAlternatives a b) g fun result h ↦ g.Appends h ∧
      ∀ merged, result = some merged →
        Makes g (fun _ ↦ .either (.node a) (.node b)) merged h := by
  refine Builder.Ensures.get ?_
  dsimp only
  obtain ⟨hheadA, hheadB⟩ := eq_sharedHead_append (g.elements a) (g.elements b)
  split
  · exact ⟨.refl g, fun _ h ↦ (nomatch h)⟩
  · generalize sharedHead (g.elements a) (g.elements b) = shared at hheadA hheadB ⊢
    have hltA := elements_lt hg ha
    have hltB := elements_lt hg hb
    refine (ensures_flatSequence hg fun e he ↦ hltA e (List.mem_of_mem_drop he)).bind
      fun restA g₁ h₁ ↦ ?_
    obtain ⟨hg₁, hrestA, hrefA⟩ := h₁
    have hwf₁ := hg₁.wellFormed hg
    refine (ensures_flatSequence hwf₁ fun e he ↦
      Nat.lt_of_lt_of_le (hltB e (List.mem_of_mem_drop he)) hg₁.size_le).bind fun restB g₂ h₂ ↦ ?_
    obtain ⟨hg₂, hrestB, hrefB⟩ := h₂
    have hwf₂ := hg₂.wellFormed hwf₁
    refine Builder.Ensures.get ((ensures_choice fun e he ↦ ?_).bind fun suffix g₃ h₃ ↦ ?_)
    · rcases List.mem_append.mp he with he | he
      · exact choiceItems_lt hwf₂ (Nat.lt_of_lt_of_le hrestA hg₂.size_le) e he
      · exact choiceItems_lt hwf₂ hrestB e he
    obtain ⟨hg₃, hsuffix, hrefS⟩ := h₃
    have hwf₃ := hg₃.wellFormed hwf₂
    have hg₁₃ := hg₁.trans (hg₂.trans hg₃)
    have hshared (e : ExprId) (he : e ∈ shared) : e < g₃.size := by
      refine Nat.lt_of_lt_of_le (hltA e ?_) hg₁₃.size_le
      rw [hheadA]
      exact List.mem_append_left _ he
    refine Builder.Ensures.get (.map ((ensures_flatSequence hwf₃ fun e he ↦ ?_).imp
      fun merged g₄ h₄ ↦ ?_))
    · rcases List.mem_append.mp he with he | he
      · exact hshared e he
      · exact sequenceItems_lt hwf₃ hsuffix e he
    obtain ⟨hg₄, hmerged, hrefM⟩ := h₄
    refine ⟨hg₁₃.trans hg₄, fun result hresult ↦ ?_⟩
    cases hresult
    refine ⟨hg₁₃.trans hg₄, hmerged, fun k hk src ↦ ?_⟩
    -- the grammars on the way are all extended by `k`
    have hk₃ := hg₄.toExtends.trans hk
    have hk₂ := hg₃.toExtends.trans hk₃
    have hk₁ := hg₂.toExtends.trans hk₂
    have hk₀ := hg₁.toExtends.trans hk₁
    have hsplit {x : ExprId} {rest : List ExprId} (hx : g.elements x = shared ++ rest) :
        Refines k src (.node x) (.both (.all (shared.map .node)) (.all (rest.map .node))) := by
      have helements := refines_elements hk₀ src x
      rw [hx, List.map_append] at helements
      exact helements.trans (refines_all_append _ _)
    -- what follows is taken apart again, so that choices in it are not nested
    have hsuffix' : Refines k src
        (.either (.all (((g.elements a).drop shared.length).map .node))
          (.all (((g.elements b).drop shared.length).map .node)))
        (.all ((g₃.sequenceItems suffix).map .node)) := by
      have hrests := (hrefA k hk₁ src).either (hrefB k hk₂ src)
      have hitems := (refines_choiceItems hk₂ src restA).either
        (refines_choiceItems hk₂ src restB)
      have hchoice := hrefS k hk₃ src
      rw [List.map_append] at hchoice
      exact ((hrests.trans hitems).trans (refines_any_append _ _)).trans
        (hchoice.trans (refines_sequenceItems hk₃ suffix))
    have hmerge := hrefM k hk src
    rw [List.map_append] at hmerge
    exact ((hsplit hheadA).either (hsplit hheadB)).trans ((refines_factored _ _ _).trans
      (((Refines.refl _).both hsuffix').trans ((refines_of_all_append _ _).trans hmerge)))

/-- Alternatives from left to right, each merged with the ones before it as long as they begin with
the same node. -/
theorem ensures_mergeFollowing {common : ExprId} {alts : List ExprId} (hg : g.WellFormed)
    (hcommon : common < g.size) (halts : ∀ alt ∈ alts, alt < g.size) :
    Builder.Ensures (mergeFollowing common alts) g fun results h ↦ g.Appends h ∧
      (∀ e ∈ results, e < h.size) ∧ ∀ k, h.Extends k → ∀ src,
        Refines k src (.any ((common :: alts).map .node)) (.any (results.map .node)) := by
  induction alts generalizing g common with
  | nil =>
    refine ⟨.refl g, fun e he ↦ ?_, fun k _ src ↦ .refl _⟩
    rw [List.mem_singleton.mp he]
    exact hcommon
  | cons alt alts ih =>
    have halt := halts alt List.mem_cons_self
    refine (ensures_mergeAlternatives hg hcommon halt).bind fun result h hresult ↦ ?_
    obtain ⟨hgh, hmerged⟩ := hresult
    have hrest (e : ExprId) (he : e ∈ alts) : e < h.size :=
      Nat.lt_of_lt_of_le (halts e (List.mem_cons_of_mem _ he)) hgh.size_le
    split
    · rename_i merged
      obtain ⟨-, hlt, href⟩ := hmerged merged rfl
      refine (ih (hgh.wellFormed hg) hlt hrest).imp fun results k hk ↦ ?_
      obtain ⟨hhk, hresults, hrefs⟩ := hk
      exact ⟨hgh.trans hhk, hresults, fun m hm src ↦ (refines_of_either_assoc _ _ _).trans
        (((href m (hhk.toExtends.trans hm) src).either (.refl _)).trans (hrefs m hm src))⟩
    · refine .map ((ih (hgh.wellFormed hg) (Nat.lt_of_lt_of_le halt hgh.size_le) hrest).imp
        fun results k hk ↦ ?_)
      obtain ⟨hhk, hresults, hrefs⟩ := hk
      refine ⟨hgh.trans hhk, fun e he ↦ ?_, fun m hm src ↦ (Refines.refl _).either (hrefs m hm src)⟩
      rcases List.mem_cons.mp he with rfl | he
      · exact Nat.lt_of_lt_of_le hcommon (hgh.trans hhk).size_le
      · exact hresults e he

/-- The search for neighbours that begin with the same node finds such a pair. -/
theorem of_splitAtShared {alts before rest : List ExprId} {a b : ExprId}
    (h : g.splitAtShared alts = some (before, a, b, rest)) :
    alts = before ++ a :: b :: rest ∧ g.sameHead a b = true := by
  induction alts generalizing before with
  | nil => cases h
  | cons x alts ih =>
    cases alts with
    | nil => cases h
    | cons y alts =>
      rw [splitAtShared] at h
      split at h
      · rename_i hsame
        cases h
        exact ⟨rfl, hsame⟩
      · obtain ⟨⟨before', pair⟩, hsplit, heq⟩ := Option.map_eq_some_iff.mp h
        cases heq
        obtain ⟨halts, hsame⟩ := ih hsplit
        exact ⟨congrArg (x :: ·) halts, hsame⟩

/-- A factored choice has every result of the choice. -/
theorem ensures_factorCommonHead (hg : g.WellFormed) (e : ExprId) :
    Builder.Ensures (factorCommonHead e) g fun result h ↦ g.Appends h ∧
      ∀ factored, result = some factored → Makes g (fun _ ↦ .node e) factored h := by
  have hnothing : g.Appends g ∧
      ∀ factored, none = some factored → Makes g (fun _ ↦ .node e) factored g :=
    ⟨.refl g, fun _ h ↦ (nomatch h)⟩
  refine Builder.Ensures.get ?_
  split
  · rename_i alts hop
    have he : e < g.size := lt_size_of_op_ne (by simp [hop])
    have halts (alt : ExprId) (halt : alt ∈ alts) : alt < g.size :=
      Nat.lt_trans (hg.child_lt (by rw [hop]; exact halt)) he
    split
    · exact hnothing
    · rename_i before a b rest hsplit
      have heq := (of_splitAtShared hsplit).1
      have hmem (x : ExprId) (hx : x ∈ before ∨ x = a ∨ x = b ∨ x ∈ rest) : x < g.size :=
        halts x (by rw [heq]; simpa using hx)
      refine (ensures_mergeAlternatives hg (hmem a (by simp)) (hmem b (by simp))).bind
        fun result g₁ h₁ ↦ ?_
      obtain ⟨hg₁, hmerged⟩ := h₁
      split
      · exact ⟨hg₁, fun _ h ↦ (nomatch h)⟩
      · rename_i common
        obtain ⟨-, hcommon, hrefC⟩ := hmerged common rfl
        have hlt₁ (x : ExprId) (hx : x ∈ rest) : x < g₁.size :=
          Nat.lt_of_lt_of_le (hmem x (by simp [hx])) hg₁.size_le
        refine (ensures_mergeFollowing (hg₁.wellFormed hg) hcommon hlt₁).bind fun results g₂ h₂ ↦ ?_
        obtain ⟨hg₂, hresults, hrefR⟩ := h₂
        refine .map ((ensures_choice fun x hx ↦ ?_).imp fun factored g₃ h₃ ↦ ?_)
        · rcases List.mem_append.mp hx with hx | hx
          · exact Nat.lt_of_lt_of_le (hmem x (by simp [hx])) (hg₁.trans hg₂).size_le
          · exact hresults x hx
        · obtain ⟨hg₃, hfactored, hrefF⟩ := h₃
          have hg₀₃ := hg₁.trans (hg₂.trans hg₃)
          refine ⟨hg₀₃, fun factored' hfactored' ↦ ?_⟩
          cases hfactored'
          refine ⟨hg₀₃, hfactored, fun k hk src ↦ ?_⟩
          have hk₂ := hg₃.toExtends.trans hk
          have hk₁ := hg₂.toExtends.trans hk₂
          have hnode := refines_of_node k src e
          rw [(hg₁.toExtends.trans hk₁).op_eq e he, hop, heq, Operator.term,
            List.map_append] at hnode
          have htail : Refines k src (.any ((a :: b :: rest).map .node))
              (.any (results.map .node)) :=
            (refines_of_either_assoc _ _ _).trans
              (((hrefC k hk₁ src).either (.refl _)).trans (hrefR k hk₂ src))
          have hchoice := hrefF k hk src
          rw [List.map_append] at hchoice
          exact (hnode.trans (refines_any_tail _ htail)).trans hchoice
  · exact hnothing

/-! ### How many nodes are made -/

theorem size_sequence_le (items : List ExprId) :
    Builder.Ensures (sequence items) g fun _ h ↦ h.size ≤ g.size + 1 := by
  match items with
  | [_] => exact Nat.le_add_right _ _
  | [] | _ :: _ :: _ => exact Nat.le_of_eq (size_push g _ _)

theorem size_choice_le (alts : List ExprId) :
    Builder.Ensures (choice alts) g fun _ h ↦ h.size ≤ g.size + 1 := by
  match alts with
  | [_] => exact Nat.le_add_right _ _
  | [] | _ :: _ :: _ => exact Nat.le_of_eq (size_push g _ _)

theorem size_flatSequence_le (items : List ExprId) :
    Builder.Ensures (flatSequence items) g fun _ h ↦ h.size ≤ g.size + 1 :=
  .get (size_sequence_le _)

/-- The beginning, what follows it on both sides, and the choice between these: four nodes at
most. -/
theorem size_mergeAlternatives_le (a b : ExprId) :
    Builder.Ensures (mergeAlternatives a b) g fun _ h ↦ h.size ≤ g.size + 4 := by
  refine .get ?_
  dsimp only
  split
  · exact Nat.le_add_right _ _
  · refine (size_flatSequence_le _).bind fun restA g₁ h₁ ↦ ?_
    refine (size_flatSequence_le _).bind fun restB g₂ h₂ ↦ .get ?_
    refine (size_choice_le _).bind fun suffix g₃ h₃ ↦ .get (.map ?_)
    refine (size_flatSequence_le _).imp fun merged g₄ h₄ ↦ ?_
    omega

/-- Each alternative is merged at most once. -/
theorem size_mergeFollowing_le (common : ExprId) (alts : List ExprId) :
    Builder.Ensures (mergeFollowing common alts) g fun _ h ↦ h.size ≤ g.size + 4 * alts.length := by
  induction alts generalizing g common with
  | nil => exact Nat.le_refl _
  | cons alt alts ih =>
    refine (size_mergeAlternatives_le common alt).bind fun result g₁ h₁ ↦ ?_
    rw [List.length_cons]
    split
    · refine (ih _).imp fun results g₂ h₂ ↦ ?_
      omega
    · refine .map ((ih _).imp fun results g₂ h₂ ↦ ?_)
      omega

/-- Four nodes for each alternative that is merged, and the choice. -/
theorem size_factorCommonHead_le {e : ExprId} {alts : List ExprId} (hop : g.op e = .choice alts) :
    Builder.Ensures (factorCommonHead e) g fun _ h ↦ h.size ≤ g.size + (4 * alts.length + 1) := by
  refine .get ?_
  rw [hop]
  dsimp only
  split
  · exact Nat.le_add_right _ _
  · rename_i before a b rest hsplit
    have hlength : alts.length = before.length + (rest.length + 2) := by
      rw [(of_splitAtShared hsplit).1, List.length_append, List.length_cons, List.length_cons]
    refine (size_mergeAlternatives_le a b).bind fun result g₁ h₁ ↦ ?_
    split
    · exact Nat.le_trans h₁ (by omega)
    · refine (size_mergeFollowing_le _ rest).bind fun results g₂ h₂ ↦ .map ?_
      refine (size_choice_le _).imp fun factored g₃ h₃ ↦ ?_
      omega

end ParsingMachine.Grammar
