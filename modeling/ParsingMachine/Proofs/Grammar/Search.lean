import Mathlib.Data.Finset.Card
import Mathlib.Data.Finset.Dedup
import Mathlib.Data.Finset.Range
import ParsingMachine.Proofs.Grammar.Reach

/-!
# Searches that enter each rule once

`find` enters a rule once in a whole search: a reference to a rule that some branch has entered is
answered as if nothing were behind it. This hides nothing, also among rules that refer to each
other. When the search ends without a find, every rule that it entered has been looked through down
to references, and the rules of these were entered as well (`Exhausts`). So the rules entered are
closed, and nothing that can be reached passes the test. While the search is under way this is not
true of the rules whose bodies are still being searched; the invariant therefore speaks of the rules
entered *meanwhile* and is relative to those entered before.

Nothing will be found later on either, when the grammar has grown: what was looked through is the
same in a larger grammar (`Explored.extends`).

A search that finds something says less about the rules entered, as it stops in the middle; all that
is needed of it is that what it found can be reached. So the two answers have separate inductions,
both over the depth, by the ways in which a search at one node ends (`FindsAt`).

The depth of a search is bounded, and a search that is cut off answers nothing. What makes
`analysisDepth` enough is that each rule is entered at most once on a path, and that between two
rules the path goes down the operands (`Enough`): all nodes for each rule not yet entered, and the
nodes up to this one. Only here is it used that operands come before their nodes.

## Main statements

* `looksThrough_findWithin`: a search that finds nothing has looked through what is in front of it.
* `isSome_findWithin`: with enough depth a search comes to an end.
* `iff_of_find?_eq_some`: a search that ends finds exactly what can be reached, also later on.
* `isContextSensitive_iff_reach`: whether the outcome depends on the parse state.
* `isTreeFree_iff_reach`: whether a rule leaves the syntax tree alone.
-/

namespace ParsingMachine.Grammar

variable {g k : Grammar} {test : Operator → Bool}

/-! ### Depth -/

/-- The number of rules that are not entered yet. -/
def unentered (g : Grammar) (entered : List RuleId) : Nat :=
  (Finset.range g.ruleCount \ entered.toFinset).card

theorem unentered_nil (g : Grammar) : g.unentered [] = g.ruleCount := by
  simp [unentered]

/-- The more rules are entered, the fewer are not. -/
theorem unentered_anti {entered entered' : List RuleId} (h : entered ⊆ entered') :
    g.unentered entered' ≤ g.unentered entered := by
  refine Finset.card_le_card (Finset.sdiff_subset_sdiff (Finset.Subset.refl _) fun rule hrule ↦ ?_)
  exact List.mem_toFinset.mpr (h (List.mem_toFinset.mp hrule))

/-- Entering another rule leaves one rule fewer. -/
theorem unentered_cons {entered : List RuleId} {rule : RuleId} (hrule : rule ∉ entered)
    (hlt : rule < g.ruleCount) : g.unentered (rule :: entered) + 1 = g.unentered entered := by
  rw [unentered, List.toFinset_cons, Finset.sdiff_insert]
  refine Finset.card_erase_add_one (Finset.mem_sdiff.mpr ⟨Finset.mem_range.mpr hlt, ?_⟩)
  rwa [List.mem_toFinset]

/-- The depth is enough for what is below a node: for each rule not yet entered all nodes, and the
nodes up to this one. -/
def Enough (g : Grammar) (depth : Nat) (entered : List RuleId) (e : Nat) : Prop :=
  g.unentered entered * (g.size + 1) + e + 1 ≤ depth

namespace Enough

variable {depth e : Nat} {entered : List RuleId}

/-- At the beginning of a search the depth is enough, whatever is entered. -/
theorem start (he : e < g.size) (entered : List RuleId) : g.Enough g.analysisDepth entered e := by
  have hle : g.unentered entered * (g.size + 1) ≤ g.ruleCount * (g.size + 1) := by
    refine Nat.mul_le_mul_right _ ?_
    rw [← unentered_nil g]
    exact unentered_anti (List.nil_subset _)
  rw [Enough, analysisDepth, Nat.succ_mul]
  omega

/-- There is depth left at a node. -/
theorem pos (h : g.Enough depth entered e) : 0 < depth := by
  rw [Enough] at h
  omega

/-- There is enough depth for an operand. -/
theorem child (h : g.Enough (depth + 1) entered e) {c : Nat} (hc : c < e) :
    g.Enough depth entered c := by
  rw [Enough] at h ⊢
  omega

/-- Rules that are entered meanwhile make the depth last longer. -/
theorem anti (h : g.Enough depth entered e) {entered' : List RuleId} (hsub : entered ⊆ entered') :
    g.Enough depth entered' e := by
  have hle := Nat.mul_le_mul_right (g.size + 1) (unentered_anti (g := g) hsub)
  rw [Enough] at h ⊢
  omega

/-- There is enough depth for the body of a rule that is entered: one rule fewer is left. -/
theorem body (h : g.Enough (depth + 1) entered e) {rule : RuleId} {body : Nat}
    (hrule : rule ∉ entered) (hlt : rule < g.ruleCount) (hbody : body < g.size) :
    g.Enough depth (rule :: entered) body := by
  rw [Enough, ← unentered_cons hrule hlt, Nat.succ_mul] at h
  rw [Enough]
  omega

end Enough

theorem lt_ruleCount_of_body? {rule : RuleId} {body : ExprId} (hbody : g.body? rule = some body) :
    rule < g.ruleCount := by
  refine Nat.lt_of_not_le fun hle ↦ ?_
  rw [body?, Array.getElem?_eq_none hle] at hbody
  cases hbody

/-! ### What a search without a find has looked at -/

/-- No operator that passes the test is met from a node down to references, and the rules of these
are entered. -/
inductive Explored (g : Grammar) (test : Operator → Bool) (entered : List RuleId) : ExprId → Prop
  | reference {e : ExprId} {rule : RuleId} (he : e < g.size) (hop : g.op e = .reference rule)
    (h : rule ∈ entered) : Explored g test entered e
  | operands {e : ExprId} (he : e < g.size) (hop : ∀ rule, g.op e ≠ .reference rule)
    (htest : test (g.op e) = false) (h : ∀ x ∈ (g.op e).children, Explored g test entered x) :
    Explored g test entered e

/-- What was looked through stays so when more rules are entered. -/
theorem Explored.mono {entered entered' : List RuleId} {e : ExprId}
    (h : g.Explored test entered e) (hsub : entered ⊆ entered') : g.Explored test entered' e := by
  induction h with
  | reference he hop hrule => exact .reference he hop (hsub hrule)
  | operands he hop htest _ ih => exact .operands he hop htest ih

/-- What was looked through is the same in a larger grammar. -/
theorem Explored.extends {entered : List RuleId} {e : ExprId} (h : g.Explored test entered e)
    (hgk : g.Extends k) : k.Explored test entered e := by
  induction h with
  | @reference e _ he hop hrule =>
    exact .reference (Nat.lt_of_lt_of_le he hgk.size_le) ((hgk.op_eq e he).trans hop) hrule
  | @operands e he hop htest _ ih =>
    rw [← hgk.op_eq e he] at hop htest ih
    exact .operands (Nat.lt_of_lt_of_le he hgk.size_le) hop htest ih

/-- What a search without a find does to the rules entered: none is forgotten, and the bodies of new
ones are looked through. -/
structure Exhausts (g : Grammar) (test : Operator → Bool) (before after : List RuleId) : Prop where
  /-- Rules stay entered. -/
  subset : before ⊆ after
  /-- Bodies of rules entered meanwhile are looked through. -/
  explored : ∀ rule ∈ after, rule ∈ before ∨
    ∀ body, g.body? rule = some body → g.Explored test after body

theorem Exhausts.refl (entered : List RuleId) : g.Exhausts test entered entered :=
  ⟨List.Subset.refl _, fun _ h ↦ .inl h⟩

/-- Two searches, one after the other. -/
theorem Exhausts.trans {before mid after : List RuleId} (h : g.Exhausts test before mid)
    (h' : g.Exhausts test mid after) : g.Exhausts test before after where
  subset := List.Subset.trans h.subset h'.subset
  explored rule hrule := by
    rcases h'.explored rule hrule with hmid | hbody
    · exact (h.explored rule hmid).imp_right fun hbody body hb ↦ (hbody body hb).mono h'.subset
    · exact .inr hbody

/-- When the rules entered are looked through, nothing that can be reached passes the test. -/
theorem Explored.test_eq_false {entered : List RuleId} {e x : ExprId}
    (htest : ∀ rule, test (.reference rule) = false)
    (hbodies : ∀ rule ∈ entered, ∀ body, g.body? rule = some body → g.Explored test entered body)
    (he : g.Explored test entered e) (hx : g.Reach e x) : test (g.op x) = false := by
  have hexplored : g.Explored test entered x := by
    induction hx with
    | refl => exact he
    | @tail y z _ hz ih =>
      cases ih with
      | reference _ hop hrule =>
        rw [successors, hop] at hz
        exact hbodies _ hrule z (Option.mem_toList.mp hz)
      | operands _ hop _ h =>
        refine h z ?_
        rw [successors] at hz
        split at hz
        · rename_i rule hrule
          exact absurd hrule (hop rule)
        · exact hz
  cases hexplored with
  | reference _ hop _ => rw [hop, htest]
  | operands _ _ hfalse _ => exact hfalse

/-! ### One node -/

section

variable {recur : ExprId → Search Bool} {e : ExprId} {before : List RuleId}

/-- What a search does at a node if it comes to an end: whether it finds something, and the rules
that are entered then. -/
inductive FindsAt (g : Grammar) (test : Operator → Bool) (recur : ExprId → Search Bool) (e : ExprId)
    (before : List RuleId) : Bool × List RuleId → Prop
  | again {rule : RuleId} (hop : g.op e = .reference rule) (hrule : rule ∈ before) :
    FindsAt g test recur e before (false, before)
  | undefined {rule : RuleId} (hop : g.op e = .reference rule) (hrule : rule ∉ before)
    (hbody : g.body? rule = none) : FindsAt g test recur e before (false, rule :: before)
  | body {rule : RuleId} {body : ExprId} {result : Bool × List RuleId}
    (hop : g.op e = .reference rule) (hrule : rule ∉ before) (hbody : g.body? rule = some body)
    (h : recur body (rule :: before) = some result) : FindsAt g test recur e before result
  | operand {after : List RuleId} (hop : ∀ rule, g.op e ≠ .reference rule)
    (h : (g.op e).children.anyM recur before = some (true, after)) :
    FindsAt g test recur e before (true, after)
  | node {found : Bool} {after : List RuleId} (hop : ∀ rule, g.op e ≠ .reference rule)
    (h : (g.op e).children.anyM recur before = some (false, after))
    (htest : test (g.op e) = found) :
    FindsAt g test recur e before (found, after)

/-- What a search does at a reference. -/
theorem findAt_reference {rule : RuleId} (hop : g.op e = .reference rule) :
    g.findAt test recur e before =
      if rule ∈ before then some (false, before)
      else match g.body? rule with
        | some body => recur body (rule :: before)
        | none => some (false, rule :: before) := by
  simp only [findAt, hop]
  show (if before.contains rule then pure false else _ : Search Bool) before = _
  by_cases hrule : rule ∈ before
  · rw [if_pos (List.contains_iff_mem.mpr hrule), if_pos hrule]
    rfl
  · rw [if_neg (mt List.contains_iff_mem.mp hrule), if_neg hrule]
    cases g.body? rule <;> rfl

/-- What a search does at any other node. -/
theorem findAt_operands (hop : ∀ rule, g.op e ≠ .reference rule) :
    g.findAt test recur e before =
      ((g.op e).children.anyM recur before).map fun (found, after) ↦
        (found || test (g.op e), after) := by
  have hsome (op : Operator) :
      ((do if ← op.children.anyM recur then pure true else pure (test op)) : Search Bool) before =
        (op.children.anyM recur before).map fun (found, after) ↦ (found || test op, after) := by
    show (op.children.anyM recur before).bind (fun (found, after) ↦
      (if found then pure true else pure (test op) : Search Bool) after) = _
    rcases op.children.anyM recur before with - | ⟨- | -, after⟩ <;> rfl
  unfold findAt
  generalize g.op e = op at hop ⊢
  cases op with
  | reference rule => exact absurd rfl (hop rule)
  | _ => exact hsome _

/-- How a search at a node ends that does end. -/
theorem findsAt_of_findAt {result : Bool × List RuleId}
    (h : g.findAt test recur e before = some result) : g.FindsAt test recur e before result := by
  by_cases href : ∃ rule, g.op e = .reference rule
  · obtain ⟨rule, hop⟩ := href
    rw [findAt_reference hop] at h
    split at h
    · rename_i hrule
      cases h
      exact .again hop hrule
    · rename_i hrule
      split at h
      · rename_i body hbody
        exact .body hop hrule hbody h
      · rename_i hbody
        cases h
        exact .undefined hop hrule hbody
  · have hop (rule : RuleId) : g.op e ≠ .reference rule := fun h ↦ href ⟨rule, h⟩
    rw [findAt_operands hop] at h
    obtain ⟨⟨found, after⟩, hchildren, rfl⟩ := Option.map_eq_some_iff.mp h
    cases found with
    | false => exact .node hop hchildren rfl
    | true => exact .operand hop hchildren

theorem anyM_cons_apply (x : ExprId) (xs : List ExprId) :
    (x :: xs).anyM recur before =
      (recur x before).bind fun (found, after) ↦
        if found then some (true, after) else xs.anyM recur after := by
  show (recur x before).bind (fun (found, after) ↦ (match found with
    | true => pure true
    | false => xs.anyM recur : Search Bool) after) = _
  rcases recur x before with - | ⟨- | -, after⟩ <;> rfl

theorem findsAt_of_findWithin {depth : Nat} {result : Bool × List RuleId}
    (h : g.findWithin test (depth + 1) e before = some result) :
    e < g.size ∧ g.FindsAt test (g.findWithin test depth) e before result := by
  rw [findWithin] at h
  split at h
  · rename_i he
    exact ⟨he, findsAt_of_findAt h⟩
  · cases h

end

/-! ### Searches that find nothing -/

/-- When a search finds nothing, it has looked through what is in front of it. -/
def LooksThrough (g : Grammar) (test : Operator → Bool) (recur : ExprId → Search Bool) : Prop :=
  ∀ e before after, recur e before = some (false, after) →
    g.Exhausts test before after ∧ g.Explored test after e

namespace LooksThrough

variable {recur : ExprId → Search Bool}

/-- A search over a list that finds nothing has looked through all of it. -/
theorem anyM (hrecur : g.LooksThrough test recur) (xs : List ExprId) {before after : List RuleId}
    (h : xs.anyM recur before = some (false, after)) :
    g.Exhausts test before after ∧ ∀ x ∈ xs, g.Explored test after x := by
  induction xs generalizing before with
  | nil =>
    cases h
    exact ⟨.refl _, fun _ hx ↦ nomatch hx⟩
  | cons x xs ih =>
    rw [anyM_cons_apply] at h
    obtain ⟨⟨found, mid⟩, hx, h⟩ := Option.bind_eq_some_iff.mp h
    cases found with
    | false =>
      obtain ⟨hmid, hexplored⟩ := hrecur x before mid hx
      obtain ⟨hafter, hrest⟩ := ih h
      refine ⟨hmid.trans hafter, fun y hy ↦ ?_⟩
      rcases List.mem_cons.mp hy with rfl | hy
      · exact hexplored.mono hafter.subset
      · exact hrest y hy
    | true => cases h

/-- Where something is found, an operand was searched. -/
theorem exists_of_anyM (xs : List ExprId) {before after : List RuleId}
    (h : xs.anyM recur before = some (true, after)) :
    ∃ x ∈ xs, ∃ mid, recur x mid = some (true, after) := by
  induction xs generalizing before with
  | nil => cases h
  | cons x xs ih =>
    rw [anyM_cons_apply] at h
    obtain ⟨⟨found, mid⟩, hx, h⟩ := Option.bind_eq_some_iff.mp h
    cases found with
    | false =>
      obtain ⟨y, hy, mid', hfound⟩ := ih h
      exact ⟨y, List.mem_cons_of_mem _ hy, mid', hfound⟩
    | true =>
      cases h
      exact ⟨x, List.mem_cons_self, before, hx⟩

/-- A rule counts as entered before its body is searched, so the body may refer to it. -/
theorem enter {rule : RuleId} {e : ExprId} {before after : List RuleId} (he : e < g.size)
    (hop : g.op e = .reference rule) (hafter : g.Exhausts test (rule :: before) after)
    (hbody : ∀ body, g.body? rule = some body → g.Explored test after body) :
    g.Exhausts test before after ∧ g.Explored test after e := by
  refine ⟨⟨fun r hr ↦ hafter.subset (List.mem_cons_of_mem _ hr), fun r hr ↦ ?_⟩,
    .reference he hop (hafter.subset List.mem_cons_self)⟩
  rcases hafter.explored r hr with hr | hr
  · rcases List.mem_cons.mp hr with rfl | hr
    · exact .inr hbody
    · exact .inl hr
  · exact .inr hr

end LooksThrough

/-- A search that does not come to an end does not answer that there is nothing. -/
theorem looksThrough_findWithin (depth : Nat) : g.LooksThrough test (g.findWithin test depth) := by
  induction depth with
  | zero => exact fun e before after h ↦ nomatch h
  | succ depth ih =>
    intro e before after h
    obtain ⟨he, hfinds⟩ := findsAt_of_findWithin h
    cases hfinds with
    | again hop hrule => exact ⟨.refl _, .reference he hop hrule⟩
    | undefined hop hrule hbody =>
      refine LooksThrough.enter he hop (.refl _) fun body hb ↦ ?_
      cases hbody.symm.trans hb
    | body hop hrule hbody h =>
      obtain ⟨hafter, hexplored⟩ := ih _ _ after h
      refine LooksThrough.enter he hop hafter fun body' hb ↦ ?_
      cases hbody.symm.trans hb
      exact hexplored
    | node hop h htest =>
      obtain ⟨hafter, hexplored⟩ := ih.anyM _ h
      exact ⟨hafter, .operands he hop htest hexplored⟩

/-! ### Searches that find something -/

/-- A search answers that there is something only if it can be reached. -/
theorem exists_of_findWithin (depth : Nat) {e : ExprId} {before after : List RuleId}
    (h : g.findWithin test depth e before = some (true, after)) :
    ∃ x < g.size, g.Reach e x ∧ test (g.op x) = true := by
  induction depth generalizing e before after with
  | zero => cases h
  | succ depth ih =>
    obtain ⟨he, hfinds⟩ := findsAt_of_findWithin h
    cases hfinds with
    | body hop _ hbody h =>
      obtain ⟨x, hlt, hx, htest⟩ := ih h
      exact ⟨x, hlt, .head (mem_successors_of_body? hop hbody) hx, htest⟩
    | operand _ h =>
      obtain ⟨c, hc, mid, h⟩ := LooksThrough.exists_of_anyM _ h
      obtain ⟨x, hlt, hx, htest⟩ := ih h
      exact ⟨x, hlt, .head (mem_successors_of_mem_children hc) hx, htest⟩
    | node _ _ htest => exact ⟨e, he, .refl, htest⟩

/-! ### Searches that come to an end -/

/-- A search over a list ends if all searches in it end, whatever rules were entered meanwhile. -/
theorem isSome_anyM {recur : ExprId → Search Bool} (hrecur : g.LooksThrough test recur)
    (xs : List ExprId) {before : List RuleId}
    (h : ∀ x ∈ xs, ∀ mid, before ⊆ mid → (recur x mid).isSome) :
    (xs.anyM recur before).isSome := by
  induction xs generalizing before with
  | nil => rfl
  | cons x xs ih =>
    obtain ⟨⟨found, mid⟩, hx⟩ :=
      Option.isSome_iff_exists.mp (h x List.mem_cons_self before (List.Subset.refl _))
    rw [anyM_cons_apply, hx, Option.bind_some]
    cases found with
    | true => rfl
    | false =>
      have hsub := (hrecur x before mid hx).1.subset
      exact ih fun y hy mid' hmid' ↦
        h y (List.mem_cons_of_mem _ hy) mid' (List.Subset.trans hsub hmid')

/-- With enough depth a search comes to an end. -/
theorem isSome_findWithin (hg : g.WellFormed) {depth : Nat} {e : ExprId} (he : e < g.size)
    {before : List RuleId} (hdepth : g.Enough depth before e) :
    (g.findWithin test depth e before).isSome := by
  induction depth generalizing e before with
  | zero => exact absurd hdepth.pos (Nat.lt_irrefl 0)
  | succ depth ih =>
    rw [findWithin, if_pos he]
    by_cases href : ∃ rule, g.op e = .reference rule
    · obtain ⟨rule, hop⟩ := href
      rw [findAt_reference hop]
      split
      · rfl
      · rename_i hrule
        split
        · rename_i body hbody
          have hlt := hg.body_lt _ _ hbody
          exact ih hlt (hdepth.body hrule (lt_ruleCount_of_body? hbody) hlt)
        · rfl
    · rw [findAt_operands fun rule h ↦ href ⟨rule, h⟩, Option.isSome_map]
      refine isSome_anyM (looksThrough_findWithin depth) _ fun c hc mid hmid ↦ ?_
      have hlt := hg.child_lt hc
      exact ih (Nat.lt_trans hlt he) ((hdepth.child hlt).anti hmid)

/-- The search from a node of the arena comes to an end. -/
theorem find?_eq_some (hg : g.WellFormed) (test : Operator → Bool) {e : ExprId} (he : e < g.size)
    (entered : List RuleId) : g.find? test entered e = some (g.find test entered e) := by
  have hsome : (g.find? test entered e).isSome := by
    rw [find?, Option.isSome_map]
    exact isSome_findWithin hg he (.start he entered)
  obtain ⟨found, hfound⟩ := Option.isSome_iff_exists.mp hsome
  rw [find, hfound, Option.getD_some]

/-! ### Whole searches -/

/-- A search that comes to an end finds exactly what can be reached, also in a larger grammar. The
rules entered beforehand may be those whose body is searched. -/
theorem iff_of_find?_eq_some (htest : ∀ rule, test (.reference rule) = false)
    {entered : List RuleId} {e : ExprId} (hentered : ∀ rule ∈ entered, g.body? rule = some e)
    {found : Bool} (h : g.find? test entered e = some found) (hgk : g.Extends k) :
    found = true ↔ ∃ x, k.Reach e x ∧ test (k.op x) = true := by
  obtain ⟨⟨found, after⟩, hfind, rfl⟩ := Option.map_eq_some_iff.mp h
  cases found with
  | true =>
    obtain ⟨x, hlt, hx, hfound⟩ := exists_of_findWithin _ hfind
    refine iff_of_true rfl ⟨x, hgk.reach hx, ?_⟩
    rwa [hgk.op_eq x hlt]
  | false =>
    refine iff_of_false Bool.false_ne_true ?_
    rintro ⟨x, hx, hfound⟩
    obtain ⟨hexhausts, hexplored⟩ := looksThrough_findWithin _ e entered after hfind
    have hbodies : ∀ rule ∈ after, ∀ body, k.body? rule = some body →
        k.Explored test after body := by
      intro rule hrule body hbody
      rw [hgk.body?_eq] at hbody
      rcases hexhausts.explored rule hrule with hrule | hall
      · cases (hentered rule hrule).symm.trans hbody
        exact hexplored.extends hgk
      · exact (hall body hbody).extends hgk
    rw [(hexplored.extends hgk).test_eq_false htest hbodies hx] at hfound
    cases hfound

/-- A search finds exactly what can be reached. -/
theorem find_iff (hg : g.WellFormed) (htest : ∀ rule, test (.reference rule) = false)
    {entered : List RuleId} {e : ExprId} (he : e < g.size)
    (hentered : ∀ rule ∈ entered, g.body? rule = some e) :
    g.find test entered e = true ↔ ∃ x, g.Reach e x ∧ test (g.op x) = true :=
  iff_of_find?_eq_some htest hentered (find?_eq_some hg test he entered) (.refl g)

/-! ### Dependence on the parse state -/

/-- The outcome of matching an expression is said to depend on symbols or indentation exactly when a
query of these can be reached. That each rule is entered once hides no query, however the rules
refer to each other. -/
theorem isContextSensitive_iff_reach (hg : g.WellFormed) {e : ExprId} (he : e < g.size) :
    g.isContextSensitive e = true ↔ ∃ x, g.Reach e x ∧ (g.op x).isStateQuery = true :=
  find_iff hg (fun _ ↦ rfl) he (List.forall_mem_nil _)

/-- `A = B 'x' / C`, `B = A 'y'` and `C = B <indent>`. From a reference to `B` on, `B` is met again
on two branches before the query is. -/
def closingCycle : Grammar where
  nodes := #[⟨.reference 0, .synthetic⟩, ⟨.reference 1, .synthetic⟩, ⟨.reference 2, .synthetic⟩,
    ⟨.byte 120, .synthetic⟩, ⟨.byte 121, .synthetic⟩, ⟨.isIndent, .synthetic⟩,
    ⟨.sequence [1, 3], .synthetic⟩, ⟨.choice [6, 2], .synthetic⟩, ⟨.sequence [0, 4], .synthetic⟩,
    ⟨.sequence [1, 5], .synthetic⟩]
  rules := #[{ name := "A", body := some 7 }, { name := "B", body := some 8 },
    { name := "C", body := some 9 }]

theorem isContextSensitive_iff_reach_closingCycle :
    closingCycle.WellFormed ∧ 1 < closingCycle.size ∧ closingCycle.isContextSensitive 1 = true ∧
      ∃ x, closingCycle.Reach 1 x ∧ (closingCycle.op x).isStateQuery = true := by
  have hg : closingCycle.WellFormed := by decide
  have he : 1 < closingCycle.size := by decide
  have hsensitive : closingCycle.isContextSensitive 1 = true := by decide
  exact ⟨hg, he, hsensitive, (isContextSensitive_iff_reach hg he).mp hsensitive⟩

/-! ### Rules that leave the syntax tree alone -/

/-- A rule is said to leave the syntax tree alone exactly when no operator on the tree can be
reached from its body. The search begins with the rule itself entered, so a reference from the body
back to the rule is not followed; nothing is behind it that the search does not see anyway. -/
theorem isTreeFree_iff_reach (hg : g.WellFormed) (rule : RuleId) :
    g.isTreeFree rule = true ↔
      ∀ body, g.body? rule = some body → ∀ x, g.Reach body x → (g.op x).isTreeOperator = false := by
  rw [isTreeFree]
  cases hbody : g.body? rule with
  | none => exact iff_of_true rfl fun _ h ↦ nomatch h
  | some body =>
    have hentered : ∀ r ∈ [rule], g.body? r = some body := by
      intro r hr
      rw [List.mem_singleton.mp hr, hbody]
    have hfind : g.find Operator.isTreeOperator [rule] body = true ↔
        ∃ x, g.Reach body x ∧ (g.op x).isTreeOperator = true :=
      find_iff hg (fun _ ↦ rfl) (hg.body_lt rule body hbody) hentered
    calc (!g.find Operator.isTreeOperator [rule] body) = true
        ↔ ¬g.find Operator.isTreeOperator [rule] body = true := by simp
      _ ↔ ¬∃ x, g.Reach body x ∧ (g.op x).isTreeOperator = true := not_congr hfind
      _ ↔ ∀ x, g.Reach body x → (g.op x).isTreeOperator = false := by simp
      _ ↔ ∀ b, some body = some b → ∀ x, g.Reach b x → (g.op x).isTreeOperator = false := by simp

/-- `A = B 'x' / C`, `B = A 'y'` and `C = B <capture>`, and apart from these `D = 'x' E` and
`E = D / 'y'`. The bodies of `A`, `B` and `C` reach the capture, which stands behind a reference
back; those of `D` and `E` reach only each other. -/
def capturingCycle : Grammar where
  nodes := #[⟨.reference 0, .synthetic⟩, ⟨.reference 1, .synthetic⟩, ⟨.reference 2, .synthetic⟩,
    ⟨.byte 120, .synthetic⟩, ⟨.byte 121, .synthetic⟩, ⟨.mark .capture, .synthetic⟩,
    ⟨.sequence [1, 3], .synthetic⟩, ⟨.choice [6, 2], .synthetic⟩, ⟨.sequence [0, 4], .synthetic⟩,
    ⟨.sequence [1, 5], .synthetic⟩, ⟨.reference 3, .synthetic⟩, ⟨.reference 4, .synthetic⟩,
    ⟨.sequence [3, 11], .synthetic⟩, ⟨.choice [10, 4], .synthetic⟩]
  rules := #[{ name := "A", body := some 7 }, { name := "B", body := some 8 },
    { name := "C", body := some 9 }, { name := "D", body := some 12 },
    { name := "E", body := some 13 }]

theorem isTreeFree_iff_reach_capturingCycle :
    capturingCycle.WellFormed ∧
      (capturingCycle.isTreeFree 1 = false ∧ ¬∀ body, capturingCycle.body? 1 = some body →
        ∀ x, capturingCycle.Reach body x → (capturingCycle.op x).isTreeOperator = false) ∧
      (capturingCycle.isTreeFree 3 = true ∧ ∀ body, capturingCycle.body? 3 = some body →
        ∀ x, capturingCycle.Reach body x → (capturingCycle.op x).isTreeOperator = false) := by
  have hg : capturingCycle.WellFormed := by decide
  have htouching : capturingCycle.isTreeFree 1 = false := by decide
  have hfree : capturingCycle.isTreeFree 3 = true := by decide
  refine ⟨hg, ⟨htouching, fun h ↦ ?_⟩, hfree, (isTreeFree_iff_reach hg 3).mp hfree⟩
  have hcontra := (isTreeFree_iff_reach hg 1).mpr h
  rw [htouching] at hcontra
  cases hcontra

end ParsingMachine.Grammar
