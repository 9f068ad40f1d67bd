import ParsingMachine.Grammar.Tree
import ParsingMachine.Proofs.Grammar.Canonical
import ParsingMachine.Proofs.Grammar.JumpTable
import ParsingMachine.Proofs.Grammar.Passes

/-!
# Grammars in use

Simplifying and factoring add to a grammar and change nothing that was there: nodes with their
spans, rules and jump tables stay (`Grammar.IntactIn`). What they add to the record is right
(`Grammar.Evolves`). So in a grammar that has been in use every question about an old expression has
the old answer: where references lead, what can be reached, and what is written for it.

What is asked of the grammar at the start is little (`SelfContained`): nothing in it points outside
of it. Its record may hold anything for its own nodes, also results of an earlier use or under other
bodies, and its tables may be wrong. It is the same record and the same tables that are used before
and after, and nothing is said of their being sound.

Whatever is right about new records is therefore relative to the record at the start, which is the
`base` of what simplification finds. Relative to it, an answer given now has the same form as one
given at the start.

The questions are of different kinds. Where references lead is decided by the rounds of following
them; a search finds what can be reached, which is the same for old nodes; and a tree is unfolded to
a depth that is enough for both sizes of the grammar (`IntactIn.treeWithin_eq`). None of these looks
at the record, and they hold of every grammar in which the old one is intact.

## Main statements

* `SelfContained.attachTables`: the tables that analysis attaches lead to nodes.
* `enduring_intactIn`: simplifying and factoring leave a grammar intact.
* `Evolves.simplify`, `Evolves.factorCommonHead`: a grammar in use stays one.
* `IntactIn.resolve_eq`, `Evolves.find_eq`, `IntactIn.display_eq`: old expressions have old answers.
-/

namespace ParsingMachine.Grammar

variable {g h k : Grammar} {e : ExprId}

/-! ### What stays -/

/-- Nothing in the grammar points outside it. -/
structure SelfContained (g : Grammar) : Prop where
  /-- Operands come before their nodes, and the bodies of rules are nodes. -/
  wellFormed : g.WellFormed
  /-- What is recorded is about nodes. -/
  closed : g.Closed g.simplified?
  /-- Jump tables are attached to nodes and lead to nodes. -/
  table_lt : ∀ e table, g.table? e = some table → e < g.size ∧ ∀ target ∈ table, target < g.size

namespace SelfContained

/-- Nothing points outside a grammar in which nothing is recorded. -/
theorem of_empty (hg : g.WellFormed) (hrecord : g.simplified = {}) (htables : g.tables = {}) :
    g.SelfContained where
  wellFormed := hg
  closed e other hother := by
    rw [simplified?, hrecord, Std.TreeMap.getElem?_emptyc] at hother
    cases hother
  table_lt e table htable := by
    rw [table?, htables, Std.TreeMap.getElem?_emptyc] at htable
    cases htable

/-- Jump tables lead to nodes while these stay. -/
theorem of_retains (hg : g.SelfContained) (hgh : g.Retains h) (hh : h.WellFormed)
    (hclosed : h.Closed h.simplified?) (htables : h.tables = g.tables) : h.SelfContained where
  wellFormed := hh
  closed := hclosed
  table_lt e table htable := by
    rw [table?, htables] at htable
    obtain ⟨he, htargets⟩ := hg.table_lt e table htable
    exact ⟨Nat.lt_of_lt_of_le he hgh.size_le, fun target htarget ↦
      Nat.lt_of_lt_of_le (htargets target htarget) hgh.size_le⟩

/-- Nodes and rules may be added, and rules may get other bodies. -/
theorem retains (hg : g.SelfContained) (hgh : g.Retains h) (hh : h.WellFormed)
    (hrecord : h.simplified = g.simplified) (htables : h.tables = g.tables) :
    h.SelfContained := by
  refine hg.of_retains hgh hh (fun e other hother ↦ ?_) htables
  rw [simplified?, hrecord] at hother
  exact hg.closed.mono hgh.size_le e other hother

/-- Nothing is recorded outside the arena. -/
theorem simplified?_eq_none (hg : g.SelfContained) (he : g.size ≤ e) : g.simplified? e = none := by
  refine Option.eq_none_iff_forall_ne_some.mpr fun other hother ↦ ?_
  exact Nat.not_le_of_lt (hg.closed e other hother).1 he

/-- No table is attached outside the arena. -/
theorem table?_eq_none (hg : g.SelfContained) (he : g.size ≤ e) : g.table? e = none := by
  refine Option.eq_none_iff_forall_ne_some.mpr fun table htable ↦ ?_
  exact Nat.not_le_of_lt (hg.table_lt e table htable).1 he

/-- A table of nodes may be attached to a node. -/
theorem setTable (hg : g.SelfContained) (he : e < g.size) {table : JumpTable}
    (htable : ∀ target ∈ table, target < g.size) : (g.setTable e table).SelfContained where
  wellFormed := ⟨hg.wellFormed.bottomUp, hg.wellFormed.body_lt⟩
  closed := hg.closed
  table_lt x table' htable' := by
    rw [table?_setTable] at htable'
    split at htable'
    · rename_i heq
      cases htable'
      exact ⟨heq ▸ he, htable⟩
    · exact hg.table_lt x table' htable'

/-- A table of alternatives may be supplied for a choice. -/
theorem attachTable? (hg : g.SelfContained) {alts : List ExprId} (hop : g.op e = .choice alts)
    {table : JumpTable} (htable : ∀ target ∈ table, target ∈ alts)
    (hattach : g.attachTable? e table = some h) : h.SelfContained := by
  obtain ⟨-, ⟨⟩⟩ := Option.ite_none_right_eq_some.mp hattach
  have he : e < g.size := lt_size_of_op_ne (by simp [hop])
  refine hg.setTable he fun target htarget ↦ Nat.lt_trans (hg.wellFormed.child_lt ?_) he
  rw [hop]
  exact htable target htarget

/-- A sound table may be attached. -/
theorem setTable_of_soundTable (hg : g.SelfContained) {table : JumpTable}
    (htable : g.SoundTable e table) : (g.setTable e table).SelfContained := by
  obtain ⟨alts, hop⟩ := htable.exists_choice
  refine hg.setTable (lt_size_of_op_ne (by simp [hop])) fun target htarget ↦ ?_
  obtain ⟨slot, hentry⟩ := htable.exists_entry htarget
  exact hentry.lt

/-- The table that analysis makes for a choice leads to nodes. -/
theorem attachTable (hg : g.SelfContained) (e : ExprId) :
    Builder.Ensures (Grammar.attachTable e) g fun _ h ↦ h.SelfContained := by
  refine Builder.Ensures.get ?_
  split
  · exact hg
  · refine (ensures_makeTable hg.wellFormed e).bind fun result h hresult ↦ ?_
    obtain ⟨hgh, htable⟩ := hresult
    have hh := hg.retains hgh.toRetains (hgh.toGrows.wellFormed hg.wellFormed) hgh.simplified_eq
      hgh.tables_eq
    split
    · exact hh.setTable_of_soundTable (htable _ rfl)
    · exact hh

/-- The tables that analysis attaches lead to nodes. -/
theorem attachTables (hg : g.SelfContained) : (Grammar.attachTables g).2.SelfContained := by
  have hall (choices : List ExprId) {g : Grammar} (hg : g.SelfContained) :
      Builder.Ensures (choices.mapM Grammar.attachTable) g fun _ h ↦ h.SelfContained := by
    induction choices generalizing g with
    | nil => exact hg
    | cons e choices ih =>
      rw [List.mapM_cons]
      exact (hg.attachTable e).bind fun _ h hh ↦ (ih hh).bind fun _ k hk ↦ hk
  exact Builder.Ensures.get (Q := fun _ h ↦ h.SelfContained)
    ((hall g.reachableChoices hg).bind fun _ h hh ↦ hh)

end SelfContained

/-- Nodes may have been added to a grammar and simpler nodes recorded, but nothing that was there
has changed. -/
structure IntactIn (g h : Grammar) : Prop where
  /-- Nodes are only appended. -/
  size_le : g.size ≤ h.size
  /-- Old nodes stay as they are. -/
  nodes_eq : ∀ e < g.size, h.nodes[e]? = g.nodes[e]?
  /-- The rules are the same. -/
  rules_eq : h.rules = g.rules
  /-- The jump tables are the same. -/
  tables_eq : h.tables = g.tables

namespace IntactIn

theorem refl (g : Grammar) : g.IntactIn g :=
  ⟨Nat.le_refl _, fun _ _ ↦ rfl, rfl, rfl⟩

theorem trans (hgh : g.IntactIn h) (hhk : h.IntactIn k) : g.IntactIn k where
  size_le := Nat.le_trans hgh.size_le hhk.size_le
  nodes_eq e he := by
    rw [hhk.nodes_eq e (Nat.lt_of_lt_of_le he hgh.size_le), hgh.nodes_eq e he]
  rules_eq := hhk.rules_eq.trans hgh.rules_eq
  tables_eq := hhk.tables_eq.trans hgh.tables_eq

/-- A grammar that is intact in another one is extended by it. -/
theorem toExtends (hgh : g.IntactIn h) : g.Extends h where
  size_le := hgh.size_le
  op_eq e he := by rw [op, op, hgh.nodes_eq e he]
  body?_eq rule := by rw [body?, body?, hgh.rules_eq]

theorem ruleCount_eq (hgh : g.IntactIn h) : h.ruleCount = g.ruleCount := by
  rw [ruleCount, ruleCount, hgh.rules_eq]

theorem ruleName_eq (hgh : g.IntactIn h) (rule : RuleId) : h.ruleName rule = g.ruleName rule := by
  rw [ruleName, ruleName, hgh.rules_eq]

theorem table?_eq (hgh : g.IntactIn h) (e : ExprId) : h.table? e = g.table? e := by
  rw [table?, table?, hgh.tables_eq]

end IntactIn

/-- Simplifying and factoring leave a grammar intact. -/
theorem enduring_intactIn (g : Grammar) : Enduring g.IntactIn where
  push h op span hgh := hgh.trans {
    size_le := by
      rw [size_push]
      exact Nat.le_succ _
    nodes_eq := fun e he ↦ Array.getElem?_push_lt he ▸ (Array.getElem?_eq_getElem he).symm
    rules_eq := rfl
    tables_eq := rfl }
  setSimplified _ _ _ hgh := hgh.trans ⟨Nat.le_refl _, fun _ _ ↦ rfl, rfl, rfl⟩

/-- A grammar and what simplifying and factoring made of it. -/
structure Evolves (g h : Grammar) : Prop extends g.IntactIn h where
  /-- The record is right. -/
  canonical : h.Canonical g.simplified? []

namespace Evolves

theorem refl (hg : g.SelfContained) : g.Evolves g where
  toIntactIn := .refl g
  canonical := {
    wellFormed := hg.wellFormed
    base_closed := hg.closed
    closed := hg.closed
    base_le := fun _ _ h ↦ h
    marked := fun _ h ↦ by cases h
    right := fun _ _ h _ ↦ found_of_base h }

/-- A grammar in use does not come to point outside itself. -/
theorem selfContained (hg : g.SelfContained) (hgh : g.Evolves h) : h.SelfContained :=
  hg.of_retains hgh.toExtends.toRetains hgh.canonical.wellFormed hgh.canonical.closed
    hgh.tables_eq

/-- Simplification answers what is found. -/
theorem simplify (hgh : g.Evolves h) (he : e < h.size) :
    Builder.Ensures (Grammar.simplify e) h fun other k ↦ (g.Evolves k ∧ h.Extends k) ∧
      other < k.size ∧ k.Right g.simplified? e other := by
  have hintact : g.IntactIn (Grammar.simplify e h).2 :=
    keeps_simplify (enduring_intactIn g) e h hgh.toIntactIn
  obtain ⟨hfills, hlt, hright⟩ := ensures_simplify_canonical hgh.canonical he
  exact ⟨⟨⟨hintact, hfills.canonical⟩, hfills.toExtends⟩, hlt, hright⟩

theorem factorCommonHead (hgh : g.Evolves h) (e : ExprId) :
    g.Evolves (Grammar.factorCommonHead e h).2 ∧ h.Extends (Grammar.factorCommonHead e h).2 := by
  have hintact : g.IntactIn (Grammar.factorCommonHead e h).2 :=
    keeps_factorCommonHead (enduring_intactIn g) e h hgh.toIntactIn
  obtain ⟨happends, -⟩ := ensures_factorCommonHead hgh.canonical.wellFormed e
  have hfills := hgh.canonical.appends happends
  exact ⟨⟨hintact, hfills.canonical⟩, hfills.toExtends⟩

end Evolves

/-! ### Trees -/

/-- The tree of an operator over the trees of its operands. -/
def treeOf (g : Grammar) (sub : ExprId → Tree) : Operator → Tree
  | .empty => .empty
  | .fail => .fail
  | .anyByte => .anyByte
  | .byte b => .byte b
  | .byteClass set => .byteClass set
  | .sequence items => .sequence (items.map sub)
  | .choice alts => .choice (alts.map sub)
  | .star inner _ => .star (sub inner)
  | .plus inner _ => .plus (sub inner)
  | .optional inner => .optional (sub inner)
  | .and inner => .and (sub inner)
  | .not inner => .not (sub inner)
  | .reference rule => .reference (g.ruleName rule)
  | .construct body left => .construct (body.map sub) left
  | .mark m => .mark m
  | .link inner index => .link (sub inner) index
  | .block inner => .block (sub inner)
  | .defSymbol table inner => .defSymbol table (sub inner)
  | .isSymbol table inner lastOnly => .isSymbol table (sub inner) lastOnly
  | .defIndent => .defIndent
  | .isIndent => .isIndent

/-- A tree is made of the trees of the operands. -/
theorem treeWithin_succ (g : Grammar) (depth : Nat) (e : ExprId) :
    g.treeWithin (depth + 1) e = g.treeOf (g.treeWithin depth) (g.op e) := by
  rw [treeWithin]
  cases g.op e <;> rfl

/-- The trees of the operands and the names of rules are all that matters. -/
theorem treeOf_congr {sub sub' : ExprId → Tree} {op : Operator}
    (hname : ∀ rule, h.ruleName rule = g.ruleName rule)
    (hsub : ∀ c ∈ op.children, sub' c = sub c) : h.treeOf sub' op = g.treeOf sub op := by
  cases op with
  | sequence items | choice items => exact congrArg _ (List.map_congr_left hsub)
  | construct items left => exact congrArg (Tree.construct · left) (List.map_congr_left hsub)
  | star inner _ | plus inner _ | optional inner | and inner | not inner | link inner _
  | block inner | defSymbol _ inner | isSymbol _ inner _ =>
    rw [treeOf, treeOf, hsub inner (List.mem_singleton_self inner)]
  | reference rule => exact congrArg Tree.reference (hname rule)
  | _ => rfl

/-! ### Old expressions -/

/-- References are followed as before as long as they lead to a node. -/
theorem IntactIn.resolveSteps_eq (hgh : g.IntactIn h) (n : Nat) (followed : List RuleId)
    (hlt : g.resolveSteps n followed e < g.size) :
    h.resolveSteps n followed e = g.resolveSteps n followed e := by
  induction n generalizing followed e with
  | zero => rfl
  | succ n ih =>
    have he : e < g.size := by
      by_cases hop : g.op e = .fail
      · rwa [resolveSteps, hop] at hlt
      · exact lt_size_of_op_ne hop
    have hround : h.follow? (followed, e) = g.follow? (followed, e) := by
      rw [follow?, follow?, hgh.toExtends.op_eq e he]
      simp only [hgh.toExtends.body?_eq]
    rw [resolveSteps_succ, resolveSteps_succ, hround]
    rw [resolveSteps_succ] at hlt
    generalize g.follow? (followed, e) = next at hlt ⊢
    rcases next with - | ⟨followed', x⟩
    · rfl
    · exact ih followed' hlt

/-- References that lead to a node lead there as before. -/
theorem IntactIn.resolve_eq (hgh : g.IntactIn h) (hlt : g.resolve e < g.size) :
    h.resolve e = g.resolve e := by
  rw [resolve] at hlt
  rw [resolve, resolve, hgh.ruleCount_eq, hgh.resolveSteps_eq _ _ hlt]

section

variable (hgh : g.IntactIn h) (hg : g.WellFormed)
include hgh hg

/-- Trees are the same, to whatever depth they are unfolded. -/
theorem IntactIn.treeWithin_eq {m n : Nat} (he : e < g.size) (hm : e < m) (hn : e < n) :
    h.treeWithin n e = g.treeWithin m e := by
  induction m generalizing n e with
  | zero => cases hm
  | succ m ih =>
    obtain ⟨n, rfl⟩ := Nat.exists_eq_succ_of_ne_zero (Nat.ne_zero_of_lt hn)
    have hchild : ∀ child ∈ (g.op e).children, h.treeWithin n child = g.treeWithin m child := by
      intro child hc
      have hlt := hg.child_lt hc
      exact ih (Nat.lt_trans hlt he) (Nat.lt_of_lt_of_le hlt (Nat.le_of_lt_succ hm))
        (Nat.lt_of_lt_of_le hlt (Nat.le_of_lt_succ hn))
    rw [treeWithin_succ, treeWithin_succ, hgh.toExtends.op_eq e he]
    exact treeOf_congr hgh.ruleName_eq hchild

/-- The same is written for old expressions. -/
theorem IntactIn.display_eq (he : e < g.size) : h.display e = g.display e := by
  have hlt : e < g.size + 1 := Nat.lt_succ_of_lt he
  rw [display, display, tree, tree,
    hgh.treeWithin_eq hg he hlt (Nat.lt_of_lt_of_le hlt (Nat.succ_le_succ hgh.size_le))]

end

/-! ### Searches of old expressions -/

namespace Evolves

variable (hgh : g.Evolves h) (hg : g.WellFormed)
include hgh hg

/-- A search finds what it found. -/
theorem find_eq {test : Operator → Bool} (htest : ∀ rule, test (.reference rule) = false)
    {entered : List RuleId} (he : e < g.size) (hentered : ∀ rule ∈ entered, g.body? rule = some e) :
    h.find test entered e = g.find test entered e := by
  have hentered' (rule : RuleId) (hrule : rule ∈ entered) : h.body? rule = some e :=
    (hgh.toExtends.body?_eq rule).trans (hentered rule hrule)
  have he' : e < h.size := Nat.lt_of_lt_of_le he hgh.size_le
  rw [Bool.eq_iff_iff, find_iff hgh.canonical.wellFormed htest he' hentered',
    find_iff hg htest he hentered]
  refine exists_congr fun x ↦ ?_
  rw [hgh.toExtends.reach_iff hg he]
  refine and_congr_right fun hx ↦ ?_
  rw [hgh.toExtends.op_eq x (reach_lt hg he hx)]

/-- Whether old expressions depend on the parse state is answered as before. -/
theorem find?_isStateQuery_eq (he : e < g.size) :
    h.find? Operator.isStateQuery [] e = g.find? Operator.isStateQuery [] e := by
  rw [find?_eq_some hgh.canonical.wellFormed _ (Nat.lt_of_lt_of_le he hgh.size_le),
    find?_eq_some hg _ he, hgh.find_eq hg (fun _ ↦ rfl) he (List.forall_mem_nil _)]

/-- Whether a rule leaves the syntax tree alone is answered as before. -/
theorem isTreeFree_eq (rule : RuleId) : h.isTreeFree rule = g.isTreeFree rule := by
  rw [isTreeFree, isTreeFree, hgh.toExtends.body?_eq]
  rcases hbody : g.body? rule with - | body
  · rfl
  · refine congrArg (!·) (hgh.find_eq hg (fun _ ↦ rfl) (hg.body_lt rule body hbody) ?_)
    rintro _ hrule
    rwa [List.mem_singleton.mp hrule]

end Evolves

end ParsingMachine.Grammar
