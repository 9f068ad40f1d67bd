import ParsingMachine.Proofs.Grammar.Evolution

/-!
# A grammar that is used in two ways

Two programs may be encoded from one grammar, once directly and once after other uses. Each way adds
nodes in an order of its own, so nodes that stand for the same have different ids in the two
grammars that result. `Grammar.Twins` relates them: an old node stands for itself, and new glue for
glue of the same kind over twins.

It is the largest such relation, so a relation with this property shows that nodes are twins. A
definition by recursion would need an order on new nodes, in which operands come first in both
grammars; as a largest relation it needs none. Twins remain twins while the grammars grow, because
the property looks at the nodes and not at what else there is.

Twins have the same form, and are simplified to nodes of the same form, or both to themselves
(`SameAnswer`). This rests on what simplification finds without a record: the records of the two
grammars differ, but both are right relative to the record at the start, and corresponding nodes
find the same. Encoding looks at no more of an answer than its form, so what is needed later are a
few consequences: the same terminal, the same byte set, the same literal, the same dispatch form.

Factoring an old choice makes twins, since factoring does the same where nodes correspond. The nodes
made next in the two grammars correspond to one another by their distance from the first of them
(`Parted`). Only old nodes have jump tables, so twins with tables are the same node.

## Main statements

* `Twins.grow`: twins remain twins while the grammars grow.
* `Twins.simplify`: twins are simplified to nodes of the same form, or both to themselves.
* `twins_factorCommonHead`: factoring an old choice makes twins.
* `Twins.table?_eq`: twins have the same jump table.
-/

namespace ParsingMachine

/-- Glue corresponds under every relation under which its operands do. -/
theorem Operator.Corresponds.of_children {R S : ExprId → ExprId → Prop}
    {body body' body₁ body₁' : RuleId → Option ExprId} {op op' : Operator}
    (h : op.Corresponds R body body' op') (hop : op.isGlue)
    (hchildren : List.Forall₂ S op.children op'.children) :
    op.Corresponds S body₁ body₁' op' := by
  cases h with
  | sequence _ => exact .sequence hchildren
  | choice _ => exact .choice hchildren
  | reference _ _ => cases hop
  | same hsequence hchoice hreference => exact .same hsequence hchoice hreference

namespace Grammar

variable {g h h' k k' : Grammar} {a b x y : ExprId}

/-! ### Twins -/

/-- New nodes of both grammars that are glue of the same kind over corresponding operands. -/
structure Glued (R : ExprId → ExprId → Prop) (g h h' : Grammar) (a x : ExprId) : Prop where
  /-- Both are new. -/
  size_le : g.size ≤ a ∧ g.size ≤ x
  /-- Both are nodes. -/
  lt_size : a < h.size ∧ x < h'.size
  /-- One is glue. -/
  isGlue : (h.op a).isGlue
  /-- The other is the same over corresponding operands. -/
  op : (h.op a).Corresponds R h.body? h'.body? (h'.op x)

/-- Nodes of two grammars that stand for the same. -/
def Twins (g h h' : Grammar) (a x : ExprId) : Prop :=
  ∃ R : ExprId → ExprId → Prop, R a x ∧
    ∀ b y, R b y → (b = y ∧ b < g.size) ∨ Glued R g h h' b y

theorem Glued.imp {R S : ExprId → ExprId → Prop} (ha : Glued R g h h' a x)
    (hRS : ∀ b y, R b y → S b y) : Glued S g h h' a x :=
  ⟨ha.size_le, ha.lt_size, ha.isGlue,
    ha.op.of_children ha.isGlue ((ha.op.children ha.isGlue).imp fun b y ↦ hRS b y)⟩

namespace Twins

/-- An old node stands for itself. -/
theorem old (ha : a < g.size) : Twins g h h' a a :=
  ⟨fun b y ↦ b = y ∧ b < g.size, ⟨rfl, ha⟩, fun _ _ hb ↦ .inl hb⟩

/-- Twins are the same old node, or new glue over twins. -/
theorem old_or_glued (ha : Twins g h h' a x) :
    (a = x ∧ a < g.size) ∨ Glued (Twins g h h') g h h' a x := by
  obtain ⟨R, hax, hR⟩ := ha
  exact (hR a x hax).imp_right fun hglued ↦ hglued.imp fun b y hb ↦ ⟨R, hb, hR⟩

/-- Nodes that are not glue are old. -/
theorem eq_of_not_isGlue (ha : Twins g h h' a x) (hop : ¬(h.op a).isGlue) : a = x ∧ a < g.size :=
  ha.old_or_glued.resolve_right fun hglued ↦ hop hglued.isGlue

/-- Twins are nodes. -/
theorem lt_size (ha : Twins g h h' a x) (hgh : g.Extends h) (hgh' : g.Extends h') :
    a < h.size ∧ x < h'.size := by
  rcases ha.old_or_glued with ⟨rfl, hlt⟩ | hglued
  · exact ⟨Nat.lt_of_lt_of_le hlt hgh.size_le, Nat.lt_of_lt_of_le hlt hgh'.size_le⟩
  · exact hglued.lt_size

/-- Twins remain twins while the grammars grow. -/
theorem grow (ha : Twins g h h' a x) (hhk : h.Extends k) (hhk' : h'.Extends k') :
    Twins g k k' a x := by
  obtain ⟨R, hax, hR⟩ := ha
  refine ⟨R, hax, fun b y hb ↦ (hR b y hb).imp_right fun hglued ↦ ?_⟩
  obtain ⟨hb, hy⟩ := hglued.lt_size
  have hop := hhk.op_eq b hb
  have hop' := hhk'.op_eq y hy
  refine ⟨hglued.size_le, ⟨Nat.lt_of_lt_of_le hb hhk.size_le, Nat.lt_of_lt_of_le hy hhk'.size_le⟩,
    hop ▸ hglued.isGlue, ?_⟩
  rw [hop, hop', funext hhk.body?_eq, funext hhk'.body?_eq]
  exact hglued.op

end Twins

/-- Operands of old nodes are old. -/
theorem Twins.children (hg : g.WellFormed) (ha : a < g.size) :
    ∀ child ∈ (g.op a).children, Twins g h h' child child :=
  fun _ hc ↦ .old (Nat.lt_trans (hg.child_lt hc) ha)

/-! ### Simplification -/

/-- The answers of simplification for two nodes: both nodes themselves, or nodes of the same
form. -/
structure SameAnswer (h h' : Grammar) (a x other other' : ExprId) : Prop where
  /-- If one node is its own answer, so is the other. -/
  eq_iff : other = a ↔ other' = x
  /-- The answers have the same form, now and later. -/
  form_eq : ∀ k k', h.Extends k → h'.Extends k' → k.form other = k'.form other'

namespace SameAnswer

variable {other other' : ExprId}

theorem of_form (hwf : h.WellFormed) (hwf' : h'.WellFormed) (hlt : other < h.size)
    (hlt' : other' < h'.size) (hiff : other = a ↔ other' = x)
    (hform : h.form other = h'.form other') : SameAnswer h h' a x other other' where
  eq_iff := hiff
  form_eq k k' hk hk' := by rw [hk.form_eq hwf hlt, hk'.form_eq hwf' hlt', hform]

variable (hsame : SameAnswer h h' a x other other')
include hsame

/-- Answers stay the same while the grammars grow. -/
theorem grow (hhk : h.Extends k) (hhk' : h'.Extends k') : SameAnswer k k' a x other other' :=
  ⟨hsame.eq_iff, fun m m' hm hm' ↦ hsame.form_eq m m' (hhk.trans hm) (hhk'.trans hm')⟩

theorem terminal_eq : (h.form other).terminal = (h'.form other').terminal :=
  congrArg Form.terminal (hsame.form_eq h h' (.refl h) (.refl h'))

/-- The answers are the same terminal, or none is a terminal. -/
theorem op_eq_or : ((h.op other).isTerminal ∧ h'.op other' = h.op other) ∨
    ((h.op other).isTerminal = false ∧ (h'.op other').isTerminal = false) := by
  have hterminal := hsame.terminal_eq
  by_cases hop : (h.op other).isTerminal
  · have hsome := terminal_form_eq_some.mpr ⟨rfl, hop⟩
    rw [hterminal] at hsome
    exact .inl ⟨hop, (terminal_form_eq_some.mp hsome).1⟩
  · refine .inr ⟨Bool.eq_false_iff.mpr hop, Bool.eq_false_iff.mpr fun hop' ↦ ?_⟩
    have hsome := terminal_form_eq_some.mpr ⟨rfl, hop'⟩
    rw [← hterminal] at hsome
    exact hop ((terminal_form_eq_some.mp hsome).1 ▸ hop')

/-- One of two same answers is a terminal if the other is. -/
theorem isTerminal_eq : (h'.op other').isTerminal = (h.op other).isTerminal := by
  rcases hsame.op_eq_or with ⟨-, hop⟩ | ⟨hop, hop'⟩
  · rw [hop]
  · rw [hop, hop']

theorem byteSet?_eq : (h'.op other').byteSet? = (h.op other).byteSet? := by
  rw [← byteSet?_form, ← byteSet?_form, hsame.form_eq h h' (.refl h) (.refl h')]

theorem literalBytes?_eq : h'.literalBytes? other' = h.literalBytes? other :=
  (congrArg Form.literal (hsame.form_eq h h' (.refl h) (.refl h'))).symm

/-- And a dispatch form of the same class. -/
theorem dispatchForm?_eq : h'.dispatchForm? other' = h.dispatchForm? other :=
  (congrArg Form.dispatch (hsame.form_eq h h' (.refl h) (.refl h'))).symm

end SameAnswer

section

variable (hg : g.SelfContained) (hgh : g.Evolves h) (hgh' : g.Evolves h')
include hg hgh hgh'

/-- Twins correspond as far as simplification looks at them. -/
theorem mirrors_twins : h.Mirrors (Twins g h h') h' where
  op := by
    intro a x ha
    rcases ha.old_or_glued with ⟨rfl, hlt⟩ | hglued
    · rw [hgh.toExtends.op_eq a hlt, hgh'.toExtends.op_eq a hlt, funext hgh.toExtends.body?_eq,
        funext hgh'.toExtends.body?_eq]
      exact Operator.corresponds_self (Twins.children hg.wellFormed hlt)
        fun rule body _ hbody ↦ .old (hg.wellFormed.body_lt rule body hbody)
    · exact hglued.op
  negated := by
    intro a x ha inner hop
    obtain ⟨rfl, hlt⟩ := ha.eq_of_not_isGlue (by rw [hop]; exact Bool.false_ne_true)
    rw [hgh.toExtends.op_eq a hlt] at hop
    exact Twins.children hg.wellFormed hlt inner (by rw [hop]; exact List.mem_singleton_self inner)

/-- The same is found for twins. -/
theorem Twins.found_eq (ha : Twins g h h' a x) :
    h.found g.simplified? a = h'.found g.simplified? x := by
  -- what was recorded is about old nodes, which stand for themselves
  refine (mirrors_twins hg hgh hgh').found_eq (fun b y hb ↦ ?_) ha
  rcases hb.old_or_glued with ⟨rfl, hlt⟩ | hglued
  · exact .inr ⟨rfl, fun other hother ↦ .old (hg.closed b other hother).2⟩
  · exact .inl ⟨hg.simplified?_eq_none hglued.size_le.1, hg.simplified?_eq_none hglued.size_le.2⟩

/-- Twins have the same form. -/
theorem Twins.sameAnswer_self (ha : Twins g h h' a x) : SameAnswer h h' a x a x := by
  obtain ⟨hlt, hlt'⟩ := ha.lt_size hgh.toExtends hgh'.toExtends
  exact .of_form hgh.canonical.wellFormed hgh'.canonical.wellFormed hlt hlt' (iff_of_true rfl rfl)
    ((mirrors_twins hg hgh hgh').form_eq ha)

/-- Twins are simplified to the same, whatever was simplified before. -/
theorem Twins.simplify (ha : Twins g h h' a x) :
    SameAnswer (Grammar.simplify a h).2 (Grammar.simplify x h').2 a x (Grammar.simplify a h).1
      (Grammar.simplify x h').1 := by
  obtain ⟨hlt, hlt'⟩ := ha.lt_size hgh.toExtends hgh'.toExtends
  obtain ⟨⟨hgk, hhk⟩, hother, hright⟩ := hgh.simplify hlt
  obtain ⟨⟨hgk', hhk'⟩, hother', hright'⟩ := hgh'.simplify hlt'
  -- the answers are what is found, which is the same for twins
  have ha' := ha.grow hhk hhk'
  have hfound := ha'.found_eq hg hgk hgk'
  rw [hright, hright'] at hfound
  have hsame := SameAnswer.of_form (a := a) (x := x) hgk.canonical.wellFormed
    hgk'.canonical.wellFormed hother hother'
  split at hfound
  · rename_i heq
    split at hfound
    · rename_i heq'
      refine hsame (iff_of_true heq heq') ?_
      rw [heq, heq']
      exact (mirrors_twins hg hgk hgk').form_eq ha'
    · cases hfound
  · rename_i hne
    split at hfound
    · cases hfound
    · rename_i hne'
      exact hsame (iff_of_false hne hne') (Option.some.inj hfound)

end

/-! ### Factoring -/

/-- Old nodes correspond to themselves, and those made next to one another. -/
def Parted (n m m' a x : Nat) : Prop :=
  (a = x ∧ a < n) ∨ ∃ i, a = m + i ∧ x = m' + i

theorem Parted.unique {n m m' a b x y : Nat} (ha : Parted n m m' a x) (hb : Parted n m m' b y)
    (hm : n ≤ m) (hm' : n ≤ m') : a = b ↔ x = y := by
  rcases ha with ⟨rfl, ha⟩ | ⟨i, rfl, rfl⟩ <;> rcases hb with ⟨rfl, hb⟩ | ⟨j, rfl, rfl⟩
  · exact Iff.rfl
  · omega
  · omega
  · omega

theorem Parted.old_or_new {n m m' a x : Nat} (ha : Parted n m m' a x) :
    (a = x ∧ a < n) ∨ (m ≤ a ∧ m' ≤ x) :=
  ha.imp_right fun ⟨i, ha, hx⟩ ↦ ⟨ha ▸ Nat.le_add_right m i, hx ▸ Nat.le_add_right m' i⟩

section

variable (hg : g.WellFormed) (hgh : g.Evolves h) (hgh' : g.Evolves h')
include hg hgh hgh'

/-- They correspond as far as factoring does. -/
theorem related_parted : h.Related (Parted g.size h.size h'.size) h' where
  unique ha hb := ha.unique hb hgh.size_le hgh'.size_le
  op {a x} ha := by
    rcases ha with ⟨rfl, hlt⟩ | ⟨i, rfl, rfl⟩
    · rw [hgh.toExtends.op_eq a hlt, hgh'.toExtends.op_eq a hlt, funext hgh.toExtends.body?_eq,
        funext hgh'.toExtends.body?_eq]
      exact Operator.corresponds_self
        (fun child hc ↦ .inl ⟨rfl, Nat.lt_trans (hg.child_lt hc) hlt⟩)
        fun rule body _ hbody ↦ .inl ⟨rfl, hg.body_lt rule body hbody⟩
    · rw [op_of_size_le (Nat.le_add_right _ i), op_of_size_le (Nat.le_add_right _ i)]
      exact .same (fun _ h ↦ by cases h) (fun _ h ↦ by cases h) fun _ h ↦ by cases h
  ruleCount_eq := by rw [hgh.ruleCount_eq, hgh'.ruleCount_eq]
  next i := .inr ⟨i, rfl, rfl⟩

/-- What factoring makes of an old choice in one grammar is the twin of what it makes in the
other. -/
theorem twins_factorCommonHead (ha : a < g.size) :
    Option.Rel (Twins g (factorCommonHead a h).2 (factorCommonHead a h').2)
      (factorCommonHead a h).1 (factorCommonHead a h').1 := by
  have hr := related_parted hg hgh hgh'
  obtain ⟨hr', hresult⟩ := hr.factorCommonHead (hr.op (.inl ⟨rfl, ha⟩))
  obtain ⟨happends, hmakes⟩ := ensures_factorCommonHead hgh.canonical.wellFormed a
  obtain ⟨happends', hmakes'⟩ := ensures_factorCommonHead hgh'.canonical.wellFormed a
  have hwf := happends.toGrows.wellFormed hgh.canonical.wellFormed
  have hwf' := happends'.toGrows.wellFormed hgh'.canonical.wellFormed
  generalize (factorCommonHead a h).1 = result, (factorCommonHead a h').1 = result',
    (factorCommonHead a h).2 = k, (factorCommonHead a h').2 = k' at *
  cases hresult with
  | none => exact .none
  | @some e f hef =>
    -- among the nodes of both grammars the relation shows that nodes are twins
    refine .some ⟨fun b y ↦ Parted g.size h.size h'.size b y ∧ b < k.size ∧ y < k'.size,
      ⟨hef, (hmakes e rfl).2.1, (hmakes' f rfl).2.1⟩, fun b y hby ↦ ?_⟩
    obtain ⟨hparted, hb, hy⟩ := hby
    rcases hparted.old_or_new with hold | ⟨hbnew, hynew⟩
    · exact .inl hold
    · have hglue := happends.isGlue b hbnew
      have hop := hr'.op hparted
      refine .inr ⟨⟨Nat.le_trans hgh.size_le hbnew, Nat.le_trans hgh'.size_le hynew⟩, ⟨hb, hy⟩,
        hglue, hop.of_children hglue ?_⟩
      obtain ⟨hlength, hchildren⟩ := List.forall₂_iff_zip.mp (hop.children hglue)
      refine List.forall₂_iff_zip.mpr ⟨hlength, fun {c z} hcz ↦ ⟨hchildren hcz, ?_, ?_⟩⟩
      · exact Nat.lt_trans (hwf.child_lt (List.of_mem_zip hcz).1) hb
      · exact Nat.lt_trans (hwf'.child_lt (List.of_mem_zip hcz).2) hy

end

/-! ### Jump tables -/

/-- Twins have the same jump table. One with a table is old, and so are the entries. -/
theorem Twins.table?_eq (hg : g.SelfContained) (hgh : g.IntactIn h) (hgh' : g.IntactIn h')
    (ha : Twins g h h' a x) : h'.table? x = h.table? a ∧ ∀ table, h.table? a = some table →
      a = x ∧ a < g.size ∧ ∀ target ∈ table, target < g.size := by
  rw [hgh.table?_eq, hgh'.table?_eq]
  rcases ha.old_or_glued with ⟨rfl, hlt⟩ | hglued
  · exact ⟨rfl, fun table htable ↦ ⟨rfl, hlt, (hg.table_lt a table htable).2⟩⟩
  · rw [hg.table?_eq_none hglued.size_le.1, hg.table?_eq_none hglued.size_le.2]
    exact ⟨rfl, fun _ h ↦ by cases h⟩

end Grammar

end ParsingMachine
