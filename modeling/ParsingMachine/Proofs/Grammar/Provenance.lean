import Mathlib.Data.Finset.Card
import ParsingMachine.Proofs.Grammar.Attachment
import ParsingMachine.Proofs.Grammar.Order

/-!
# Where nodes come from

Encoding a node comes to its operands and to the entries of jump tables (`Grammar.Involves`), and to
what passes make of these. A pass invents nothing else: a node is simplified to a new node, to a
node for which it stands, or to what is recorded for such a node, and a factored choice is put
together from what the choice involves and from new nodes. So a node that has nothing to do with a
set of nodes stays that way, whatever else is simplified and factored in between (`Grammar.Avoids`).

Operands need not come before their nodes for this; it is enough that they are nodes. An order of
ids is therefore no help, and two things take its place. That a subtree is listed completely, though
it is unfolded to a fixed depth, rests on paths that visit no node twice: as many levels are enough
as there are nodes that were not visited. And that a pass stays among the right nodes is an
invariant of the pass, a set of nodes that is closed under operands (`Known`, `Composes`), with one
lemma for each function of factoring.

References are excluded in the nodes that are spoken of (`Plain`). A reference would bring in the
body of its rule, which is made of other nodes altogether.

What a node is simplified to may come from the record, and what is recorded for a node may be any
node. That nothing from the set is recorded for the nodes at hand has to be asked for at the start
and is kept by simplification, for which the induction over its recursion is reused
(`Answering.simplifyWithin`).

## Main statements

* `mem_subtree_iff`: the subtree of a node holds its operands at every depth.
* `answering_simplify`: where answers of simplification come from.
* `ensures_known_factorCommonHead`, `Assembles.known_of_involves`: what a factored choice is made
  of.
* `Avoids.simplify`, `Avoids.factorCommonHead`: a node that avoids a set does so after every pass.
-/

namespace ParsingMachine.Grammar

open Builder

variable {g h k : Grammar} {J : ExprId → Prop} {e x y other : ExprId}

/-! ### Ids of nodes -/

/-- The side tables of a grammar are about its nodes. -/
structure Tidy (g : Grammar) : Prop where
  /-- What is recorded is recorded for nodes. -/
  recorded_lt : ∀ e other, g.simplified? e = some other → e < g.size
  /-- Jump tables are attached to nodes. -/
  table_lt : ∀ e table, g.table? e = some table → e < g.size

/-- No id leads outside the grammar. -/
structure NoDangling (g : Grammar) : Prop extends g.Tidy where
  /-- Operands are nodes. -/
  child_lt : ∀ e, ∀ child ∈ (g.op e).children, child < g.size
  /-- Entries of jump tables are nodes. -/
  entry_lt : ∀ e table, g.table? e = some table → ∀ target ∈ table, target < g.size

/-- A self-contained grammar has no dangling ids. -/
theorem SelfContained.noDangling (hg : g.SelfContained) : g.NoDangling where
  recorded_lt e other hother := (hg.closed e other hother).1
  table_lt e table htable := (hg.table_lt e table htable).1
  child_lt _ _ hc := Nat.lt_trans (hg.wellFormed.child_lt hc) (lt_size_of_mem_children hc)
  entry_lt e table htable := (hg.table_lt e table htable).2

/-! ### Subtrees -/

theorem mem_foldl_subtreeOnto (depth : Nat) (children rest : List ExprId) :
    x ∈ children.foldl (g.subtreeOnto depth) rest ↔
      x ∈ rest ∨ ∃ c ∈ children, x ∈ g.subtreeOnto depth [] c := by
  induction children generalizing rest with
  | nil => simp
  | cons c children ih =>
    rw [List.foldl_cons, ih, subtreeOnto_eq_append, List.mem_append, List.exists_mem_cons_iff,
      or_assoc, or_left_comm]

/-- The subtree of a node holds the node and the subtrees of its operands. -/
theorem mem_subtreeOnto_succ {depth : Nat} : x ∈ g.subtreeOnto (depth + 1) [] e ↔
    x = e ∨ ∃ c ∈ (g.op e).children, x ∈ g.subtreeOnto depth [] c := by
  rw [subtreeOnto, List.mem_cons, mem_foldl_subtreeOnto]
  simp

/-- What a subtree holds is an operand at some depth. -/
theorem contains_of_mem_subtree (h : x ∈ g.subtree e) : g.Contains e x := by
  have key (depth : Nat) {e : ExprId} (h : x ∈ g.subtreeOnto depth [] e) : g.Contains e x := by
    induction depth generalizing e with
    | zero => cases h
    | succ depth ih =>
      rcases mem_subtreeOnto_succ.mp h with rfl | ⟨c, hc, h⟩
      · exact .refl
      · exact .head hc (ih h)
  exact key _ h

/-- A path that comes back to where it starts may as well start when it is there for the last
time. -/
theorem exists_step_avoiding {r : ExprId → ExprId → Prop} (h : Relation.ReflTransGen r e x) :
    e = x ∨ ∃ c, r e c ∧ c ≠ e ∧ Relation.ReflTransGen (fun a b ↦ r a b ∧ b ≠ e) c x := by
  induction h with
  | refl => exact .inl rfl
  | @tail y z _ hz ih =>
    by_cases hne : z = e
    · exact .inl hne.symm
    · rcases ih with rfl | ⟨c, hc, hce, hpath⟩
      · exact .inr ⟨z, hz, hne, .refl⟩
      · exact .inr ⟨c, hc, hce, hpath.tail ⟨hz, hne⟩⟩

/-- As many levels are enough as there are nodes that were not visited. -/
theorem mem_subtreeOnto_of_unvisited (hg : g.NoDangling) {depth : Nat} {visited : Finset ExprId}
    (hvisited : visited ⊆ Finset.range g.size) (hdepth : g.size ≤ depth + visited.card)
    (he : e < g.size) (hnew : e ∉ visited)
    (hpath : Relation.ReflTransGen (fun a b ↦ b ∈ (g.op a).children ∧ b ∉ visited) e x) :
    x ∈ g.subtreeOnto depth [] e := by
  induction depth generalizing e visited with
  | zero =>
    -- all nodes were visited
    have heq := Finset.eq_of_subset_of_card_le hvisited (by simpa using hdepth)
    rw [heq, Finset.mem_range] at hnew
    exact absurd he hnew
  | succ depth ih =>
    rcases exists_step_avoiding hpath with rfl | ⟨c, ⟨hc, hcnew⟩, hne, hpath⟩
    · exact mem_subtreeOnto_succ.mpr (.inl rfl)
    · have hmem {a : ExprId} : a ∉ insert e visited ↔ a ≠ e ∧ a ∉ visited := by
        rw [Finset.mem_insert, not_or]
      refine mem_subtreeOnto_succ.mpr (.inr ⟨c, hc,
        ih (Finset.insert_subset (Finset.mem_range.mpr he) hvisited) ?_ (hg.child_lt e c hc)
          (hmem.mpr ⟨hne, hcnew⟩) ?_⟩)
      · rw [Finset.card_insert_of_notMem hnew]
        omega
      · exact hpath.lift id fun a b hb ↦ ⟨hb.1.1, hmem.mpr ⟨hb.2, hb.1.2⟩⟩

/-- The subtree of a node holds its operands at every depth. -/
theorem mem_subtree_iff (hg : g.NoDangling) (he : e < g.size) :
    x ∈ g.subtree e ↔ g.Contains e x := by
  refine ⟨contains_of_mem_subtree, fun hpath ↦ ?_⟩
  exact mem_subtreeOnto_of_unvisited hg (Finset.empty_subset _) (Nat.le_succ _) he
    (Finset.notMem_empty _) (hpath.lift id fun a b hb ↦ ⟨hb, Finset.notMem_empty b⟩)

/-- Operands at every depth are nodes. -/
theorem NoDangling.contains_lt (hg : g.NoDangling) (he : e < g.size) (h : g.Contains e x) :
    x < g.size := by
  induction h with
  | refl => exact he
  | tail _ hc _ => exact hg.child_lt _ _ hc

/-! ### What a node involves -/

/-- The operands of a node and the entries of its jump table. -/
def parts (g : Grammar) (e : ExprId) : List ExprId :=
  (g.op e).children ++ (g.table? e).getD []

/-- Encoding a node comes to another one, as an operand or as an entry of a jump table. -/
def Involves (g : Grammar) : ExprId → ExprId → Prop :=
  Relation.ReflTransGen fun e x ↦ x ∈ g.parts e

theorem mem_parts : x ∈ g.parts e ↔
    x ∈ (g.op e).children ∨ ∃ table, g.table? e = some table ∧ x ∈ table := by
  rw [parts, List.mem_append]
  refine or_congr_right ?_
  cases g.table? e <;> simp

/-- What a node involves is in every list that holds the node and with each node its parts. -/
theorem Involves.mem {es : List ExprId} (hes : ∀ x ∈ es, ∀ y ∈ g.parts x, y ∈ es) (he : e ∈ es)
    (h : g.Involves e x) : x ∈ es := by
  induction h with
  | refl => exact he
  | tail _ hy ih => exact hes _ ih _ hy

/-- What a node involves are nodes. -/
theorem NoDangling.involves_lt (hg : g.NoDangling) (he : e < g.size) (h : g.Involves e x) :
    x < g.size := by
  induction h with
  | refl => exact he
  | tail _ hy _ =>
    rcases mem_parts.mp hy with hc | ⟨table, htable, hmem⟩
    · exact hg.child_lt _ _ hc
    · exact hg.entry_lt _ table htable _ hmem

/-- An old node has the same parts in a larger grammar. -/
theorem IntactIn.parts_eq (hgh : g.IntactIn h) (he : e < g.size) : h.parts e = g.parts e := by
  rw [parts, parts, hgh.toExtends.op_eq e he, hgh.table?_eq]

/-- What a node involves are nodes, and none of them is a reference. -/
structure Plain (g : Grammar) (e : ExprId) : Prop where
  /-- They are nodes. -/
  lt_size : ∀ x, g.Involves e x → x < g.size
  /-- None is a reference. -/
  noReference : ∀ x rule, g.Involves e x → g.op x ≠ .reference rule

namespace Plain

/-- What a plain node involves is plain. -/
theorem of_involves (he : g.Plain e) (hx : g.Involves e x) : g.Plain x where
  lt_size y hy := he.lt_size y (hx.trans hy)
  noReference y rule hy := he.noReference y rule (hx.trans hy)

/-- It is enough to look at the parts. -/
theorem of_parts (hlt : e < g.size) (hop : ∀ rule, g.op e ≠ .reference rule)
    (hparts : ∀ x ∈ g.parts e, g.Plain x) : g.Plain e where
  lt_size y hy := by
    rcases Relation.ReflTransGen.cases_head hy with rfl | ⟨x, hx, hy⟩
    · exact hlt
    · exact (hparts x hx).lt_size y hy
  noReference y rule hy := by
    rcases Relation.ReflTransGen.cases_head hy with rfl | ⟨x, hx, hy⟩
    · exact hop rule
    · exact (hparts x hx).noReference y rule hy

/-- In a larger grammar it involves what it involved. -/
theorem involves (he : g.Plain e) (hgh : g.IntactIn h) (hx : h.Involves e x) : g.Involves e x := by
  induction hx with
  | refl => exact .refl
  | tail _ hy ih =>
    refine ih.tail ?_
    rwa [← hgh.parts_eq (he.lt_size _ ih)]

/-- A plain node stays plain in a larger grammar. -/
theorem intact (he : g.Plain e) (hgh : g.IntactIn h) : h.Plain e where
  lt_size x hx := Nat.lt_of_lt_of_le (he.lt_size x (he.involves hgh hx)) hgh.size_le
  noReference x rule hx := by
    have hold := he.involves hgh hx
    rw [hgh.toExtends.op_eq x (he.lt_size x hold)]
    exact he.noReference x rule hold

end Plain

/-! ### Simplifying -/

/-- A grammar in use, in which nothing from one set of nodes is recorded for nodes of another. -/
structure RecordsApart (g : Grammar) (S J : ExprId → Prop) (h : Grammar) : Prop
    extends g.Extends h where
  /-- What is recorded is not in the set. -/
  recorded : ∀ x other, S x → h.simplified? x = some other → ¬J other

namespace RecordsApart

variable {S : ExprId → Prop}

theorem push (hh : g.RecordsApart S J h) (op : Operator) (span : Span) :
    g.RecordsApart S J (h.push op span) :=
  ⟨hh.toExtends.trans ((enduring_intactIn h).push h op span (.refl h)).toExtends, hh.recorded⟩

theorem setSimplified (hh : g.RecordsApart S J h) (hother : S e → ¬J other) :
    g.RecordsApart S J (h.setSimplified e other) where
  toExtends := hh.toExtends.trans (.of_eq rfl rfl)
  recorded x simpler hx hsimpler := by
    rw [simplified?_setSimplified] at hsimpler
    split at hsimpler
    · rename_i heq
      cases hsimpler
      subst heq
      exact hother hx
    · exact hh.recorded x simpler hx hsimpler

end RecordsApart

/-- A node is not simplified to a node of a set that has neither the nodes for which it stands nor
what is recorded for them. -/
theorem answering_simplify {S : ExprId → Prop} (hJ : ∀ x, J x → x < g.size)
    (hlt : ∀ x, S x → x < g.size) (hforward : ∀ x next, S x → g.forward? x = some next → S next)
    (hS : ∀ x, S x → ¬J x) :
    Answering (g.RecordsApart S J) (fun _ x other ↦ S x → ¬J other) simplify := by
  refine fun x h hh ↦ .get (Answering.simplifyWithin (fun e _ he ↦ hS e he)
    (fun hh hdone he ↦ hh.recorded _ _ he hdone) (fun hh hother ↦ hh.setSimplified hother)
    (fun hother ↦ hother) (fun hrecur x h hh ↦ ?_) _ x h hh)
  refine (cases_simplifyNode (fun _ op span hh ↦ hh.push op span)
    (fun x h hh ↦ (hrecur x h hh).1) x hh).imp fun other k ⟨hk, hother⟩ ↦ ⟨hk, fun hx ↦ ?_⟩
  rw [hh.toExtends.forward?_eq (hlt x hx)] at hother
  rcases hother with rfl | ⟨-, -, m, m', op, -, hm', -, rfl⟩ | ⟨next, hnext, heq, -⟩
  · exact hS other hx
  · exact fun hmem ↦ Nat.not_lt_of_le hm'.size_le (hJ _ hmem)
  · have hanswer := hrecur next h hh
    rw [Ensures, heq] at hanswer
    exact hanswer.2 (hforward x next hx hnext)

/-- A choice stands for no other node. -/
theorem not_mem_simplify_choice (hJ : ∀ x, J x → x < g.size) {alts : List ExprId}
    (hop : g.op e = .choice alts) (he : ¬J e)
    (hrecorded : ∀ other, g.simplified? e = some other → ¬J other) : ¬J (simplify e g).1 := by
  refine (answering_simplify (S := (· = e)) hJ ?_ ?_ ?_ e g ⟨.refl g, ?_⟩).2 rfl
  · rintro _ rfl
    exact lt_size_of_op_ne (by simp [hop])
  · rintro _ next rfl hnext
    rw [forward?, hop] at hnext
    cases hnext
  · rintro _ rfl
    exact he
  · rintro _ other rfl
    exact hrecorded other

/-- Simplifying a plain node records nothing for other nodes than those it involves. -/
theorem Tidy.simplify (hg : g.Tidy) (he : g.Plain e) : (simplify e g).2.Tidy := by
  have hkeeps : Keeps (fun h ↦ g.IntactIn h ∧ h.Tidy) (simplifyWithin (g.size + 1) e) := by
    refine keeps_simplifyWithin_of_mem (D := g.Involves e) (fun h op span hh ↦ ?_)
      (fun h hh x hx y hy ↦ ?_) (fun h x simpler hx hh ↦ ?_) _ .refl
    · refine ⟨(enduring_intactIn g).push h op span hh.1, fun x other hother ↦ ?_,
        fun x table htable ↦ ?_⟩
      · rw [size_push]
        exact Nat.lt_succ_of_lt (hh.2.recorded_lt x other hother)
      · rw [size_push]
        exact Nat.lt_succ_of_lt (hh.2.table_lt x table htable)
    · have hop := hh.1.toExtends.op_eq x (he.lt_size x hx)
      unfold successors at hy
      split at hy
      · rename_i rule hrule
        exact absurd (hop.symm.trans hrule) (he.noReference x rule hx)
      · rw [hop] at hy
        exact hx.tail (mem_parts.mpr (.inl hy))
    · refine ⟨(enduring_intactIn g).setSimplified h x simpler hh.1, fun y other hother ↦ ?_,
        hh.2.table_lt⟩
      rw [simplified?_setSimplified] at hother
      split at hother
      · rename_i heq
        rw [heq]
        exact Nat.lt_of_lt_of_le (he.lt_size x hx) hh.1.size_le
      · exact hh.2.recorded_lt y other hother
  exact (hkeeps g ⟨.refl g, hg⟩).2

/-! ### Factoring -/

/-- A node that a given one involves, or that is new. -/
def Known (g : Grammar) (e : ExprId) (h : Grammar) (x : ExprId) : Prop :=
  g.Involves e x ∨ g.size ≤ x ∧ x < h.size

theorem Known.mono (hx : g.Known e h x) (hle : h.size ≤ k.size) : g.Known e k x :=
  hx.imp_right fun hnew ↦ ⟨hnew.1, Nat.lt_of_lt_of_le hnew.2 hle⟩

/-- A larger grammar, of which the new nodes are put together from each other and from what a given
node involves. -/
structure Assembles (g : Grammar) (e : ExprId) (h : Grammar) : Prop extends g.IntactIn h where
  /-- What is recorded stays. -/
  simplified_eq : h.simplified = g.simplified
  /-- New nodes are glue. -/
  isGlue : ∀ x, g.size ≤ x → (h.op x).isGlue
  /-- Their operands are known. -/
  known_child : ∀ x, g.size ≤ x → ∀ c ∈ (h.op x).children, g.Known e h c

namespace Assembles

theorem refl (g : Grammar) (e : ExprId) : g.Assembles e g where
  toIntactIn := .refl g
  simplified_eq := rfl
  isGlue x hx := by rw [op_of_size_le hx]; rfl
  known_child x hx c hc := by
    rw [op_of_size_le hx] at hc
    cases hc

/-- Glue of known nodes may be appended. -/
theorem push (hh : g.Assembles e h) {op : Operator} (span : Span) (hop : op.isGlue)
    (hchild : ∀ c ∈ op.children, g.Known e h c) : g.Assembles e (h.push op span) := by
  have hle : h.size ≤ (h.push op span).size := by
    rw [size_push]
    exact Nat.le_succ _
  refine ⟨(enduring_intactIn g).push h op span hh.toIntactIn, hh.simplified_eq, fun x hx ↦ ?_,
    fun x hx c hc ↦ ?_⟩
  · rw [op_push]
    split
    · exact hop
    · exact hh.isGlue x hx
  · rw [op_push] at hc
    split at hc
    · exact (hchild c hc).mono hle
    · exact (hh.known_child x hx c hc).mono hle

section

variable (hh : g.Assembles e h) (he : g.Plain e) (hx : g.Known e h x)
include hh he hx

theorem lt_size : x < h.size :=
  hx.elim (fun hold ↦ Nat.lt_of_lt_of_le (he.lt_size x hold) hh.size_le) And.right

theorem noReference (rule : RuleId) : h.op x ≠ .reference rule := by
  rcases hx with hold | ⟨hnew, -⟩
  · rw [hh.toExtends.op_eq x (he.lt_size x hold)]
    exact he.noReference x rule hold
  · intro hop
    have hglue := hh.isGlue x hnew
    rw [hop] at hglue
    cases hglue

/-- Operands of known nodes are known. -/
theorem known_of_mem_children (hy : y ∈ (h.op x).children) : g.Known e h y := by
  rcases hx with hold | ⟨hnew, -⟩
  · rw [hh.toExtends.op_eq x (he.lt_size x hold)] at hy
    exact .inl (hold.tail (mem_parts.mpr (.inl hy)))
  · exact hh.known_child x hnew y hy

/-- The elements of a known alternative are known. -/
theorem known_elements : ∀ y ∈ h.elements x, g.Known e h y := by
  have hresolve : h.resolve x = x :=
    resolve_eq_of_leads .refl (forall_not_standsFor_iff.mpr (.inl (hh.noReference he hx)))
  intro y hy
  rw [elements, hresolve] at hy
  split at hy
  · rename_i items hop
    exact hh.known_of_mem_children he hx (by rwa [hop])
  · rwa [List.mem_singleton.mp hy]

/-- So are the items that it contributes to a sequence. -/
theorem known_sequenceItems : ∀ y ∈ h.sequenceItems x, g.Known e h y := by
  intro y hy
  unfold sequenceItems at hy
  split at hy
  · rename_i items hop
    exact hh.known_of_mem_children he hx (by rwa [hop])
  · cases hy
  · rwa [List.mem_singleton.mp hy]

/-- And the alternatives that it contributes to a choice. -/
theorem known_choiceItems : ∀ y ∈ h.choiceItems x, g.Known e h y := by
  intro y hy
  unfold choiceItems at hy
  split at hy
  · rename_i alts hop
    exact hh.known_of_mem_children he hx (by rwa [hop])
  · rwa [List.mem_singleton.mp hy]

end

end Assembles

/-- What a builder leaves that answers with known nodes. -/
structure Composes (g : Grammar) (e : ExprId) (h : Grammar) (answer : List ExprId) (k : Grammar) :
    Prop extends g.Assembles e k where
  /-- Nodes are only appended. -/
  le_size : h.size ≤ k.size
  /-- What is answered is known. -/
  known : ∀ x ∈ answer, g.Known e k x

namespace Composes

variable {xs ys : List ExprId}

/-- Nothing is made. -/
theorem of_known (hh : g.Assembles e h) (hxs : ∀ x ∈ xs, g.Known e h x) : g.Composes e h xs h :=
  ⟨hh, Nat.le_refl _, hxs⟩

/-- More nodes may have been made before. -/
theorem after {h₁ : Grammar} (hk : g.Composes e h₁ xs k) (hle : h.size ≤ h₁.size) :
    g.Composes e h xs k :=
  ⟨hk.toAssembles, Nat.le_trans hle hk.le_size, hk.known⟩

end Composes

section

variable (hh : g.Assembles e h)
include hh

theorem ensures_known_alloc {op : Operator} (hop : op.isGlue)
    (hchild : ∀ c ∈ op.children, g.Known e h c) :
    Ensures (alloc op) h fun other k ↦ g.Composes e h [other] k := by
  refine ⟨hh.push .synthetic hop hchild, ?_, fun x hx ↦ ?_⟩
  · exact Nat.le_of_lt (Nat.lt_of_lt_of_eq (Nat.lt_succ_self _) (size_push h op _).symm)
  · rw [List.mem_singleton.mp hx]
    exact .inr ⟨hh.size_le, Nat.lt_of_lt_of_eq (Nat.lt_succ_self _) (size_push h op _).symm⟩

/-- A sequence of known nodes is known. -/
theorem ensures_known_sequence {items : List ExprId} (hitems : ∀ x ∈ items, g.Known e h x) :
    Ensures (sequence items) h fun other k ↦ g.Composes e h [other] k := by
  match items with
  | [] => exact ensures_known_alloc hh rfl fun _ hc ↦ nomatch hc
  | [item] => exact .of_known hh hitems
  | _ :: _ :: _ => exact ensures_known_alloc hh rfl hitems

/-- A choice of known nodes is known. -/
theorem ensures_known_choice {alts : List ExprId} (halts : ∀ x ∈ alts, g.Known e h x) :
    Ensures (choice alts) h fun other k ↦ g.Composes e h [other] k := by
  match alts with
  | [] => exact ensures_known_alloc hh rfl fun _ hc ↦ nomatch hc
  | [alt] => exact .of_known hh halts
  | _ :: _ :: _ => exact ensures_known_alloc hh rfl halts

variable (he : g.Plain e)
include he

theorem ensures_known_flatSequence {items : List ExprId} (hitems : ∀ x ∈ items, g.Known e h x) :
    Ensures (flatSequence items) h fun other k ↦ g.Composes e h [other] k := by
  refine .get (ensures_known_sequence hh fun x hx ↦ ?_)
  obtain ⟨item, hitem, hx⟩ := List.mem_flatMap.mp hx
  exact hh.known_sequenceItems he (hitems item hitem) x hx

/-- Alternatives are merged to a node made of what is known. -/
theorem ensures_known_mergeAlternatives {a b : ExprId} (ha : g.Known e h a) (hb : g.Known e h b) :
    Ensures (mergeAlternatives a b) h fun result k ↦ g.Composes e h result.toList k := by
  have hltA := hh.known_elements he ha
  have hltB := hh.known_elements he hb
  have hshared : ∀ x ∈ sharedHead (h.elements a) (h.elements b), x ∈ h.elements a := by
    intro x hx
    rw [(eq_sharedHead_append (h.elements a) (h.elements b)).1]
    exact List.mem_append_left _ hx
  refine .get ?_
  dsimp only
  split
  · exact .of_known hh fun _ hx ↦ nomatch hx
  · refine (ensures_known_flatSequence hh he fun x hx ↦ hltA x (List.mem_of_mem_drop hx)).bind
      fun restA h₁ hA ↦ ?_
    refine (ensures_known_flatSequence hA.toAssembles he fun x hx ↦
      (hltB x (List.mem_of_mem_drop hx)).mono hA.le_size).bind fun restB h₂ hB ↦ .get ?_
    have hrestA := (hA.known restA (List.mem_singleton_self _)).mono hB.le_size
    have hrestB := hB.known restB (List.mem_singleton_self _)
    refine (ensures_known_choice hB.toAssembles fun x hx ↦ ?_).bind fun suffix h₃ hS ↦
      .get (.map ?_)
    · exact (List.mem_append.mp hx).elim (hB.known_choiceItems he hrestA x)
        (hB.known_choiceItems he hrestB x)
    have hle : h.size ≤ h₃.size := Nat.le_trans hA.le_size (Nat.le_trans hB.le_size hS.le_size)
    refine (ensures_known_flatSequence hS.toAssembles he fun x hx ↦ ?_).imp
      fun merged k hk ↦ hk.after hle
    exact (List.mem_append.mp hx).elim (fun hx ↦ (hltA x (hshared x hx)).mono hle)
      (hS.known_sequenceItems he (hS.known suffix (List.mem_singleton_self _)) x)

/-- So are the alternatives that follow. -/
theorem ensures_known_mergeFollowing {common : ExprId} {alts : List ExprId}
    (hcommon : g.Known e h common) (halts : ∀ x ∈ alts, g.Known e h x) :
    Ensures (mergeFollowing common alts) h fun results k ↦ g.Composes e h results k := by
  induction alts generalizing h common with
  | nil => exact .of_known hh fun x hx ↦ by rwa [List.mem_singleton.mp hx]
  | cons alt alts ih =>
    have halt := halts alt List.mem_cons_self
    refine (ensures_known_mergeAlternatives hh he hcommon halt).bind fun result h₁ h₁' ↦ ?_
    have hrest (x : ExprId) (hx : x ∈ alts) : g.Known e h₁ x :=
      (halts x (List.mem_cons_of_mem _ hx)).mono h₁'.le_size
    split
    · rename_i merged
      exact (ih h₁'.toAssembles (h₁'.known merged (List.mem_singleton_self _)) hrest).imp
        fun results k hk ↦ hk.after h₁'.le_size
    · refine .map ((ih h₁'.toAssembles (halt.mono h₁'.le_size) hrest).imp fun results k hk ↦ ?_)
      refine ⟨hk.toAssembles, Nat.le_trans h₁'.le_size hk.le_size, fun x hx ↦ ?_⟩
      rcases List.mem_cons.mp hx with rfl | hx
      · exact hcommon.mono (Nat.le_trans h₁'.le_size hk.le_size)
      · exact hk.known x hx

end

/-- A factored choice is put together from what the choice involves. -/
theorem ensures_known_factorCommonHead (he : g.Plain e) :
    Ensures (factorCommonHead e) g fun result h ↦ g.Composes e g result.toList h := by
  have hnothing : g.Composes e g (none : Option ExprId).toList g :=
    .of_known (.refl g e) fun _ hx ↦ nomatch hx
  refine .get ?_
  split
  · rename_i alts hop
    split
    · exact hnothing
    · rename_i before a b rest hsplit
      have hmem (x : ExprId) (hx : x ∈ before ∨ x = a ∨ x = b ∨ x ∈ rest) : g.Known e g x := by
        refine .inl (.single (mem_parts.mpr (.inl ?_)))
        rw [hop, (of_splitAtShared hsplit).1]
        simpa [Operator.children] using hx
      refine (ensures_known_mergeAlternatives (.refl g e) he (hmem a (by simp))
        (hmem b (by simp))).bind fun result h₁ h₁' ↦ ?_
      split
      · exact h₁'
      · rename_i common
        refine (ensures_known_mergeFollowing h₁'.toAssembles he
          (h₁'.known common (List.mem_singleton_self _)) fun x hx ↦
            (hmem x (by simp [hx])).mono h₁'.le_size).bind fun results h₂ h₂' ↦ .map ?_
        have hle := Nat.le_trans h₁'.le_size h₂'.le_size
        refine (ensures_known_choice h₂'.toAssembles fun x hx ↦ ?_).imp
          fun factored k hk ↦ hk.after hle
        exact (List.mem_append.mp hx).elim (fun hx ↦ (hmem x (.inl hx)).mono hle)
          (h₂'.known x)
  · exact hnothing

/-- Known nodes involve known nodes only, for new nodes have no jump tables. -/
theorem Assembles.known_of_involves (hh : g.Assembles e h) (hg : g.Tidy) (he : g.Plain e)
    (hx : g.Known e h x) (hy : h.Involves x y) : g.Known e h y := by
  induction hy with
  | refl => exact hx
  | @tail y z _ hz ih =>
    rcases mem_parts.mp hz with hc | ⟨table, htable, hmem⟩
    · exact hh.known_of_mem_children he ih hc
    · rw [hh.table?_eq] at htable
      rcases ih with hold | ⟨hnew, -⟩
      · exact .inl (hold.tail (mem_parts.mpr (.inr ⟨table, htable, hmem⟩)))
      · exact absurd (hg.table_lt y table htable) (Nat.not_lt_of_le hnew)

/-- A node that is put together from what a plain one involves is plain. -/
theorem Assembles.plain (hh : g.Assembles e h) (hg : g.Tidy) (he : g.Plain e)
    (hx : g.Known e h x) : h.Plain x where
  lt_size _ hy := hh.lt_size he (hh.known_of_involves hg he hx hy)
  noReference _ rule hy := hh.noReference he (hh.known_of_involves hg he hx hy) rule

theorem Assembles.tidy (hh : g.Assembles e h) (hg : g.Tidy) : h.Tidy where
  recorded_lt x other hother := by
    rw [simplified?, hh.simplified_eq] at hother
    exact Nat.lt_of_lt_of_le (hg.recorded_lt x other hother) hh.size_le
  table_lt x table htable := by
    rw [hh.table?_eq] at htable
    exact Nat.lt_of_lt_of_le (hg.table_lt x table htable) hh.size_le

/-! ### Nodes that have nothing to do with others -/

/-- Nothing that a plain node involves is in a set of nodes, nor is what is recorded for it. -/
structure Avoids (g : Grammar) (J : ExprId → Prop) (e : ExprId) : Prop extends g.Plain e where
  /-- Nothing that it involves is in the set. -/
  not_mem : ∀ x, g.Involves e x → ¬J x
  /-- Nor is what is recorded for it. -/
  recorded : ∀ x other, g.Involves e x → g.simplified? x = some other → ¬J other

namespace Avoids

/-- What a node involves avoids what the node avoids. -/
theorem of_involves (he : g.Avoids J e) (hx : g.Involves e x) : g.Avoids J x where
  toPlain := he.toPlain.of_involves hx
  not_mem y hy := he.not_mem y (hx.trans hy)
  recorded y other hy := he.recorded y other (hx.trans hy)

/-- In a larger grammar only what is recorded matters. -/
theorem intact (he : g.Avoids J e) (hgh : g.IntactIn h)
    (hrecorded : ∀ x other, g.Involves e x → h.simplified? x = some other → ¬J other) :
    h.Avoids J e where
  toPlain := he.toPlain.intact hgh
  not_mem x hx := he.not_mem x (he.toPlain.involves hgh hx)
  recorded x other hx := hrecorded x other (he.toPlain.involves hgh hx)

/-- A node without references stands for operands only. -/
theorem answering_simplify (he : g.Avoids J e) (hJ : ∀ x, J x → x < g.size) :
    Answering (g.RecordsApart (g.Involves e) J) (fun _ x other ↦ g.Involves e x → ¬J other)
      simplify := by
  refine Grammar.answering_simplify hJ he.lt_size (fun x next hx hnext ↦ ?_) he.not_mem
  refine hx.tail (mem_parts.mpr (.inl ?_))
  unfold forward? at hnext
  split at hnext
  · rename_i only hop
    cases hnext
    rw [hop]
    exact List.mem_singleton_self next
  · rename_i rule hop
    exact absurd hop (he.noReference x rule hx)
  · cases hnext

/-- Whatever node is simplified. -/
theorem simplify (he : g.Avoids J e) (hJ : ∀ x, J x → x < g.size) (x : ExprId) :
    (simplify x g).2.Avoids J e :=
  he.intact (keeps_simplify (enduring_intactIn g) x g (.refl g))
    (he.answering_simplify hJ x g ⟨.refl g, he.recorded⟩).1.recorded

/-- A node is not simplified to one that it avoids. -/
theorem not_mem_simplify (he : g.Avoids J e) (hJ : ∀ x, J x → x < g.size) :
    ¬J (Grammar.simplify e g).1 :=
  (he.answering_simplify hJ e g ⟨.refl g, he.recorded⟩).2 .refl

/-- Whatever plain node is factored. -/
theorem factorCommonHead (he : g.Avoids J e) (hx : g.Plain x) :
    (factorCommonHead x g).2.Avoids J e := by
  have hanswers := ensures_known_factorCommonHead hx
  refine he.intact hanswers.toIntactIn fun y other hy hother ↦ he.recorded y other hy ?_
  rwa [simplified?, hanswers.simplified_eq] at hother

/-- A factored choice avoids what the choice avoids. -/
theorem factored (he : g.Avoids J e) (hg : g.Tidy) (hJ : ∀ x, J x → x < g.size)
    {factored : ExprId} (hfactored : (Grammar.factorCommonHead e g).1 = some factored) :
    (Grammar.factorCommonHead e g).2.Avoids J factored := by
  have hanswers := ensures_known_factorCommonHead he.toPlain
  have hknown := hanswers.known factored (by rw [hfactored]; exact List.mem_singleton_self _)
  refine ⟨hanswers.plain hg he.toPlain hknown, fun x hx ↦ ?_, fun x other hx hother ↦ ?_⟩
  · rcases hanswers.known_of_involves hg he.toPlain hknown hx with hold | ⟨hnew, -⟩
    · exact he.not_mem x hold
    · exact fun hmem ↦ Nat.not_lt_of_le hnew (hJ x hmem)
  · rw [simplified?, hanswers.simplified_eq] at hother
    rcases hanswers.known_of_involves hg he.toPlain hknown hx with hold | ⟨hnew, -⟩
    · exact he.recorded x other hold hother
    · exact absurd (hg.recorded_lt x other hother) (Nat.not_lt_of_le hnew)

end Avoids

end ParsingMachine.Grammar
