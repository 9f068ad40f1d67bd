import ParsingMachine.Grammar.Factor
import ParsingMachine.Grammar.JumpTable
import ParsingMachine.Grammar.Simplify
import ParsingMachine.Proofs.Grammar.Reach

/-!
# What passes keep

Whatever the grammar is like, a pass does no more than append nodes, record simpler nodes and attach
jump tables that have an entry for each slot. So it keeps every property that these three keep
(`Grammar.Lasting`). Simplifying and factoring attach no tables, so they keep more
(`Grammar.Enduring`).

The proofs follow the code of the passes, one lemma for each of its functions, and look at nothing
but which of the three things a function does. They ask neither for a well-formed grammar nor for
enough depth: what is said here holds of every grammar and of every pass that is cut off, which is
more than can be said of what a pass means. A builder keeps a property if it leaves it true wherever
it was (`Builder.Keeps`), and keeping is passed on by all ways of putting builders together.

Two properties are used for all passes: all jump tables are complete (`Grammar.FullTables`), which
is what keeps dispatches from going wrong in a program, and the nodes are still there
(`Grammar.Retains`). Others are made where they are needed, such as what a session keeps while it
encodes.

Simplification is the one pass that recurses through references. It records something for the nodes
that it comes to, so which nodes these are matters for properties that speak of what is recorded.
The set in which the recursion stays is therefore a parameter: it has to hold, with a node, all
nodes that take part in matching it.

## Main statements

* `lasting_fullTables`, `lasting_retains`: complete tables, and the nodes of an earlier grammar, are
  kept by all passes.
* `keeps_simplifyWithin_of_mem`: simplification records something for such a set of nodes only.
* `keeps_simplify`, `keeps_factorCommonHead`, `keeps_attachTables`: the three passes.
* `ensures_length_makeTable`: a table has an entry for each slot, whatever the grammar.
-/

namespace ParsingMachine

/-- A property that simplifying and factoring keep. -/
structure Grammar.Enduring (P : Grammar → Prop) : Prop where
  /-- Nodes may be appended. -/
  push : ∀ g op span, P g → P (g.push op span)
  /-- Simpler nodes may be recorded. -/
  setSimplified : ∀ g e simpler, P g → P (g.setSimplified e simpler)

/-- A property that passes keep. -/
structure Grammar.Lasting (P : Grammar → Prop) : Prop extends Grammar.Enduring P where
  /-- Complete jump tables may be attached. -/
  setTable : ∀ g e table, table.length = slotCount → P g → P (g.setTable e table)

namespace Builder

variable {α β : Type} {P : Grammar → Prop}

/-- The builder keeps a property of its grammar. -/
def Keeps (P : Grammar → Prop) (m : Builder α) : Prop :=
  ∀ g, P g → P (m g).2

theorem Keeps.pure (a : α) : Keeps P (Pure.pure a) :=
  fun _ h ↦ h

/-- Two builders keep a property if each of them does, whatever the first one answers. -/
theorem Keeps.bind {m : Builder α} {f : α → Builder β} (hm : Keeps P m) (hf : ∀ a, Keeps P (f a)) :
    Keeps P (m >>= f) :=
  fun g h ↦ hf _ _ (hm g h)

theorem Keeps.map {m : Builder α} {f : α → β} (hm : Keeps P m) : Keeps P (f <$> m) :=
  fun g h ↦ hm g h

/-- Looking at the grammar changes nothing. -/
theorem Keeps.get {f : Grammar → Builder β} (hf : ∀ g, Keeps P (f g)) :
    Keeps P (MonadState.get >>= f) :=
  fun g h ↦ hf g g h

/-- A builder for each element of a list keeps what each of them keeps. -/
theorem Keeps.mapM {f : α → Builder β} (hf : ∀ a, Keeps P (f a)) (xs : List α) :
    Keeps P (xs.mapM f) := by
  induction xs with
  | nil => exact .pure []
  | cons x xs ih =>
    rw [List.mapM_cons]
    exact (hf x).bind fun y ↦ ih.bind fun ys ↦ .pure (y :: ys)

end Builder

namespace Grammar

open Builder

variable {g h : Grammar} {P : Grammar → Prop}

/-! ### Lasting properties -/

/-- Every jump table has an entry for each slot. -/
def FullTables (g : Grammar) : Prop :=
  ∀ e table, g.table? e = some table → table.length = slotCount

/-- A grammar without tables has complete ones only. -/
theorem fullTables_of_tables_empty (htables : g.tables = {}) : g.FullTables := by
  intro e table htable
  rw [table?, htables, Std.TreeMap.getElem?_emptyc] at htable
  cases htable

/-- A complete table may be attached. -/
theorem FullTables.setTable (hg : g.FullTables) {e : ExprId} {table : JumpTable}
    (hlength : table.length = slotCount) : (g.setTable e table).FullTables := by
  intro other table' htable
  rw [table?_setTable] at htable
  split at htable
  · cases htable
    exact hlength
  · exact hg other table' htable

/-- Passes attach complete tables only. -/
theorem lasting_fullTables : Lasting FullTables where
  push _ _ _ hg := hg
  setSimplified _ _ _ hg := hg
  setTable _ _ _ hlength hg := hg.setTable hlength

/-- Passes leave the nodes of an earlier grammar as they are. -/
theorem lasting_retains (g : Grammar) : Lasting g.Retains where
  push h op span hgh := hgh.trans (.push h op span)
  setSimplified _ _ _ hgh := hgh.trans (.of_nodes_eq rfl)
  setTable _ _ _ _ hgh := hgh.trans (.of_nodes_eq rfl)

/-! ### Making nodes -/

section

variable (hpush : ∀ g op span, P g → P (g.push op span))
include hpush

/-- A node that is appended is the one thing that happens. -/
theorem keeps_allocAt (op : Operator) (span : Span) : Keeps P (allocAt op span) :=
  fun g hg ↦ hpush g op span hg

theorem keeps_alloc (op : Operator) : Keeps P (alloc op) :=
  keeps_allocAt hpush op .synthetic

/-- The sequence of some nodes appends at most one node. -/
theorem keeps_sequence (items : List ExprId) : Keeps P (sequence items) := by
  unfold sequence
  split
  · exact keeps_alloc hpush _
  · exact .pure _
  · exact keeps_alloc hpush _

/-- The choice of some nodes appends at most one node. -/
theorem keeps_choice (alts : List ExprId) : Keeps P (choice alts) := by
  unfold choice
  split
  · exact keeps_alloc hpush _
  · exact .pure _
  · exact keeps_alloc hpush _

end

/-! ### Simplifying -/

section

variable {recur : ExprId → Builder ExprId}

/-- The union over some alternatives does what the recursion does on these. -/
theorem keeps_unionOf (set : ByteSet) {alts : List ExprId}
    (hrecur : ∀ alt ∈ alts, Keeps P (recur alt)) : Keeps P (unionOf recur set alts) := by
  induction alts generalizing set with
  | nil => exact .pure _
  | cons alt alts ih =>
    refine (hrecur alt List.mem_cons_self).bind fun other ↦ .get fun g ↦ ?_
    split
    · exact ih _ fun x hx ↦ hrecur x (List.mem_cons_of_mem _ hx)
    · exact .pure _

/-- Gathering the starts of negated operands does what the recursion does on these operands. They
are read from the grammar as it is when their turn comes, so they are those of some grammar on the
way. -/
theorem keeps_negatedStarts (starts : ByteSet) (hasLiteral : Bool) {items : List ExprId}
    (hrecur : ∀ g, P g → ∀ item ∈ items, ∀ inner, g.op item = .not inner → Keeps P (recur inner)) :
    Keeps P (negatedStarts recur starts hasLiteral items) := by
  induction items generalizing starts hasLiteral with
  | nil => exact .pure _
  | cons item items ih =>
    have hrest (starts : ByteSet) (hasLiteral : Bool) :
        Keeps P (negatedStarts recur starts hasLiteral items) :=
      ih _ _ fun g hg x hx ↦ hrecur g hg x (List.mem_cons_of_mem _ hx)
    intro g hg
    refine Ensures.get (Q := fun _ ↦ P) ?_
    split
    · rename_i inner hop
      have hkeeps : Keeps P (recur inner) := hrecur g hg item List.mem_cons_self inner hop
      refine hkeeps.bind (fun other ↦ .get fun g ↦ ?_) g hg
      split
      · exact hrest _ _
      · exact hrest _ _
      · exact .pure _
    · exact hg

/-- What another node is simplified to is asked for and looked at, and nothing is made of it. -/
theorem keeps_terminalOr (e : ExprId) {other : ExprId} (hrecur : Keeps P (recur other)) :
    Keeps P (terminalOr recur e other) := by
  refine hrecur.bind fun other ↦ .get fun g ↦ ?_
  split <;> exact .pure _

variable (hpush : ∀ g op span, P g → P (g.push op span))
include hpush

/-- Negated operands and a last byte are simplified before the class or the dispatch form is
made. -/
theorem keeps_negatedLookahead (e : ExprId) {items : List ExprId}
    (hrecur : ∀ item ∈ items, Keeps P (recur item))
    (hinner : ∀ g, P g → ∀ item ∈ items, ∀ inner, g.op item = .not inner → Keeps P (recur inner)) :
    Keeps P (negatedLookahead recur e items) := by
  unfold negatedLookahead
  split
  · exact .pure _
  · rename_i last hlast
    dsimp only
    split
    · exact .pure _
    · refine (hrecur last (List.mem_of_getLast? hlast)).bind fun last ↦ .get fun g ↦ ?_
      split
      · have hstarts : Keeps P (negatedStarts recur .empty false items.dropLast) :=
          keeps_negatedStarts _ _ fun g hg item hitem ↦
            hinner g hg item (List.dropLast_subset items hitem)
        refine hstarts.bind fun result ↦ ?_
        split
        · exact .pure _
        · refine .get fun g ↦ (keeps_allocAt hpush _ _).bind fun set ↦ ?_
          split
          · exact (keeps_allocAt hpush _ _).bind fun any ↦ .map (keeps_allocAt hpush _ _)
          · exact .pure _
      · exact .pure _

variable {D : ExprId → Prop} (hD : ∀ g, P g → ∀ e, D e → ∀ x ∈ g.successors e, D x)
include hD

/-- Simplifying a node recurses to nodes that take part in matching it, and appends nodes. -/
theorem keeps_simplifyNode (hrecur : ∀ x, D x → Keeps P (recur x)) {e : ExprId} (he : D e) :
    Keeps P (simplifyNode recur e) := by
  intro g hg
  have hnext (x : ExprId) (hx : x ∈ g.successors e) : D x := hD g hg e he x hx
  refine Ensures.get (Q := fun _ ↦ P) ?_
  unfold successors at hnext
  split
  · rename_i alts hop
    rw [hop] at hnext
    refine (keeps_unionOf .empty fun x hx ↦ hrecur x (hnext x hx)).bind (fun set ↦ ?_) g hg
    split
    · exact .get fun g ↦ keeps_allocAt hpush _ _
    · exact .pure _
  · rename_i only hop
    rw [hop] at hnext
    exact keeps_terminalOr e (hrecur only (hnext only (List.mem_singleton_self _))) g hg
  · rename_i items _ hop
    rw [hop] at hnext
    refine (keeps_negatedLookahead hpush e (fun x hx ↦ hrecur x (hnext x hx))
      fun k hk x hx inner hinner ↦ hrecur inner (hD k hk x (hnext x hx) inner ?_)).bind
        (fun result ↦ .pure _) g hg
    rw [successors, hinner]
    exact List.mem_singleton_self _
  · rename_i rule hop
    rw [hop] at hnext
    refine Ensures.get (Q := fun _ ↦ P) ?_
    split
    · rename_i body hbody
      exact keeps_terminalOr e (hrecur body (hnext body (Option.mem_toList.mpr hbody))) g hg
    · exact hg
  · exact hg

/-- The recursion stays in each set of nodes that holds with a node all that takes part in matching
it, and records nothing for other nodes. -/
theorem keeps_simplifyWithin_of_mem
    (hset : ∀ g e simpler, D e → P g → P (g.setSimplified e simpler)) (depth : Nat) {e : ExprId}
    (he : D e) : Keeps P (simplifyWithin depth e) := by
  have hrecord {e : ExprId} (he : D e) (simpler : ExprId) :
      Keeps P (modify (·.setSimplified e simpler) : Builder PUnit) :=
    fun g hg ↦ hset g e simpler he hg
  induction depth generalizing e with
  | zero => exact .pure _
  | succ depth ih =>
    refine .get fun g ↦ ?_
    split
    · exact .pure _
    · exact (hrecord he e).bind fun _ ↦ (keeps_simplifyNode hpush hD (fun x hx ↦ ih hx) he).bind
        fun simpler ↦ (hrecord he simpler).bind fun _ ↦ .pure _

end

section

variable (hP : Enduring P)
include hP

/-- Simplifying keeps every enduring property. -/
theorem keeps_simplify (e : ExprId) : Keeps P (simplify e) :=
  .get fun _ ↦ keeps_simplifyWithin_of_mem (D := fun _ ↦ True) hP.push (fun _ _ _ _ _ _ ↦ trivial)
    (fun g e simpler _ ↦ hP.setSimplified g e simpler) _ trivial

/-! ### Factoring -/

/-- A flat sequence appends at most one node. -/
theorem keeps_flatSequence (items : List ExprId) : Keeps P (flatSequence items) :=
  .get fun _ ↦ keeps_sequence hP.push _

/-- Merging two alternatives appends nodes and does nothing else. -/
theorem keeps_mergeAlternatives (a b : ExprId) : Keeps P (mergeAlternatives a b) := by
  refine .get fun g ↦ ?_
  dsimp only
  split
  · exact .pure _
  · exact (keeps_flatSequence hP _).bind fun restA ↦ (keeps_flatSequence hP _).bind fun restB ↦
      .get fun g ↦ (keeps_choice hP.push _).bind fun suffix ↦
        .get fun g ↦ .map (keeps_flatSequence hP _)

/-- Merging all alternatives that follow does so step by step. -/
theorem keeps_mergeFollowing (common : ExprId) (alts : List ExprId) :
    Keeps P (mergeFollowing common alts) := by
  induction alts generalizing common with
  | nil => exact .pure _
  | cons alt alts ih =>
    refine (keeps_mergeAlternatives hP common alt).bind fun merged ↦ ?_
    split
    · exact ih _
    · exact (ih alt).bind fun rest ↦ .pure _

/-- Factoring keeps every enduring property. -/
theorem keeps_factorCommonHead (e : ExprId) : Keeps P (factorCommonHead e) := by
  refine .get fun g ↦ ?_
  split
  · split
    · exact .pure _
    · refine (keeps_mergeAlternatives hP _ _).bind fun merged ↦ ?_
      split
      · exact .pure _
      · exact (keeps_mergeFollowing hP _ _).bind fun rest ↦ .map (keeps_choice hP.push _)
  · exact .pure _

end

/-! ### Attaching tables -/

section

variable (hP : Lasting P)
include hP

theorem keeps_tableEntry (choice : ExprId) (alts : List ExprId) (viable : List Nat)
    (n : Narrowed) : Keeps P ((tableEntry choice alts viable).run n) := by
  unfold tableEntry
  split
  · exact .pure _
  · split
    · simp only [StateT.run_bind, StateT.run_get, pure_bind]
      rcases n.failure with - | node
      · exact fun g hg ↦ keeps_alloc hP.push .fail g hg
      · exact .pure _
    · exact .pure _
    · simp only [StateT.run_bind, StateT.run_get, pure_bind]
      rcases n.subsets.lookup viable with - | node
      · exact fun g hg ↦ keeps_alloc hP.push _ g hg
      · exact .pure _

/-- The entries of a table, one for each list of alternatives. -/
theorem ensures_length_entries (choice : ExprId) (alts : List ExprId) (viables : List (List Nat))
    (n : Narrowed) (hg : P g) :
    Builder.Ensures ((viables.mapM (tableEntry choice alts)).run n) g fun (targets, _) h ↦
      targets.length = viables.length ∧ P h := by
  induction viables generalizing n g with
  | nil => exact ⟨rfl, hg⟩
  | cons viable viables ih =>
    rw [List.mapM_cons, StateT.run_bind]
    refine Ensures.bind (P := fun _ h ↦ P h)
      (keeps_tableEntry hP choice alts viable n g hg) fun (target, n₁) h hh ↦ ?_
    rw [StateT.run_bind]
    exact (ih n₁ hh).bind fun (targets, n₂) k hk ↦ ⟨congrArg (· + 1) hk.1, hk.2⟩

/-- A table has an entry for each slot, and making it appends nodes. -/
theorem ensures_length_makeTable (e : ExprId) (hg : P g) :
    Builder.Ensures (makeTable e) g fun result h ↦
      (∀ table, result = some table → table.length = slotCount) ∧ P h := by
  unfold makeTable
  refine .get ?_
  split
  · rename_i alts hop
    dsimp only
    split
    · exact ⟨fun _ h ↦ (nomatch h), hg⟩
    · refine (ensures_length_entries hP e alts _ {} hg).bind fun (targets, n) h htargets ↦ .pure ?_
      refine ⟨fun table htable ↦ ?_, htargets.2⟩
      cases htable
      rw [htargets.1, List.length_map, List.length_range]
  · exact ⟨fun _ h ↦ (nomatch h), hg⟩

/-- A table that is attached to one choice is complete. -/
theorem keeps_attachTable (choice : ExprId) : Keeps P (attachTable choice) := by
  intro g hg
  refine Ensures.get (Q := fun _ h ↦ P h) ?_
  split
  · exact hg
  · refine (ensures_length_makeTable hP choice hg).bind fun result h hresult ↦ ?_
    obtain ⟨hlength, hh⟩ := hresult
    split
    · exact hP.setTable _ _ _ (hlength _ rfl) hh
    · exact hh

/-- Attaching tables keeps every lasting property. -/
theorem keeps_attachTables : Keeps P attachTables :=
  .get fun g ↦ (Keeps.mapM (keeps_attachTable hP) g.reachableChoices).bind fun _ ↦ .pure _

end

end Grammar

end ParsingMachine
