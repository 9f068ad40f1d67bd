import ParsingMachine.Proofs.Compile.Emission
import ParsingMachine.Proofs.Compile.Reuse
import ParsingMachine.Proofs.Compile.WellLinked
import ParsingMachine.Proofs.Grammar.CommonHead

/-!
# When linking succeeds

A call is made for a reference that takes part in matching one of the compiled rules, whatever the
options are (`Grammar.RefersTo`). Factoring looks through references into the bodies of other rules,
and jump tables lead to choices of some alternatives, but what is encoded for them takes part in
matching as well. What simplification finds makes no calls, whatever is recorded.

So a list of defined rules is linked if it has all rules that its rules refer to. Otherwise a rule
without a body that is listed or referred to is reported, or one that is referred to and not listed
(`links_of_applyAll`).

The property that encoding carries from node to node is that a node exists and refers to rules of a
certain kind only, in the grammar as it is then (`Grammar.Admits`). It is one of the kinds that
encoding does not leave (`Grammar.Hereditary`), so that calls go to such rules is the result on
planned sessions for this kind; no induction over the encoder is needed here.

What is asked of jump tables is weaker than that they are right. An entry has to be an alternative,
a choice of some of them, the choice itself or a node that fails (`Grammar.NarrowTables`). Right
tables are of this form, and so are tables that clients have supplied; and the form is kept when a
rule gets another body, after which a table need not be right any more. So the result holds for
grammars after all edits, also after those that make programs wrong.

Which of several rules without a block is the one that is reported is not said.

## Main statements

* `NarrowTables.attachTables`, `Edit.narrowTables_applyAll`: entries are part of their choice,
  whatever was done to the grammar.
* `Admits.hereditary`: encoding does not come to nodes that refer to other rules.
* `Session.finish_or_error`: finishing ends with a program, or with the error for a rule that is
  called and has no block.
* `Grammar.links_of_compile`: when compiling succeeds, and which rule is to blame if not.
* `links_of_applyAll`: the same for all grammars that edits can make.
-/

namespace ParsingMachine

/-! ### Jump tables -/

namespace Grammar

variable {g h : Grammar}

/-- Jump tables have an entry for each slot: the choice, one of its alternatives, a node that fails
or a choice of some of the alternatives. -/
def NarrowTables (g : Grammar) : Prop :=
  ∀ e table, g.table? e = some table → table.length = slotCount ∧ ∀ target ∈ table,
    ∃ alts, g.op e = .choice alts ∧ (target = e ∨ target ∈ alts ∨ g.op target = .fail ∨
      ∃ subset, g.op target = .choice subset ∧ subset.Sublist alts)

/-- The entries of a right table are parts of the choice. -/
theorem SoundTable.narrow {e : ExprId} {table : JumpTable} (h : g.SoundTable e table) :
    table.length = slotCount ∧ ∀ target ∈ table,
      ∃ alts, g.op e = .choice alts ∧ (target = e ∨ target ∈ alts ∨ g.op target = .fail ∨
        ∃ subset, g.op target = .choice subset ∧ subset.Sublist alts) := by
  refine ⟨h.length_eq, fun target htarget ↦ ?_⟩
  obtain ⟨slot, hentry⟩ := h.exists_entry htarget
  exact hentry.shape

namespace NarrowTables

theorem fullTables (hg : g.NarrowTables) : g.FullTables :=
  fun e table htable ↦ (hg e table htable).1

theorem of_tables_empty (htables : g.tables = {}) : g.NarrowTables := by
  intro e table htable
  rw [table?, htables, Std.TreeMap.getElem?_emptyc] at htable
  cases htable

/-- Tables stay narrow while the nodes stay. -/
theorem retains (hg : g.NarrowTables) (hself : g.SelfContained) (hgh : g.Retains h)
    (htables : h.tables = g.tables) : h.NarrowTables := by
  intro e table htable
  rw [table?, htables] at htable
  obtain ⟨hlength, hshape⟩ := hg e table htable
  obtain ⟨he, htargets⟩ := hself.table_lt e table htable
  refine ⟨hlength, fun target htarget ↦ ?_⟩
  rw [hgh.op_eq e he, hgh.op_eq target (htargets target htarget)]
  exact hshape target htarget

/-- A narrow table may be supplied. -/
theorem setTable (hg : g.NarrowTables) {e : ExprId} {table : JumpTable}
    (htable : table.length = slotCount ∧ ∀ target ∈ table,
      ∃ alts, g.op e = .choice alts ∧ (target = e ∨ target ∈ alts ∨ g.op target = .fail ∨
        ∃ subset, g.op target = .choice subset ∧ subset.Sublist alts)) :
    (g.setTable e table).NarrowTables := by
  intro x table' htable'
  rw [table?_setTable] at htable'
  split at htable'
  · rename_i heq
    cases htable'
    rw [heq]
    exact htable
  · exact hg x table' htable'

/-- A table of alternatives may be supplied for a choice. -/
theorem attachTable? (hg : g.NarrowTables) {e : ExprId} {alts : List ExprId}
    (hop : g.op e = .choice alts) {table : JumpTable} (htable : ∀ target ∈ table, target ∈ alts)
    (hattach : g.attachTable? e table = some h) : h.NarrowTables := by
  obtain ⟨hlength, ⟨⟩⟩ := Option.ite_none_right_eq_some.mp hattach
  exact hg.setTable ⟨hlength, fun target htarget ↦ ⟨alts, hop, .inr (.inl (htable target htarget))⟩⟩

/-- The table that analysis makes for a choice is narrow. -/
theorem attachTable (hg : g.NarrowTables) (hself : g.SelfContained) (e : ExprId) :
    Builder.Ensures (Grammar.attachTable e) g fun _ h ↦ h.NarrowTables := by
  refine Builder.Ensures.get ?_
  split
  · exact hg
  · refine (ensures_makeTable hself.wellFormed e).bind fun result h hresult ↦ ?_
    obtain ⟨hgh, htable⟩ := hresult
    have hh := hg.retains hself hgh.toRetains hgh.tables_eq
    split
    · exact hh.setTable (htable _ rfl).narrow
    · exact hh

/-- The tables that analysis attaches are narrow. -/
theorem attachTables (hg : g.NarrowTables) (hself : g.SelfContained) :
    (Grammar.attachTables g).2.NarrowTables := by
  have hall (choices : List ExprId) {g : Grammar} (hg : g.NarrowTables) (hself : g.SelfContained) :
      Builder.Ensures (choices.mapM Grammar.attachTable) g fun _ h ↦ h.NarrowTables := by
    induction choices generalizing g with
    | nil => exact hg
    | cons e choices ih =>
      rw [List.mapM_cons]
      have hstep : Builder.Ensures (Grammar.attachTable e) g fun _ h ↦
          h.NarrowTables ∧ h.SelfContained := ⟨hg.attachTable hself e, hself.attachTable e⟩
      exact hstep.bind fun _ h hh ↦ (ih hh.1 hh.2).bind fun _ k hk ↦ hk
  exact Builder.Ensures.get (Q := fun _ h ↦ h.NarrowTables)
    ((hall g.reachableChoices hg hself).bind fun _ h hh ↦ hh)

end NarrowTables

end Grammar

namespace Edit

variable {g h : Grammar} {edit : Edit} {edits : List Edit}

/-- After an edit the tables are still narrow, also when a rule gets another body. -/
theorem narrowTables (hg : g.NarrowTables) (hself : g.SelfContained)
    (happly : edit.apply g = some h) : h.NarrowTables := by
  obtain ⟨hretains, -⟩ := Edit.retains hg.fullTables happly
  cases edit with
  | alloc op span =>
    cases happly
    exact hg.retains hself hretains rfl
  | declare name =>
    cases happly
    obtain ⟨rules, heq⟩ := Grammar.declareRule_eq name g
    rw [heq] at hretains ⊢
    exact hg.retains hself hretains rfl
  | define rule body =>
    obtain ⟨-, ⟨⟩⟩ := Option.ite_none_right_eq_some.mp happly
    exact hg.retains hself hretains rfl
  | add name body =>
    obtain ⟨-, ⟨⟩⟩ := Option.ite_none_right_eq_some.mp happly
    obtain ⟨rules, heq⟩ := Grammar.declareRule_eq name g
    rw [Grammar.addRule_eq, heq] at hretains ⊢
    exact hg.retains hself hretains rfl
  | simplify e =>
    obtain ⟨he, ⟨⟩⟩ := Option.ite_none_right_eq_some.mp happly
    exact hg.retains hself hretains ((Grammar.Evolves.refl hself).simplify he).1.1.tables_eq
  | attachTables =>
    cases happly
    exact hg.attachTables hself
  | compile rules o =>
    obtain ⟨result, hcompile⟩ := exists_compile happly
    have hgg := Grammar.Evolves.refl hself
    exact hg.retains hself hretains (hgg.erased_compile_eq hself hgg hcompile hcompile).2.tables_eq

/-- So are all tables after edits in any order. -/
theorem narrowTables_applyAll (hg : g.NarrowTables) (hself : g.SelfContained)
    (happly : applyAll g edits = some h) (hup : h.BottomUp) : h.NarrowTables := by
  induction edits generalizing g with
  | nil =>
    cases happly
    exact hg
  | cons edit edits ih =>
    obtain ⟨g₁, hedit, hrest⟩ := Option.bind_eq_some_iff.mp happly
    have hg₁ := narrowTables hg hself hedit
    have hup₁ := (retains_all hg₁.fullTables hrest).1.bottomUp hup
    exact ih hg₁ (selfContained hself hedit hup₁) hrest

end Edit

/-! ### Rules that are referred to -/

namespace Grammar

variable {g h : Grammar} {A : RuleId → Prop} {e x : ExprId}

/-- Some node that takes part in matching one of the rules refers to the rule. -/
def RefersTo (g : Grammar) (rules : List RuleId) (rule : RuleId) : Prop :=
  ∃ root ∈ rules, ∃ body, g.body? root = some body ∧
    ∃ e, g.Reach body e ∧ g.op e = .reference rule

/-- The references that take part in matching a node are to rules with a property. -/
def RefersOnly (A : RuleId → Prop) (g : Grammar) (e : ExprId) : Prop :=
  ∀ x rule, g.Reach e x → g.op x = .reference rule → A rule

namespace RefersOnly

/-- It is enough to look at what takes part next. -/
theorem of_successors (hop : ∀ rule, g.op e ≠ .reference rule)
    (hnext : ∀ y ∈ g.successors e, RefersOnly A g y) : RefersOnly A g e := by
  intro x rule hx hrule
  rcases Relation.ReflTransGen.cases_head hx with rfl | ⟨y, hy, hx⟩
  · exact absurd hrule (hop rule)
  · exact hnext y hy x rule hx hrule

/-- What takes part in matching refers to the same rules at most. -/
theorem reach (he : RefersOnly A g e) (hx : g.Reach e x) : RefersOnly A g x :=
  fun y rule hy ↦ he y rule (hx.trans hy)

/-- New nodes do not add references to an old one. -/
theorem mono (he : RefersOnly A g e) (hg : g.WellFormed) (hlt : e < g.size)
    (hgh : g.Extends h) : RefersOnly A h e := by
  intro x rule hx hop
  rw [hgh.reach_iff hg hlt] at hx
  rw [hgh.op_eq x (reach_lt hg hlt hx)] at hop
  exact he x rule hx hop

end RefersOnly

/-- A node of a grammar in use that refers only to rules with a property. -/
structure Admits (g : Grammar) (A : RuleId → Prop) (h : Grammar) (e : ExprId) : Prop where
  /-- The grammar evolved. -/
  evolves : g.Evolves h
  /-- The node exists. -/
  lt_size : e < h.size
  /-- Its references are to rules with the property. -/
  refers : RefersOnly A h e

namespace Admits

/-- Entries of jump tables refer to nothing that their choice does not refer to. -/
theorem entry (hself : g.SelfContained) (htables : g.NarrowTables) (he : g.Admits A h e)
    {table : JumpTable} (htable : h.table? e = some table) {target : ExprId}
    (htarget : target ∈ table) : g.Admits A h target := by
  have hgh := he.evolves.toExtends
  rw [he.evolves.table?_eq] at htable
  obtain ⟨hlt, htargets⟩ := hself.table_lt e table htable
  have htlt := htargets target htarget
  refine ⟨he.evolves, Nat.lt_of_lt_of_le htlt hgh.size_le, ?_⟩
  obtain ⟨alts, hop, hshape⟩ := (htables e table htable).2 target htarget
  have halt : ∀ alt ∈ alts, RefersOnly A h alt := by
    intro alt halt
    refine he.refers.reach (.single (mem_successors_of_mem_children ?_))
    rwa [hgh.op_eq e hlt, hop]
  rcases hshape with rfl | hmem | hfail | ⟨subset, hsubset, hsub⟩
  · exact he.refers
  · exact halt target hmem
  · rw [← hgh.op_eq target htlt] at hfail
    refine .of_successors (fun rule hrule ↦ ?_) fun y hy ↦ ?_
    · cases hfail.symm.trans hrule
    · rw [successors, hfail] at hy
      cases hy
  · rw [← hgh.op_eq target htlt] at hsubset
    refine .of_successors (fun rule hrule ↦ ?_) fun y hy ↦ ?_
    · cases hsubset.symm.trans hrule
    · rw [successors, hsubset] at hy
      exact halt y (hsub.subset hy)

/-- Encoding does not come to nodes that refer to other rules. -/
theorem hereditary (hself : g.SelfContained) (htables : g.NarrowTables) (A : RuleId → Prop) :
    Hereditary (g.Admits A) where
  child {h e c} he hc := by
    have hlt := he.evolves.canonical.wellFormed.child_lt hc
    exact ⟨he.evolves, Nat.lt_trans hlt he.lt_size,
      he.refers.reach (.single (mem_successors_of_mem_children hc))⟩
  entry he htable htarget := he.entry hself htables htable htarget
  simplify {h e x} he hx := by
    obtain ⟨⟨hevolves, hext⟩, -, -⟩ := he.evolves.simplify he.lt_size
    exact ⟨hevolves, Nat.lt_of_lt_of_le hx.lt_size hext.size_le,
      hx.refers.mono hx.evolves.canonical.wellFormed hx.lt_size hext⟩
  terminal {h e} he hterminal := by
    obtain ⟨⟨hevolves, -⟩, hlt, -⟩ := he.evolves.simplify he.lt_size
    refine ⟨hevolves, hlt, .of_successors (fun rule hrule ↦ ?_) fun y hy ↦ ?_⟩
    · rw [hrule] at hterminal
      cases hterminal
    · rw [successors] at hy
      generalize (Grammar.simplify e h).2.op (Grammar.simplify e h).1 = op at hterminal hy
      cases op with
      | anyByte | byte _ | byteClass _ => cases hy
      | _ => cases hterminal
  factor {h e x} he hx := by
    obtain ⟨hevolves, hext⟩ := hx.evolves.factorCommonHead e
    exact ⟨hevolves, Nat.lt_of_lt_of_le hx.lt_size hext.size_le,
      hx.refers.mono hx.evolves.canonical.wellFormed hx.lt_size hext⟩
  factored {h e factored} he hfactored := by
    have hwf := he.evolves.canonical.wellFormed
    obtain ⟨hevolves, hext⟩ := he.evolves.factorCommonHead e
    obtain ⟨⟨hgrows, -, -⟩, hmakes⟩ := ensures_factorCommonHead hwf e
    refine ⟨hevolves, (hmakes factored hfactored).2.1, fun x rule hx hop ↦ ?_⟩
    rcases reach_of_factorCommonHead hwf hfactored hx with hnew | hold
    · -- new nodes are no references
      have hglue := hgrows.isGlue x hnew
      rw [hop] at hglue
      cases hglue
    · rw [hext.op_eq x (reach_lt hwf he.lt_size hold)] at hop
      exact he.refers x rule hold hop

end Admits

end Grammar

/-! ### Calls -/

namespace Session

variable {s : Session}

/-- Linking changes where calls go, but not which rules are called. -/
theorem isCall_link {instr : Instruction} {rule : RuleId} {target : Option InstrId}
    (h : (s.link instr).op = .call rule target) : ∃ old, instr.op = .call rule old := by
  obtain ⟨op, next, origin, label⟩ := instr
  cases op with
  | call rule' old =>
    cases h
    exact ⟨old, rfl⟩
  | _ => cases h

/-- Linking ends with the target of each call, or for a rule that is called and has none. -/
theorem linked_or_error {A : RuleId → Prop} {order : List InstrId} {c : Code}
    (hcalls : ∀ (i : InstrId) instr rule target, c.instrs[i]? = some instr →
      instr.op = .call rule target → A rule) :
    (∃ c', order.foldlM s.linkInstruction c = .ok c') ∨
      ∃ rule error, A rule ∧ s.target rule = .error error ∧
        order.foldlM s.linkInstruction c = .error error := by
  induction order generalizing c with
  | nil => exact .inl ⟨c, rfl⟩
  | cons i order ih =>
    rw [List.foldlM_cons]
    have hstep : (∃ c', s.linkInstruction c i = .ok c') ∨ ∃ rule error, A rule ∧
        s.target rule = .error error ∧ s.linkInstruction c i = .error error := by
      unfold linkInstruction
      split
      · rename_i rule target next origin label hinstr
        rcases htarget : s.target rule with error | head
        · exact .inr ⟨rule, error, hcalls i _ rule target hinstr rfl, htarget, rfl⟩
        · exact .inl ⟨_, rfl⟩
      · exact .inl ⟨c, rfl⟩
    rcases hstep with ⟨c', hc'⟩ | ⟨rule, error, hrule, htarget, herror⟩
    · rw [hc']
      refine ih fun j instr rule target hinstr hop ↦ ?_
      rw [(linkInstruction_eq_ok hc').2.1 j] at hinstr
      split at hinstr
      · obtain ⟨old, hold, rfl⟩ := Option.map_eq_some_iff.mp hinstr
        obtain ⟨target', hop'⟩ := isCall_link hop
        exact hcalls j old rule target' hold hop'
      · exact hcalls j instr rule target hinstr hop
    · rw [herror]
      exact .inr ⟨rule, error, hrule, htarget, rfl⟩

/-- A session without blocks is no program. Else the result is one, unless a rule is called that has
no block. -/
theorem finish_or_error {A : RuleId → Prop} (hblocks : s.blocks.isEmpty = false)
    (hcalls : ∀ (i : InstrId) instr rule target, s.code.instrs[i]? = some instr →
      instr.op = .call rule target → A rule) :
    (∃ p, s.finish = .ok p) ∨
      ∃ rule error, A rule ∧ s.target rule = .error error ∧ s.finish = .error error := by
  unfold finish
  rw [hblocks]
  rcases linked_or_error hcalls with ⟨c, hc⟩ | ⟨rule, error, hrule, htarget, herror⟩
  · rw [show s.linked = .ok c from hc]
    exact .inl ⟨_, rfl⟩
  · rw [show s.linked = .error error from herror]
    exact .inr ⟨rule, error, hrule, htarget, rfl⟩

/-- There is a target for each rule that has a block, and an error that fits for every other. -/
theorem target_eq_error {rule : RuleId} {error : CompileError} (h : s.target rule = .error error) :
    s.block? rule = none ∧
      ((s.grammar.body? rule = none ∧ error = .undefinedRule (s.grammar.ruleName rule)) ∨
        ((s.grammar.body? rule).isSome ∧ error = .unlinkedCall (s.grammar.ruleName rule))) := by
  unfold target at h
  split at h
  · cases h
  · rename_i hblock hbody
    cases h
    exact ⟨hblock, .inl ⟨hbody, rfl⟩⟩
  · rename_i hblock hbody
    cases h
    exact ⟨hblock, .inr ⟨by rw [hbody]; rfl, rfl⟩⟩

/-- The rules that have blocks are those that were compiled. -/
theorem isSome_block?_iff {rules : List RuleId}
    (hblocks : s.blocks.toList.map Block.rule = rules.eraseDups) {rule : RuleId} :
    (s.block? rule).isSome ↔ rule ∈ rules := by
  rw [← List.mem_eraseDups, ← hblocks, List.mem_map, block?, Array.find?_isSome]
  refine exists_congr fun block ↦ ?_
  rw [Array.mem_toList_iff, beq_iff_eq]

end Session

namespace Grammar

variable {g k : Grammar} {depth : Nat} {rules : List RuleId} {o : Options}
  {result : Except CompileError Program}

/-- Whether compiling a list of rules succeeds, and which rule is to blame if not. -/
structure Links (g : Grammar) (rules : List RuleId) (result : Except CompileError Program) :
    Prop where
  /-- There has to be a rule. -/
  empty_iff : result = .error .emptyRuleList ↔ rules = []
  /-- Rules that are defined and refer to each other only are linked. -/
  ok : rules ≠ [] → (∀ rule ∈ rules, (g.body? rule).isSome) →
    (∀ rule, g.RefersTo rules rule → rule ∈ rules) → ∃ p, result = .ok p
  /-- A rule that is said to be undefined is, and it is listed or referred to. -/
  undefined : ∀ name, result = .error (.undefinedRule name) →
    ∃ rule, g.ruleName rule = name ∧ g.body? rule = none ∧ (rule ∈ rules ∨ g.RefersTo rules rule)
  /-- A rule that is said not to be linked is defined and referred to, but not listed. -/
  unlinked : ∀ name, result = .error (.unlinkedCall name) →
    ∃ rule, g.ruleName rule = name ∧ (g.body? rule).isSome ∧ rule ∉ rules ∧ g.RefersTo rules rule

namespace Links

variable {rule : RuleId}

theorem of_ok (hrules : rules ≠ []) (p : Program) : g.Links rules (.ok p) where
  empty_iff := iff_of_false (fun h ↦ nomatch h) hrules
  ok _ _ _ := ⟨p, rfl⟩
  undefined _ h := nomatch h
  unlinked _ h := nomatch h

theorem of_empty (hrules : rules = []) : g.Links rules (.error .emptyRuleList) where
  empty_iff := iff_of_true rfl hrules
  ok h := absurd hrules h
  undefined _ h := nomatch h
  unlinked _ h := nomatch h

/-- A listed rule is to blame if it has no body. -/
theorem of_listed (hrule : rule ∈ rules) (hbody : g.body? rule = none) :
    g.Links rules (.error (.undefinedRule (g.ruleName rule))) where
  empty_iff := iff_of_false (fun h ↦ nomatch h) (List.ne_nil_of_mem hrule)
  ok _ hdefined _ := by
    have hsome := hdefined rule hrule
    rw [hbody] at hsome
    cases hsome
  undefined name hname := by
    cases hname
    exact ⟨rule, rfl, hbody, .inl hrule⟩
  unlinked _ h := nomatch h

/-- A rule that is not listed is to blame if it is referred to. -/
theorem of_refersTo (hrules : rules ≠ []) (hrule : rule ∉ rules) (hrefers : g.RefersTo rules rule)
    {error : CompileError}
    (herror : g.body? rule = none ∧ error = .undefinedRule (g.ruleName rule) ∨
      (g.body? rule).isSome ∧ error = .unlinkedCall (g.ruleName rule)) :
    g.Links rules (.error error) := by
  rcases herror with ⟨hbody, rfl⟩ | ⟨hbody, rfl⟩
  · refine ⟨iff_of_false (fun h ↦ nomatch h) hrules, fun _ _ hlisted ↦ ?_, fun name hname ↦ ?_,
      fun name hname ↦ nomatch hname⟩
    · exact absurd (hlisted rule hrefers) hrule
    · cases hname
      exact ⟨rule, rfl, hbody, .inr hrefers⟩
  · refine ⟨iff_of_false (fun h ↦ nomatch h) hrules, fun _ _ hlisted ↦ ?_, fun name hname ↦ ?_,
      fun name hname ↦ ?_⟩
    · exact absurd (hlisted rule hrefers) hrule
    · cases hname
    · cases hname
      exact ⟨rule, rfl, hbody, hrule, hrefers⟩

/-- Rules that have their blocks are linked as far as they only call each other. -/
theorem of_finish {s : Session} (hext : g.IntactIn s.grammar)
    (hblocks : s.blocks.toList.map Block.rule = rules.eraseDups)
    (hcalls : ∀ (i : InstrId) instr rule target, s.code.instrs[i]? = some instr →
      instr.op = .call rule target → g.RefersTo rules rule) : g.Links rules s.finish := by
  cases hempty : s.blocks.isEmpty with
  | true =>
    have hfinish : s.finish = .error .emptyRuleList := by
      unfold Session.finish
      rw [hempty]
      rfl
    rw [hfinish]
    refine .of_empty (List.eq_nil_iff_forall_not_mem.mpr fun rule hrule ↦ ?_)
    rw [← List.mem_eraseDups, ← hblocks, Array.isEmpty_iff.mp hempty] at hrule
    cases hrule
  | false =>
    have hrules : rules ≠ [] := by
      rintro rfl
      rw [List.eraseDups_nil, List.map_eq_nil_iff, Array.toList_eq_nil_iff] at hblocks
      rw [hblocks] at hempty
      cases hempty
    rcases Session.finish_or_error hempty hcalls with
      ⟨p, hp⟩ | ⟨rule, error, hrefers, htarget, herror⟩
    · rw [hp]
      exact .of_ok hrules p
    · obtain ⟨hblock, hcause⟩ := Session.target_eq_error htarget
      rw [hext.toExtends.body?_eq, hext.ruleName_eq] at hcause
      rw [herror]
      refine .of_refersTo hrules ?_ hrefers hcause
      rw [← Session.isSome_block?_iff hblocks, hblock]
      exact Bool.false_ne_true

end Links

/-- In a grammar where nothing points outside, compiling succeeds when it should and blames the
right rule. -/
theorem links_of_compile (hg : g.SelfContained) (htables : g.NarrowTables)
    (hcompile : compileWithin depth g rules o = some (result, k)) : g.Links rules result := by
  have hP := Admits.hereditary hg htables (g.RefersTo rules)
  have hbodies : ∀ rule ∈ rules, ∀ body, g.body? rule = some body →
      g.Admits (g.RefersTo rules) g body := fun rule hrule body hbody ↦
    ⟨.refl hg, hg.wellFormed.body_lt rule body hbody, fun x callee hx hop ↦
      ⟨rule, hrule, body, hbody, x, hx, hop⟩⟩
  have hplanned := Session.planned_start (g.Admits (g.RefersTo rules)) depth g o
  unfold compileWithin at hcompile
  split at hcompile
  · cases hcompile
  · rename_i error s hrules
    cases hcompile
    obtain ⟨-, -, hundefined⟩ := hplanned.compileRules hP hbodies hrules
    obtain ⟨rule, hrule, hbody, rfl⟩ := hundefined error rfl
    exact .of_listed hrule hbody
  · rename_i s hrules
    cases hcompile
    obtain ⟨hprecedes, hs, -⟩ := hplanned.compileRules hP hbodies hrules
    obtain ⟨-, -, -, hblocks⟩ := (Session.laid_start htables.fullTables depth o
      fun _ ↦ []).compileRules List.eraseDups_nil.symm hrules
    refine .of_finish hprecedes.intact hblocks fun i instr rule target hinstr hop ↦ ?_
    -- the call was made for a reference that takes part in matching one of the rules
    have hwarranted := hs.warranted i instr hinstr
    rw [hop] at hwarranted
    obtain ⟨hadmits, horigin⟩ := hwarranted
    exact hadmits.refers _ rule .refl horigin

end Grammar

/-- However a grammar was built, analysed and compiled before, compiling a list of rules succeeds
when it should and blames the right rule, if operands come before their nodes. -/
theorem links_of_applyAll {edits : List Edit} {g k : Grammar}
    (hedits : Edit.applyAll {} edits = some g) (hup : g.BottomUp) {depth : Nat}
    {rules : List RuleId} {o : Options} {result : Except CompileError Program}
    (hcompile : compileWithin depth g rules o = some (result, k)) : g.Links rules result := by
  have hempty : Grammar.SelfContained {} := .of_empty (by decide) rfl rfl
  have hself : g.SelfContained :=
    Edit.selfContained_applyAll hempty (Grammar.fullTables_of_tables_empty rfl) hedits hup
  exact Grammar.links_of_compile hself
    (Edit.narrowTables_applyAll (.of_tables_empty rfl) hempty hedits hup) hcompile

/-- `S = A / 'a' 'x'`, `A = 'a' B` and `B = 'b'`. Factoring opens the body of `A`. -/
def openedBody : List Edit :=
  [.declare "S", .declare "A", .declare "B", .alloc (.byte 97) .synthetic,
    .alloc (.reference 2) .synthetic, .alloc (.sequence [0, 1]) .synthetic,
    .alloc (.byte 120) .synthetic, .alloc (.sequence [0, 3]) .synthetic,
    .alloc (.reference 1) .synthetic, .alloc (.choice [5, 4]) .synthetic,
    .alloc (.byte 98) .synthetic, .define 0 6, .define 1 2, .define 2 7, .attachTables]

theorem links_of_applyAll_openedBody :
    ∃ g k, Edit.applyAll {} openedBody = some g ∧ g.BottomUp ∧
      compileWithin 20 g [0] { commonHead := true } = some (.error (.unlinkedCall "B"), k) ∧
      ∃ rule, g.ruleName rule = "B" ∧ (g.body? rule).isSome ∧ rule ∉ [0] ∧
        g.RefersTo [0] rule := by
  have hcheck : ((Edit.applyAll {} openedBody).any fun g ↦ decide g.WellFormed &&
      (compileWithin 20 g [0] { commonHead := true }).any fun result ↦
        match result.1 with
        | .error error => error == .unlinkedCall "B"
        | .ok _ => false) = true := by decide +kernel
  obtain ⟨g, hg, hcheck⟩ := (Option.any_eq_true _ _).mp hcheck
  obtain ⟨hwf, hcheck⟩ := Bool.and_eq_true_iff.mp hcheck
  have hup := (of_decide_eq_true hwf).bottomUp
  obtain ⟨⟨result, k⟩, hcompile, hresult⟩ := (Option.any_eq_true _ _).mp hcheck
  obtain rfl : result = .error (.unlinkedCall "B") := by
    rcases result with error | p
    · exact congrArg _ (eq_of_beq hresult)
    · cases hresult
  exact ⟨g, k, hg, hup, hcompile, (links_of_applyAll hg hup hcompile).unlinked "B" rfl⟩

end ParsingMachine
