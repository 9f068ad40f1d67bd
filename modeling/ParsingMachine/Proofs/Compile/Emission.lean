import ParsingMachine.Proofs.Compile.Brackets
import ParsingMachine.Proofs.Compile.Layout
import ParsingMachine.Proofs.Grammar.Evolution

/-!
# What instructions are made for

A call is made for a reference to its rule, and memo instructions are made for a reference or a link
with the slot of the expression that it resolves to (`Session.Warrants`). Whatever is compiled,
every instruction is made for such a reason (`Session.Planned`), and the slots are kept in order.

Encoding does not go astray: from the nodes of a kind it comes to nodes of that kind only, if the
kind is passed on to operands, to entries of jump tables and to what simplifying and factoring
answer (`Grammar.Hereditary`). So calls are made for references of the kind.

There is one lemma for each function of the encoder (`Encoder.plans_encode`).

The kind is a parameter. With all nodes as the kind the result is about memo slots alone; with the
nodes that refer to certain rules only it says which rules can be called. One induction over the
encoder serves both, as the reasons for instructions do not depend on the kind.

A reason is a fact about a session, and sessions change. It is kept because encoding undoes nothing
(`Session.Precedes`): the grammar stays intact, slots stay at their places, and an operation stays
as it was unless it is a switch, for which no reason is needed. So a reason that was there when an
instruction was made is still there at the end (`Planned.warrants`).

Whether the results of a slot depend on the parse state was asked in the grammar as it was then.
That grammar is kept in the invariant, and not the answer alone, since the answer has to be compared
with the grammar in the end.

## Main statements

* `Session.planned_push`, `Session.planned_slot`, `Session.planned_modify`: what can happen to a
  session that is planned.
* `plans_memoizedCode`: the instructions of a memoized path use the slot of their node.
* `plans_encode`: encoding a node of the kind makes what is warranted.
* `Planned.compileRules`: so does compiling rules, and it ends in an error only for a rule without a
  body.
-/

namespace ParsingMachine

/-! ### Kinds of nodes -/

namespace Grammar

variable {g h : Grammar} {e expr : ExprId} {child : Option Int}

/-- A kind of nodes that encoding does not leave. -/
structure Hereditary (P : Grammar → ExprId → Prop) : Prop where
  /-- Operands are of the kind. -/
  child : ∀ {g e c}, P g e → c ∈ (g.op e).children → P g c
  /-- Entries of the jump table are of the kind. -/
  entry : ∀ {g e table target}, P g e → g.table? e = some table → target ∈ table → P g target
  /-- Simplifying a node of the kind leaves nodes of the kind as they are. -/
  simplify : ∀ {g e x}, P g e → P g x → P (Grammar.simplify e g).2 x
  /-- A terminal that simplification answers is of the kind. -/
  terminal : ∀ {g e}, P g e →
    ((Grammar.simplify e g).2.op (Grammar.simplify e g).1).isTerminal →
      P (Grammar.simplify e g).2 (Grammar.simplify e g).1
  /-- Factoring a node of the kind leaves nodes of the kind as they are. -/
  factor : ∀ {g e x}, P g e → P g x → P (factorCommonHead e g).2 x
  /-- What factoring answers is of the kind. -/
  factored : ∀ {g e x}, P g e → (factorCommonHead e g).1 = some x → P (factorCommonHead e g).2 x

/-- All nodes are of a kind. -/
theorem hereditary_true : Hereditary fun _ _ ↦ True where
  child _ _ := trivial
  entry _ _ _ := trivial
  simplify _ _ := trivial
  terminal _ _ := trivial
  factor _ _ := trivial
  factored _ _ := trivial

/-- The expression whose results are kept for a node, and where these hold a tree node the index of
that. -/
inductive SlotOf (g : Grammar) (e : ExprId) : ExprId → Option Int → Prop
  | reference {rule : RuleId} {body : ExprId} (hop : g.op e = .reference rule)
    (hbody : g.body? rule = some body) : SlotOf g e (g.resolve body) none
  | link {inner : ExprId} {index : Int} (hop : g.op e = .link inner index) :
    SlotOf g e (g.resolve inner) (some index)

/-- An old expression keeps its slot while the grammar grows. -/
theorem SlotOf.intact (hslot : g.SlotOf e expr child) (hexpr : expr < g.size) (hgh : g.IntactIn h) :
    h.SlotOf e expr child := by
  cases hslot with
  | reference hop hbody =>
    have he : e < g.size := lt_size_of_op_ne (by simp [hop])
    rw [← hgh.resolve_eq hexpr]
    exact .reference ((hgh.toExtends.op_eq e he).trans hop) ((hgh.toExtends.body?_eq _).trans hbody)
  | link hop =>
    have he : e < g.size := lt_size_of_op_ne (by simp [hop])
    rw [← hgh.resolve_eq hexpr]
    exact .link ((hgh.toExtends.op_eq e he).trans hop)

/-- Searches come to an end only at nodes. -/
theorem lt_size_of_find? {test : Operator → Bool} {entered : List RuleId} {found : Bool}
    (h : g.find? test entered e = some found) : e < g.size := by
  obtain ⟨⟨_, after⟩, hfind, -⟩ := Option.map_eq_some_iff.mp h
  rw [analysisDepth] at hfind
  exact (findsAt_of_findWithin hfind).1

end Grammar

/-! ### Instructions and slots -/

/-- Whether the operation is a switch in front of a memoized path. -/
def Opcode.isSwitch : Opcode → Bool
  | monitoredSwitch _ => true
  | _ => false

namespace Session

variable {P : Grammar → ExprId → Prop} {s s₁ s₂ : Session} {e : ExprId} {use : MemoUse}
  {child : Option Int} {op : Opcode}

/-- A memo instruction uses the slot of a node, and has its key and what its entries hold. -/
def Uses (s : Session) (e : ExprId) (use : MemoUse) (child : Option Int) : Prop :=
  ∃ slot, s.memo[use.memo]? = some slot ∧ use.key = slot.key ∧ child.isSome = slot.node ∧
    s.grammar.SlotOf e slot.expr child

/-- What an operation may be made for. A lookup falls back on the instruction that records its
failure. -/
def Warrants (P : Grammar → ExprId → Prop) (s : Session) (e : ExprId) : Opcode → Prop
  | .call rule _ => P s.grammar e ∧ s.grammar.op e = .reference rule
  | .lookup use child _ onMemoFail => s.Uses e use child ∧
    ∃ instr, s.code.instrs[onMemoFail]? = some instr ∧ instr.op = .memoizeFail use
  | .memoize use child => s.Uses e use child
  | .memoizeFail use => ∃ child, s.Uses e use child
  | _ => True

/-- Every instruction is made for a reason, and every slot for an expression of its own. -/
structure Planned (P : Grammar → ExprId → Prop) (s : Session) : Prop where
  /-- Slots are numbered. -/
  id_eq : ∀ (i : MemoId) slot, s.memo[i]? = some slot → slot.id = i
  /-- There is one slot for an expression. -/
  unique : ∀ slot ∈ s.memo, ∀ other ∈ s.memo, slot.expr = other.expr → slot.node = other.node →
    slot = other
  /-- What the results depend on was found out in the grammar as it was then. -/
  asked : ∀ slot ∈ s.memo, ∃ h : Grammar, h.Extends s.grammar ∧
    h.find? Operator.isStateQuery [] slot.expr = some slot.contextSensitive
  /-- Instructions are made for nodes that warrant them. -/
  warranted : ∀ (i : InstrId) instr, s.code.instrs[i]? = some instr →
    s.Warrants P instr.origin instr.op

/-- What encoding does not undo. -/
structure Precedes (P : Grammar → ExprId → Prop) (s s' : Session) : Prop where
  /-- Nothing in the grammar changes. -/
  intact : s.grammar.IntactIn s'.grammar
  /-- Nodes stay of their kind. -/
  kind : ∀ e, P s.grammar e → P s'.grammar e
  /-- Slots stay. -/
  memo : ∀ (i : MemoId) slot, s.memo[i]? = some slot → s'.memo[i]? = some slot
  /-- Operations stay, but for where switches lead. -/
  instrs : ∀ (i : InstrId) instr, s.code.instrs[i]? = some instr →
    ∃ instr', s'.code.instrs[i]? = some instr' ∧
      (instr'.op = instr.op ∨ instr.op.isSwitch ∧ instr'.op.isSwitch)

namespace Precedes

theorem refl (s : Session) : s.Precedes P s :=
  ⟨.refl _, fun _ h ↦ h, fun _ _ h ↦ h, fun _ instr h ↦ ⟨instr, h, .inl rfl⟩⟩

theorem trans (h : s.Precedes P s₁) (h' : s₁.Precedes P s₂) : s.Precedes P s₂ where
  intact := h.intact.trans h'.intact
  kind e he := h'.kind e (h.kind e he)
  memo i slot hslot := h'.memo i slot (h.memo i slot hslot)
  instrs i instr hinstr := by
    obtain ⟨instr₁, hinstr₁, hop₁⟩ := h.instrs i instr hinstr
    obtain ⟨instr₂, hinstr₂, hop₂⟩ := h'.instrs i instr₁ hinstr₁
    refine ⟨instr₂, hinstr₂, ?_⟩
    rcases hop₁ with hop₁ | ⟨hswitch, hswitch₁⟩
    · rwa [hop₁] at hop₂
    · rcases hop₂ with hop₂ | ⟨-, hswitch₂⟩
      · exact .inr ⟨hswitch, by rwa [hop₂]⟩
      · exact .inr ⟨hswitch, hswitch₂⟩

/-- References stay references, and so on. -/
theorem op_eq (h : s.Precedes P s₁) (hop : s.grammar.op e ≠ .fail) :
    s₁.grammar.op e = s.grammar.op e :=
  h.intact.toExtends.op_eq e (Grammar.lt_size_of_op_ne hop)

/-- An operation that is no switch stays. -/
theorem exists_instr (h : s.Precedes P s₁) {i : InstrId}
    (hinstr : ∃ instr, s.code.instrs[i]? = some instr ∧ instr.op = op) (hop : op.isSwitch = false) :
    ∃ instr, s₁.code.instrs[i]? = some instr ∧ instr.op = op := by
  obtain ⟨instr, hinstr, rfl⟩ := hinstr
  obtain ⟨instr', hinstr', hop' | ⟨hswitch, -⟩⟩ := h.instrs i instr hinstr
  · exact ⟨instr', hinstr', hop'⟩
  · rw [hop] at hswitch
    cases hswitch

end Precedes

namespace Planned

/-- Slots are for nodes. -/
theorem expr_lt (hs : s.Planned P) {slot : MemoSlot} (hslot : slot ∈ s.memo) :
    slot.expr < s.grammar.size := by
  obtain ⟨h, hext, hfind⟩ := hs.asked slot hslot
  exact Nat.lt_of_lt_of_le (Grammar.lt_size_of_find? hfind) hext.size_le

/-- A slot that is used is used later on. -/
theorem uses (hs : s.Planned P) (h : s.Precedes P s₁) (huse : s.Uses e use child) :
    s₁.Uses e use child := by
  obtain ⟨slot, hslot, hkey, hchild, hof⟩ := huse
  have hlt := hs.expr_lt (Array.mem_of_getElem? hslot)
  exact ⟨slot, h.memo _ slot hslot, hkey, hchild, hof.intact hlt h.intact⟩

/-- What warranted an operation does so later on. -/
theorem warrants (hs : s.Planned P) (h : s.Precedes P s₁) (hop : s.Warrants P e op) :
    s₁.Warrants P e op := by
  cases op with
  | call rule target =>
    obtain ⟨hkind, hop⟩ := hop
    exact ⟨h.kind e hkind, (h.op_eq (by simp [hop])).trans hop⟩
  | lookup use child onHit onMemoFail =>
    exact ⟨hs.uses h hop.1, h.exists_instr hop.2 rfl⟩
  | memoize use child => exact hs.uses h hop
  | memoizeFail use => exact hop.imp fun _ ↦ hs.uses h
  | _ => trivial

/-- Nothing is made but what is warranted. -/
theorem step (hs : s.Planned P) (h : s.Precedes P s₁) (hmemo : s₁.memo = s.memo)
    (hinstrs : ∀ (i : InstrId) instr, s₁.code.instrs[i]? = some instr →
      s.Warrants P instr.origin instr.op) : s₁.Planned P where
  id_eq := by
    rw [hmemo]
    exact hs.id_eq
  unique := by
    rw [hmemo]
    exact hs.unique
  asked slot hslot := by
    rw [hmemo] at hslot
    obtain ⟨k, hext, hfind⟩ := hs.asked slot hslot
    exact ⟨k, hext.trans h.intact.toExtends, hfind⟩
  warranted i instr hinstr := hs.warrants h (hinstrs i instr hinstr)

end Planned

/-- An instruction is appended. -/
theorem planned_push (hs : s.Planned P) (next : Option InstrId) (hop : s.Warrants P e op) :
    s.Precedes P { s with code := s.code.push op next e } ∧
      Planned P { s with code := s.code.push op next e } := by
  have hprecedes : s.Precedes P { s with code := s.code.push op next e } := by
    exact ⟨.refl _, fun _ h ↦ h, fun _ _ h ↦ h, fun i instr hinstr ↦
      ⟨instr, getElem?_push_of_eq_some hinstr _, .inl rfl⟩⟩
  refine ⟨hprecedes, hs.step hprecedes rfl fun i instr hinstr ↦ ?_⟩
  rw [Code.push, Array.getElem?_push] at hinstr
  split at hinstr
  · cases hinstr
    exact hop
  · exact hs.warranted i instr hinstr

/-- A slot is appended for an expression that has none. -/
theorem planned_slot (hs : s.Planned P) {slot : MemoSlot} (hid : slot.id = s.memo.size)
    (hnew : ∀ old ∈ s.memo, ¬(old.expr = slot.expr ∧ old.node = slot.node))
    (hfind : s.grammar.find? Operator.isStateQuery [] slot.expr = some slot.contextSensitive) :
    s.Precedes P { s with memo := s.memo.push slot } ∧
      Planned P { s with memo := s.memo.push slot } := by
  have hprecedes : s.Precedes P { s with memo := s.memo.push slot } :=
    ⟨.refl _, fun _ h ↦ h, fun i old hold ↦ getElem?_push_of_eq_some hold slot,
      fun i instr h ↦ ⟨instr, h, .inl rfl⟩⟩
  refine ⟨hprecedes, ?_⟩
  constructor
  case id_eq =>
    intro i other hother
    rw [Array.getElem?_push] at hother
    split at hother
    · rename_i heq
      cases hother
      rw [hid, heq]
    · exact hs.id_eq i other hother
  case unique =>
    intro a ha b hb hexpr hnode
    rw [Array.mem_push] at ha hb
    rcases ha with ha | rfl <;> rcases hb with hb | rfl
    · exact hs.unique a ha b hb hexpr hnode
    · exact absurd ⟨hexpr, hnode⟩ (hnew a ha)
    · exact absurd ⟨hexpr.symm, hnode.symm⟩ (hnew b hb)
    · rfl
  case asked =>
    intro a ha
    rcases Array.mem_push.mp ha with ha | rfl
    · exact hs.asked a ha
    · exact ⟨s.grammar, .refl _, hfind⟩
  case warranted =>
    exact fun i instr hinstr ↦ hs.warrants hprecedes (hs.warranted i instr hinstr)

/-- An instruction is changed, but only a switch comes to do something else. -/
theorem planned_modify (hs : s.Planned P) {f : Instruction → Instruction} {i : InstrId}
    (hf : ∀ instr, s.code.instrs[i]? = some instr → (f instr).origin = instr.origin ∧
      ((f instr).op = instr.op ∨ instr.op.isSwitch ∧ (f instr).op.isSwitch)) :
    s.Precedes P { s with code := { s.code with instrs := s.code.instrs.modify i f } } ∧
      Planned P { s with code := { s.code with instrs := s.code.instrs.modify i f } } := by
  have hprecedes :
      s.Precedes P { s with code := { s.code with instrs := s.code.instrs.modify i f } } := by
    refine ⟨.refl _, fun _ h ↦ h, fun _ _ h ↦ h, fun j instr hinstr ↦ ?_⟩
    dsimp only
    rw [Array.getElem?_modify, hinstr]
    split
    · rename_i heq
      subst heq
      exact ⟨f instr, rfl, (hf instr hinstr).2⟩
    · exact ⟨instr, rfl, .inl rfl⟩
  refine ⟨hprecedes, hs.step hprecedes rfl fun j instr hinstr ↦ ?_⟩
  dsimp only at hinstr
  rw [Array.getElem?_modify] at hinstr
  split at hinstr
  · rename_i heq
    subst heq
    obtain ⟨old, hold, rfl⟩ := Option.map_eq_some_iff.mp hinstr
    obtain ⟨horigin, hop | ⟨-, hswitch⟩⟩ := hf old hold
    · rw [horigin, hop]
      exact hs.warranted i old hold
    · -- a switch is made for any node
      generalize (f old).op = op at hswitch
      cases op <;> trivial
  · exact hs.warranted j instr hinstr

end Session

namespace Encoder

variable {P : Grammar → ExprId → Prop} {α β : Type} {s : Session} {e : ExprId} {next : InstrId}

/-- The encoder makes instructions that are warranted, for calls by references of a kind. -/
def Plans (P : Grammar → ExprId → Prop) (m : Encoder α) (s : Session) : Prop :=
  s.Planned P → ∀ a s', m s = some (a, s') → s.Precedes P s' ∧ s'.Planned P

namespace Plans

theorem pure (a : α) : Plans P (Pure.pure a) s := by
  intro hs b s' h
  cases h
  exact ⟨.refl s, hs⟩

/-- What comes next may rely on the answer and on the plan. -/
theorem bind {m : Encoder α} {f : α → Encoder β} (hm : Plans P m s)
    (hf : ∀ a s₁, m s = some (a, s₁) → s.Precedes P s₁ → s₁.Planned P → Plans P (f a) s₁) :
    Plans P (m >>= f) s := by
  intro hs b s₂ h
  obtain ⟨a, s₁, h₁, h₂⟩ := bind_eq_some h
  obtain ⟨hprecedes, hs₁⟩ := hm hs a s₁ h₁
  obtain ⟨hprecedes', hs₂⟩ := hf a s₁ h₁ hprecedes hs₁ hs₁ b s₂ h₂
  exact ⟨hprecedes.trans hprecedes', hs₂⟩

/-- The plan itself may be relied on. -/
theorem planned {m : Encoder α} (h : s.Planned P → Plans P m s) : Plans P m s :=
  fun hs ↦ h hs hs

/-- Reading the options. -/
theorem options {f : Options → Encoder β} (hf : Plans P (f s.options) s) :
    Plans P (Encoder.options >>= f) s :=
  hf

/-- Reading the grammar. -/
theorem grammar {f : Grammar → Encoder β} (hf : Plans P (f s.grammar) s) :
    Plans P (Encoder.grammar >>= f) s :=
  hf

end Plans

/-- An instruction that is warranted is appended. -/
theorem plans_emitWith {op : Opcode} (next : Option InstrId) (hop : s.Warrants P e op) :
    Plans P (emitWith op next e) s := by
  intro hs i s' h
  cases h
  exact Session.planned_push hs next hop

theorem plans_emit {op : Opcode} (hop : s.Warrants P e op) : Plans P (emit op next e) s :=
  plans_emitWith _ hop

theorem plans_emitEnd {op : Opcode} (hop : s.Warrants P e op) : Plans P (emitEnd op e) s :=
  plans_emitWith _ hop

/-- Continuations do not matter for why an instruction was made. -/
theorem plans_patchNext (i : InstrId) : Plans P (patchNext i next) s := by
  intro hs u s' h
  cases h
  exact Session.planned_modify hs (f := ({ · with next := some next })) fun _ _ ↦ ⟨rfl, .inl rfl⟩

/-- A switch comes to lead elsewhere. -/
theorem plans_patchOp {op : Opcode} (hop : op.isSwitch) {i : InstrId}
    (hi : ∀ instr, s.code.instrs[i]? = some instr → instr.op.isSwitch) :
    Plans P (patchOp i op) s := by
  intro hs u s' h
  cases h
  exact Session.planned_modify hs fun instr hinstr ↦ ⟨rfl, .inr ⟨hi instr hinstr, hop⟩⟩

/-- A slot is issued for an expression that has none, with what its results depend on. -/
theorem plans_issue (label : String) (expr : ExprId) (node : Bool) :
    Plans P (issue label expr node) s := by
  intro hs slot s' h
  rcases issue_eq_some h with ⟨rfl, -⟩ | ⟨hnew, rfl, contextSensitive, hsearch, hslot⟩
  · exact ⟨.refl _, hs⟩
  · subst hslot
    exact Session.planned_slot hs rfl hnew hsearch

/-- Extending the grammar. -/
theorem plans_build {b : Builder α} (hb : ∀ P, Grammar.Enduring P → Builder.Keeps P b)
    (hkind : ∀ x, P s.grammar x → P (b s.grammar).2 x) : Plans P (build b) s := by
  intro hs a s' h
  cases h
  have hintact := hb _ (Grammar.enduring_intactIn s.grammar) s.grammar (.refl _)
  have hprecedes : s.Precedes P { s with grammar := (b s.grammar).2 } :=
    ⟨hintact, hkind, fun _ _ h ↦ h, fun i instr h ↦ ⟨instr, h, .inl rfl⟩⟩
  exact ⟨hprecedes, hs.step hprecedes rfl hs.warranted⟩

/-! ### Simplified operands -/

section

variable (hP : Grammar.Hereditary P)
include hP

/-- Simplifying a node of the kind leaves reasons as they are. -/
theorem plans_simplify (he : P s.grammar e) : Plans P (build (Grammar.simplify e)) s :=
  plans_build (fun _ hQ ↦ Grammar.keeps_simplify hQ e) fun _ ↦ hP.simplify he

theorem plans_simplified (he : P s.grammar e) : Plans P (simplified e) s := by
  refine .options ?_
  split
  · exact plans_simplify hP he
  · exact .pure e

/-- The terminal that is encoded in place of a node is of the same kind. -/
theorem kind_of_simplified {other : ExprId} {s₁ : Session} (he : P s.grammar e)
    (h : simplified e s = some (other, s₁)) (hterminal : (s₁.grammar.op other).isTerminal) :
    P s₁.grammar other := by
  have hoptions : simplified e s = (if s.options.specialize then build (Grammar.simplify e)
    else Pure.pure e : Encoder ExprId) s := rfl
  rw [hoptions] at h
  split at h
  · cases h
    exact hP.terminal he hterminal
  · cases h
    exact he

theorem plans_specializedSet? (he : P s.grammar e) : Plans P (specializedSet? e) s := by
  refine .options ?_
  split
  · exact (plans_simplify hP he).bind fun other s₁ _ _ _ ↦ .grammar (.pure _)
  · exact .pure none

/-! ### Nodes -/

variable {recur : ExprId → InstrId → Encoder InstrId}
  (hrecur : ∀ e next s, P s.grammar e → Plans P (recur e next) s)
include hrecur

omit hP in
/-- Items of the kind. -/
theorem plans_itemsCode {items : List ExprId} (hitems : ∀ x ∈ items, P s.grammar x) :
    Plans P (itemsCode recur items next) s := by
  rw [itemsCode]
  induction items generalizing s with
  | nil => exact .pure next
  | cons item items ih =>
    rw [List.foldrM_cons]
    refine (ih fun x hx ↦ hitems x (List.mem_cons_of_mem _ hx)).bind fun start s₁ _ h₁ _ ↦ ?_
    exact hrecur item start s₁ (h₁.kind _ (hitems item List.mem_cons_self))

/-- A sequence: its instructions apart from those of its items need no reason. -/
theorem plans_sequenceCode (he : P s.grammar e) {items : List ExprId}
    (hitems : ∀ x ∈ items, P s.grammar x) : Plans P (sequenceCode recur e items next) s := by
  refine (plans_simplified hP he).bind fun other s₁ hother h₁ _ ↦ .grammar ?_
  split
  · rename_i hterminal
    exact hrecur other next s₁ (kind_of_simplified hP he hother hterminal.2)
  · refine (plans_itemsCode hrecur fun x hx ↦ h₁.kind x (hitems x hx)).bind
      fun start s₂ _ _ _ ↦ .grammar ?_
    generalize (if other = e then none else s₂.grammar.dispatchForm? other) = fast?
    cases fast? with
    | some fast => exact .bind (plans_emit trivial) fun any s₃ _ _ _ ↦ plans_emitEnd trivial
    | none => exact .pure start

omit hP in
/-- Alternatives of the kind. -/
theorem plans_alternativesCode {alts : List ExprId} (halts : ∀ x ∈ alts, P s.grammar x) :
    Plans P (alternativesCode recur e next alts) s := by
  induction alts generalizing s with
  | nil => exact plans_emitEnd trivial
  | cons alt alts ih =>
    have halt := halts alt List.mem_cons_self
    cases alts with
    | nil => exact hrecur alt next s halt
    | cons other alts =>
      refine (ih fun x hx ↦ halts x (List.mem_cons_of_mem _ hx)).bind fun rest s₁ _ h₁ _ ↦ ?_
      refine .bind (plans_emit trivial) fun pop s₂ _ h₂ _ ↦ ?_
      exact (hrecur alt pop s₂ (h₂.kind _ (h₁.kind _ halt))).bind fun body s₃ _ _ _ ↦
        plans_emit trivial

theorem plans_unfactoredCode (he : P s.grammar e) : Plans P (do
      match (← Encoder.grammar).op e with
      | .choice alts => alternativesCode recur e next alts
      | _ => recur e next) s := by
  refine .grammar ?_
  split
  · rename_i alts hop
    exact plans_alternativesCode hrecur fun x hx ↦ hP.child he (by rwa [hop])
  · exact hrecur e next s he

/-- A factored choice, which is of the kind too. -/
theorem plans_factoredCode (he : P s.grammar e) : Plans P (factoredCode recur e next) s := by
  refine .options ?_
  split
  · refine (plans_build (fun _ hQ ↦ Grammar.keeps_factorCommonHead hQ e) fun _ ↦
      hP.factor he).bind fun factored s₁ h h₁ _ ↦ ?_
    obtain ⟨hfactored, rfl⟩ : (Grammar.factorCommonHead e s.grammar).1 = factored ∧
        { s with grammar := (Grammar.factorCommonHead e s.grammar).2 } = s₁ := by
      cases h
      exact ⟨rfl, rfl⟩
    cases factored with
    | some other => exact hrecur other next _ (hP.factored he hfactored)
    | none => exact plans_unfactoredCode hP hrecur (h₁.kind e he)
  · exact plans_unfactoredCode hP hrecur he

theorem plans_entryCode (choice : Nat) {target : Nat} (htarget : P s.grammar target) :
    Plans P (entryCode recur choice next target) s := by
  refine .grammar ?_
  split
  · exact plans_factoredCode hP hrecur htarget
  · exact hrecur target next s htarget

/-- Entries of the kind, those with code left out. -/
theorem plans_entryCodes (choice : Nat) (done : List (ExprId × InstrId)) {table : JumpTable}
    (htable : ∀ target ∈ table, P s.grammar target) :
    Plans P (entryCodes recur choice next done table) s := by
  induction table generalizing s done with
  | nil => exact .pure []
  | cons target table ih =>
    have hrest : ∀ x ∈ table, P s.grammar x := fun x hx ↦ htable x (List.mem_cons_of_mem _ hx)
    unfold entryCodes
    split
    · exact (ih done hrest).bind fun codes s₁ _ _ _ ↦ .pure _
    · refine (plans_entryCode hP hrecur choice (htable target List.mem_cons_self)).bind
        fun code s₁ _ h₁ _ ↦ ?_
      exact (ih _ fun x hx ↦ h₁.kind x (hrest x hx)).bind fun codes s₂ _ _ _ ↦ .pure _

/-- A choice by its byte class, its table or its alternatives. -/
theorem plans_choiceCode (he : P s.grammar e) {alts : List ExprId}
    (halts : ∀ x ∈ alts, P s.grammar x) : Plans P (choiceCode recur e alts next) s := by
  refine (plans_simplified hP he).bind fun other s₁ hother h₁ _ ↦ .grammar ?_
  split
  · rename_i hop
    exact hrecur other next s₁ (kind_of_simplified hP he hother (by rw [hop]; rfl))
  · refine .grammar ?_
    split
    · rename_i table htable
      refine (plans_entryCodes hP hrecur e [] fun target ↦ hP.entry (h₁.kind e he) htable).bind
        fun codes s₂ _ _ _ ↦ plans_emitEnd trivial
    · exact plans_alternativesCode hrecur fun x hx ↦ h₁.kind x (halts x hx)

/-- A loop over a node of the kind. -/
theorem plans_starCode {inner : ExprId} (hinner : P s.grammar inner) (nullable : Bool) :
    Plans P (starCode recur e inner nullable next) s := by
  refine (plans_specializedSet? hP hinner).bind fun set? s₁ _ h₁ _ ↦ ?_
  cases set? with
  | some set => exact plans_emit trivial
  | none =>
    refine .bind (plans_emitEnd trivial) fun skip s₂ _ h₂ _ ↦ ?_
    refine (hrecur inner skip s₂ (h₂.kind _ (h₁.kind _ hinner))).bind fun start s₃ _ _ _ ↦ ?_
    exact (plans_patchNext skip).bind fun _ s₄ _ _ _ ↦ plans_emit trivial

theorem plans_optionalCode {inner : ExprId} (hinner : P s.grammar inner) :
    Plans P (optionalCode recur e inner next) s := by
  have hplain (s₁ : Session) (hinner : P s₁.grammar inner) : Plans P (do
      let pop ← emit .failPop next e
      let body ← recur inner pop
      emit (.failPush next) body e) s₁ :=
    .bind (plans_emit trivial) fun pop s₂ _ h₂ _ ↦
      (hrecur inner pop s₂ (h₂.kind _ hinner)).bind fun body s₃ _ _ _ ↦ plans_emit trivial
  refine .options ?_
  split
  · refine (plans_simplify hP hinner).bind fun other s₁ _ h₁ _ ↦ .grammar ?_
    split
    · exact plans_emit trivial
    · exact plans_emit trivial
    · exact hplain s₁ (h₁.kind _ hinner)
  · exact hplain s hinner

theorem plans_notCode {inner : ExprId} (hinner : P s.grammar inner) :
    Plans P (notCode recur e inner next) s := by
  have hplain (s₁ : Session) (hinner : P s₁.grammar inner) : Plans P (do
      let fail ← emitEnd .fail e
      let pop ← emit .failPop fail e
      let body ← recur inner pop
      emit (.failPush next) body e) s₁ := by
    refine .bind (plans_emitEnd trivial) fun fail s₂ _ h₂ _ ↦ ?_
    refine .bind (plans_emit trivial) fun pop s₃ _ h₃ _ ↦ ?_
    exact (hrecur inner pop s₃ (h₃.kind _ (h₂.kind _ hinner))).bind fun body s₄ _ _ _ ↦
      plans_emit trivial
  refine .options ?_
  split
  · refine (plans_simplify hP hinner).bind fun other s₁ _ h₁ _ ↦ .grammar ?_
    split
    · exact plans_emit trivial
    · exact plans_emit trivial
    · exact hplain s₁ (h₁.kind _ hinner)
  · exact hplain s hinner

omit hP in
theorem plans_blockCode {inner : ExprId} (hinner : P s.grammar inner) :
    Plans P (blockCode recur e inner next) s := by
  refine .bind (plans_emitEnd trivial) fun fail s₁ _ h₁ _ ↦ ?_
  refine .bind (plans_emit trivial) fun failed s₂ _ h₂ _ ↦ ?_
  refine .bind (plans_emit trivial) fun popTable s₃ _ h₃ _ ↦ ?_
  refine .bind (plans_emit trivial) fun pop s₄ _ h₄ _ ↦ ?_
  have h := ((h₁.trans h₂).trans h₃).trans h₄
  refine (hrecur inner pop s₄ (h.kind _ hinner)).bind fun body s₅ _ _ _ ↦ ?_
  exact .bind (plans_emit trivial) fun push s₆ _ _ _ ↦ plans_emit trivial

omit hP in
/-- An operand between two instructions that any node warrants. -/
theorem plans_between {inner : ExprId} (hinner : P s.grammar inner) {closing opening : Opcode}
    (hclosing : s.Warrants P e closing) (hopening : ∀ s : Session, s.Warrants P e opening) :
    Plans P (do
      let done ← emit closing next e
      let body ← recur inner done
      emit opening body e) s :=
  (plans_emit hclosing).bind fun done s₁ _ h₁ _ ↦
    (hrecur inner done s₁ (h₁.kind _ hinner)).bind fun _ s₂ _ _ _ ↦ plans_emit (hopening s₂)

/-! ### References and links -/

omit hP hrecur in
/-- The switch in front of a memoized path is there when the path is made. -/
theorem plans_monitorCode {plain : Encoder InstrId} (hplain : Plans P plain s) :
    Plans P (monitorCode e plain) s := by
  refine .options ?_
  split
  · refine hplain.bind fun start s₁ _ _ _ ↦ ?_
    exact Plans.bind (f := fun i ↦ Pure.pure (some i)) (plans_emit trivial)
      fun i s₂ _ _ _ ↦ .pure (some i)
  · exact .pure none

omit hP hrecur in
theorem isSwitch_of_monitorCode {plain : Encoder InstrId} {switch : InstrId} {s₁ : Session}
    (h : monitorCode e plain s = some (some switch, s₁)) :
    ∃ instr, s₁.code.instrs[switch]? = some instr ∧ instr.op.isSwitch := by
  cases htracing : s.options.tracing with
  | false =>
    rw [monitorCode_of_not_tracing htracing] at h
    cases h
  | true =>
    obtain ⟨start, s₂, i, -, hemit, heq⟩ := exists_of_monitorCode htracing h
    cases heq
    cases hemit
    exact ⟨_, Array.getElem?_push_size, rfl⟩

omit hP hrecur in
/-- The instructions of a memoized path use the slot of the node. -/
theorem plans_memoizedCode {slot : MemoSlot} {child : Option Int} {plain : Encoder InstrId}
    {inside : InstrId → Encoder InstrId} (hslot : s.memo[slot.id]? = some slot)
    (hchild : child.isSome = slot.node) (hof : s.grammar.SlotOf e slot.expr child)
    (hplain : Plans P plain s)
    (hinside : ∀ mid s₁, s.Precedes P s₁ → Plans P (inside mid) s₁) :
    Plans P (memoizedCode e slot child plain inside next) s := by
  refine .planned fun hs ↦ ?_
  refine (plans_monitorCode hplain).bind fun monitor s₁ hmonitor h₁ _ ↦ ?_
  have huses (s₂ : Session) (h₂ : s.Precedes P s₂) :
      s₂.Uses e { memo := slot.id, key := slot.key, monitor } child :=
    hs.uses h₂ ⟨slot, hslot, rfl, hchild, hof⟩
  refine .bind (plans_emit (huses s₁ h₁)) fun memoize s₂ _ h₂ _ ↦ ?_
  refine (hinside memoize s₂ (h₁.trans h₂)).bind fun mid s₃ _ h₃ _ ↦ ?_
  have hs₃ := (h₁.trans h₂).trans h₃
  refine .bind (plans_emitEnd ⟨child, huses s₃ hs₃⟩) fun memoFail s₄ hfail h₄ _ ↦ ?_
  have hrecords : ∃ instr, s₄.code.instrs[memoFail]? = some instr ∧
      instr.op = .memoizeFail { memo := slot.id, key := slot.key, monitor } := by
    cases hfail
    exact ⟨_, Array.getElem?_push_size, rfl⟩
  refine .bind (plans_emit ⟨huses s₄ (hs₃.trans h₄), hrecords⟩) fun lookup s₅ _ h₅ _ ↦ ?_
  cases monitor with
  | none => exact .pure lookup
  | some switch =>
    refine (plans_patchOp rfl fun instr hinstr ↦ ?_).bind fun _ s₆ _ _ _ ↦ .pure switch
    -- what was made as a switch still is one
    obtain ⟨instr₁, hinstr₁, hswitch⟩ := isSwitch_of_monitorCode hmonitor
    obtain ⟨instr₅, hinstr₅, hop⟩ :=
      (((h₂.trans h₃).trans h₄).trans h₅).instrs switch instr₁ hinstr₁
    cases hinstr.symm.trans hinstr₅
    exact hop.elim (fun hop ↦ by rwa [hop]) fun hop ↦ hop.2

omit hP hrecur in
/-- A slot that is issued is that of the expression. -/
theorem slot_of_issue {label : String} {expr : ExprId} {node : Bool} {slot : MemoSlot}
    {s₁ : Session} (hs : s.Planned P) (h : issue label expr node s = some (slot, s₁)) :
    s₁.memo[slot.id]? = some slot ∧ slot.expr = expr ∧ slot.node = node ∧
      s₁.grammar = s.grammar := by
  rcases issue_eq_some h with ⟨rfl, hmem, hexpr, hnode⟩ | ⟨-, rfl, contextSensitive, -, hslot⟩
  · obtain ⟨i, hi⟩ := Array.mem_iff_getElem?.mp hmem
    rw [hs.id_eq i slot hi]
    exact ⟨hi, hexpr, hnode, rfl⟩
  · subst hslot
    exact ⟨Array.getElem?_push_size, rfl, rfl, rfl⟩

/-- The call is made for the reference, and the slot is that of the body of its rule. -/
theorem plans_referenceCode (he : P s.grammar e) {rule : RuleId}
    (hop : s.grammar.op e = .reference rule) : Plans P (referenceCode recur e rule next) s := by
  refine (plans_simplified hP he).bind fun other s₁ hother h₁ _ ↦ .grammar ?_
  split
  · rename_i hterminal
    exact hrecur other next s₁ (kind_of_simplified hP he hother hterminal.2)
  · have hop₁ := (h₁.op_eq (by simp [hop])).trans hop
    have hcall (s₂ : Session) (h₂ : s₁.Precedes P s₂) (mid : InstrId) :
        Plans P (emit (.call rule none) mid e) s₂ :=
      plans_emit ⟨h₂.kind e (h₁.kind e he), (h₂.op_eq (by simp [hop₁])).trans hop₁⟩
    refine .options ?_
    split
    · rename_i body hbody
      split
      · refine .planned fun hs₁ ↦ (plans_issue _ _ false).bind fun slot s₂ hissue h₂ _ ↦ ?_
        obtain ⟨hslot, hexpr, hnode, hsame⟩ := slot_of_issue hs₁ hissue
        refine plans_memoizedCode hslot hnode.symm ?_ (hcall s₂ h₂ next) fun mid s₃ h₃ ↦
          hcall s₃ (h₂.trans h₃) mid
        rw [hsame, hexpr]
        exact .reference hop₁ hbody
      · exact hcall s₁ (.refl s₁) next
    · exact hcall s₁ (.refl s₁) next

omit hP in
/-- The slot is that of the operand, for tree nodes. -/
theorem plans_linkCode {inner : ExprId} {index : Int} (hop : s.grammar.op e = .link inner index)
    (hinner : P s.grammar inner) : Plans P (linkCode recur e inner index next) s := by
  have hnode (s₁ : Session) (hinner : P s₁.grammar inner) :
      Plans P (treeNodeCode recur e inner index next) s₁ :=
    plans_between hrecur hinner trivial fun _ ↦ trivial
  refine .options ?_
  split
  · exact hrecur inner next s hinner
  · split
    · exact hnode s hinner
    · refine .grammar (.planned fun hs ↦ (plans_issue _ _ true).bind fun slot s₁ hissue h₁ _ ↦ ?_)
      obtain ⟨hslot, hexpr, hnode', hsame⟩ := slot_of_issue hs hissue
      refine plans_memoizedCode hslot hnode'.symm ?_ (hnode s₁ (h₁.kind _ hinner))
        fun mid s₂ h₂ ↦ hrecur inner mid s₂ (h₂.kind _ (h₁.kind _ hinner))
      rw [hsame, hexpr]
      exact .link hop

/-! ### All nodes -/

/-- One node of the kind, if others are encoded as planned. -/
theorem plans_nodeCode (he : P s.grammar e) : Plans P (nodeCode recur e next) s := by
  have hchild (x : ExprId) (hx : x ∈ (s.grammar.op e).children) : P s.grammar x := hP.child he hx
  refine .options (.grammar ?_)
  cases hop : s.grammar.op e with rw [hop] at hchild
  | empty => exact .pure next
  | fail => exact plans_emitEnd trivial
  | anyByte | byte _ | byteClass _ | defIndent | isIndent => exact plans_emit trivial
  | sequence items => exact plans_sequenceCode hP hrecur he hchild
  | choice alts => exact plans_choiceCode hP hrecur he hchild
  | star inner nullable =>
    exact plans_starCode hP hrecur (hchild inner (List.mem_singleton_self _)) nullable
  | plus inner nullable =>
    have hinner := hchild inner (List.mem_singleton_self _)
    exact (plans_starCode hP hrecur hinner nullable).bind fun rest s₁ _ h₁ _ ↦
      hrecur inner rest s₁ (h₁.kind _ hinner)
  | optional inner => exact plans_optionalCode hP hrecur (hchild inner (List.mem_singleton_self _))
  | and inner | defSymbol _ inner | isSymbol _ inner _ =>
    exact plans_between hrecur (hchild inner (List.mem_singleton_self _)) trivial fun _ ↦ trivial
  | not inner => exact plans_notCode hP hrecur (hchild inner (List.mem_singleton_self _))
  | reference rule => exact plans_referenceCode hP hrecur he hop
  | construct body left =>
    dsimp only
    split
    · refine .bind (plans_emit trivial) fun capture s₁ _ h₁ _ ↦ ?_
      refine (plans_sequenceCode hP hrecur (h₁.kind e he) fun x hx ↦
        h₁.kind x (hchild x hx)).bind fun start s₂ _ _ _ ↦ plans_emit trivial
    · exact plans_sequenceCode hP hrecur he hchild
  | mark m =>
    dsimp only
    split
    · exact plans_emit trivial
    · exact .pure next
  | link inner index =>
    exact plans_linkCode hrecur hop (hchild inner (List.mem_singleton_self _))
  | block inner => exact plans_blockCode hrecur (hchild inner (List.mem_singleton_self _))

omit hrecur in
/-- Encoding a node of the kind makes only what is warranted. -/
theorem plans_encode (depth : Nat) (e : ExprId) (next : InstrId) (s : Session)
    (he : P s.grammar e) : Plans P (encode depth e next) s := by
  induction depth generalizing e next s with
  | zero => exact fun _ _ _ h ↦ (nomatch h)
  | succ depth ih => exact plans_nodeCode hP (fun e next s he ↦ ih e next s he) he

end

end Encoder

/-! ### Rules -/

namespace Session

variable {P : Grammar → ExprId → Prop} {s s' : Session} {rules : List RuleId}

theorem planned_start (P : Grammar → ExprId → Prop) (depth : Nat) (g : Grammar) (o : Options) :
    (start depth g o).Planned P where
  id_eq i slot hslot := by simp [start] at hslot
  unique slot hslot := by simp [start] at hslot
  asked slot hslot := by simp [start] at hslot
  warranted i instr hinstr := by simp [start] at hinstr

variable (hP : Grammar.Hereditary P)
include hP

/-- A rule whose body is of the kind is compiled as planned. -/
theorem Planned.compileRule (hs : s.Planned P) {rule : RuleId}
    (hbody : ∀ body, s.grammar.body? rule = some body → P s.grammar body)
    (h : s.compileRule rule = some (.ok s')) : s.Precedes P s' ∧ s'.Planned P := by
  rcases exists_of_compileRule h with ⟨-, rfl⟩ | ⟨-, body, u, hsome, hrule⟩
  · exact ⟨.refl _, hs⟩
  · obtain ⟨ret, s₁, head, s₂, hret, hhead, rfl⟩ := exists_of_encodeRule hrule
    have hplans : Encoder.Plans P (Encoder.emitEnd .ret body) s := Encoder.plans_emitEnd trivial
    obtain ⟨h₁, hs₁⟩ := hplans hs ret s₁ hret
    obtain ⟨h₂, hs₂⟩ := Encoder.plans_encode hP _ body ret s₁ (h₁.kind _ (hbody body hsome)) hs₁
      head s₂ hhead
    -- placing the code of the rule changes no instruction
    exact ⟨⟨(h₁.trans h₂).intact, (h₁.trans h₂).kind, (h₁.trans h₂).memo, (h₁.trans h₂).instrs⟩,
      ⟨hs₂.id_eq, hs₂.unique, hs₂.asked, hs₂.warranted⟩⟩

/-- Rules are compiled as planned, to the end or to the first that has no body. -/
theorem Planned.compileRules (hs : s.Planned P)
    (hbodies : ∀ rule ∈ rules, ∀ body, s.grammar.body? rule = some body → P s.grammar body)
    {error : Option CompileError} (h : s.compileRules rules = some (error, s')) :
    s.Precedes P s' ∧ s'.Planned P ∧ ∀ e ∈ error, ∃ rule ∈ rules,
      s.grammar.body? rule = none ∧ e = .undefinedRule (s.grammar.ruleName rule) := by
  induction rules generalizing s with
  | nil =>
    cases h
    exact ⟨.refl _, hs, fun e he ↦ nomatch he⟩
  | cons rule rules ih =>
    unfold Session.compileRules at h
    split at h
    · cases h
    · rename_i e hrule
      cases h
      refine ⟨.refl _, hs, fun e' he' ↦ ⟨rule, List.mem_cons_self, ?_⟩⟩
      cases he'
      unfold Session.compileRule at hrule
      split at hrule
      · cases hrule
      · split at hrule
        · rename_i hnone
          cases hrule
          exact ⟨hnone, rfl⟩
        · obtain ⟨_, -, heq⟩ := Option.map_eq_some_iff.mp hrule
          cases heq
    · rename_i s₁ hrule
      obtain ⟨h₁, hs₁⟩ := hs.compileRule hP (hbodies rule List.mem_cons_self) hrule
      have hbody? := h₁.intact.toExtends.body?_eq
      obtain ⟨h₂, hs₂, hundefined⟩ := ih hs₁ (fun other hother body hbody ↦ by
        rw [hbody?] at hbody
        exact h₁.kind _ (hbodies other (List.mem_cons_of_mem _ hother) body hbody)) h
      refine ⟨h₁.trans h₂, hs₂, fun e he ↦ ?_⟩
      obtain ⟨other, hother, hnone, heq⟩ := hundefined e he
      rw [h₁.intact.ruleName_eq] at heq
      exact ⟨other, List.mem_cons_of_mem _ hother, (hbody? other).symm.trans hnone, heq⟩

end Session

end ParsingMachine
