import ParsingMachine.Proofs.Compile.Emission
import ParsingMachine.Proofs.Compile.WellLinked

/-!
# Memo slots are planned consistently

Slots are issued while code is made, in an order that depends on the options, and what belongs to a
slot is copied into several instructions for each reference. In a finished program all of these
agree (`Program.MemoPlanned`): an instruction has the key of its slot and holds a tree node if the
slot does, a lookup falls back on the record of failures of the same slot, and references and links
share a slot exactly when they resolve to one node.

What the results of a slot depend on is asked when it is issued, and the grammar may grow
afterwards. The answer stays right, since a search that comes to an end has seen all that will ever
be reached.

The invariant of the session is that of planned sessions (`Session.Planned`), which encoding keeps:
a slot serves its expression and there is one for each expression and kind, and a memo instruction
uses the slot that belongs to the node for which it was made. That references share a slot exactly
when they resolve to one node is a consequence, for a slot is found by its expression and the
expression is what the body resolves to.

Finishing moves instructions and what they refer to, but neither slots nor nodes. So what is
recorded in the session holds of the program, once it is known from which instruction of the arena
an instruction comes.

The switch in front of a memoized path is no part of this. Where it leads is a matter of linking.

## Main statements

* `Program.MemoPlanned`: what it means that memo instructions agree with each other, with the slots
  and with the grammar.
* `Session.Planned.key_eq_state_iff`: a slot is keyed by the parse state exactly if a query of it
  can be reached.
* `Session.Planned.memo_eq_iff`: when two uses are of one slot.
* `Session.Laid.memoPlanned`: what was planned is what the finished program does.
* `memoPlanned_of_compile`: for all grammars, rules and options.
-/

namespace ParsingMachine

open Machine

/-! ### Programs -/

/-- The slot and the index of the tree node, if any, for which an operation looks up or records a
result. -/
def Opcode.entry? : Opcode → Option (MemoUse × Option Int)
  | lookup use child _ _ | memoize use child => some (use, child)
  | _ => none

namespace Program

/-- An instruction made for a node looks up or records results in a slot. -/
def Memoizes (p : Program) (e : ExprId) (use : MemoUse) (child : Option Int) : Prop :=
  ∃ (i : InstrId) (instr : Instruction), p.code[i]? = some instr ∧ instr.origin = e ∧
    instr.op.entry? = some (use, child)

/-- The memo instructions of a program agree with each other, with the slots and with the
grammar. -/
structure MemoPlanned (p : Program) (k : Grammar) : Prop where
  /-- Slots are numbered. -/
  id_eq : ∀ (i : MemoId) slot, p.memoSlots[i]? = some slot → slot.id = i
  /-- An expression has one slot for plain results and one for tree nodes. -/
  unique : ∀ (i j : MemoId) slot other, p.memoSlots[i]? = some slot → p.memoSlots[j]? = some other →
    slot.expr = other.expr → slot.node = other.node → i = j
  /-- Entries depend on the parse state exactly if a query of it can be reached. -/
  key_eq_state_iff : ∀ slot ∈ p.memoSlots,
    slot.key = .state ↔ ∃ x, k.Reach slot.expr x ∧ (k.op x).isStateQuery
  /-- Memo instructions have the key of their slot. -/
  key_eq : ∀ (i : InstrId) instr use, p.code[i]? = some instr → instr.op.memoUse? = some use →
    ∃ slot, p.memoSlots[use.memo]? = some slot ∧ use.key = slot.key
  /-- Plain results are kept in plain slots and tree nodes in slots for these, each for the
  expression to which the reference or the link resolves. -/
  slotOf : ∀ e use child, p.Memoizes e use child → ∃ slot, p.memoSlots[use.memo]? = some slot ∧
    child.isSome = slot.node ∧ k.SlotOf e slot.expr child
  /-- A lookup falls back on the record of failures of the same slot. -/
  onMemoFail : ∀ (i : InstrId) instr use child onHit onMemoFail, p.code[i]? = some instr →
    instr.op = .lookup use child onHit onMemoFail →
    ∃ fail, p.code[onMemoFail]? = some fail ∧ fail.op = .memoizeFail use
  /-- References share a slot exactly if the bodies of their rules resolve to one node. -/
  reference_iff : ∀ e e' use use' rule rule' body body', p.Memoizes e use none →
    p.Memoizes e' use' none → k.op e = .reference rule → k.op e' = .reference rule' →
    k.body? rule = some body → k.body? rule' = some body' →
    (use.memo = use'.memo ↔ k.resolve body = k.resolve body')
  /-- Links share a slot exactly if their operands resolve to one node. -/
  link_iff : ∀ e e' use use' inner inner' index index', p.Memoizes e use (some index) →
    p.Memoizes e' use' (some index') → k.op e = .link inner index → k.op e' = .link inner' index' →
    (use.memo = use'.memo ↔ k.resolve inner = k.resolve inner')

end Program

/-! ### Sessions -/

namespace Session

variable {P : Grammar → ExprId → Prop} {s : Session} {e e' : ExprId} {use use' : MemoUse}
  {child child' : Option Int}

/-- A slot is keyed by the parse state exactly if a query of it can be reached. -/
theorem Planned.key_eq_state_iff (hs : s.Planned P) {slot : MemoSlot} (hslot : slot ∈ s.memo) :
    slot.key = .state ↔ ∃ x, s.grammar.Reach slot.expr x ∧ (s.grammar.op x).isStateQuery := by
  obtain ⟨h, hext, hfind⟩ := hs.asked slot hslot
  rw [← Grammar.iff_of_find?_eq_some (fun _ ↦ rfl) (List.forall_mem_nil _) hfind hext, MemoSlot.key]
  cases slot.contextSensitive with
  | true => exact iff_of_true rfl rfl
  | false => exact iff_of_false MemoKey.noConfusion Bool.false_ne_true

/-- Uses of the same kind are of one slot exactly if they are for one expression. -/
theorem Planned.memo_eq_iff (hs : s.Planned P) {slot slot' : MemoSlot}
    (hslot : s.memo[use.memo]? = some slot) (hslot' : s.memo[use'.memo]? = some slot')
    (hnode : slot.node = slot'.node) : use.memo = use'.memo ↔ slot.expr = slot'.expr := by
  constructor
  · intro heq
    rw [heq] at hslot
    rw [Option.some.inj (hslot.symm.trans hslot')]
  · intro heq
    have hsame := hs.unique slot (Array.mem_of_getElem? hslot) slot' (Array.mem_of_getElem? hslot')
      heq hnode
    rw [← hs.id_eq _ slot hslot, ← hs.id_eq _ slot' hslot', hsame]

/-- References share a slot exactly if the bodies of their rules resolve to one node. -/
theorem Planned.reference_iff (hs : s.Planned P) (huse : s.Uses e use none)
    (huse' : s.Uses e' use' none) {rule rule' : RuleId} {body body' : ExprId}
    (hop : s.grammar.op e = .reference rule) (hop' : s.grammar.op e' = .reference rule')
    (hbody : s.grammar.body? rule = some body) (hbody' : s.grammar.body? rule' = some body') :
    use.memo = use'.memo ↔ s.grammar.resolve body = s.grammar.resolve body' := by
  obtain ⟨slot, hslot, -, hnode, hof⟩ := huse
  obtain ⟨slot', hslot', -, hnode', hof'⟩ := huse'
  rw [hs.memo_eq_iff hslot hslot' (hnode.symm.trans hnode')]
  generalize slot.expr = expr, slot'.expr = expr' at hof hof'
  cases hof with
  | reference hop₁ hbody₁ =>
    cases hof' with
    | reference hop₁' hbody₁' =>
      cases hop.symm.trans hop₁
      cases hop'.symm.trans hop₁'
      cases hbody.symm.trans hbody₁
      cases hbody'.symm.trans hbody₁'
      exact Iff.rfl

theorem Planned.link_iff (hs : s.Planned P) {index index' : Int}
    (huse : s.Uses e use (some index)) (huse' : s.Uses e' use' (some index'))
    {inner inner' : ExprId} (hop : s.grammar.op e = .link inner index)
    (hop' : s.grammar.op e' = .link inner' index') :
    use.memo = use'.memo ↔ s.grammar.resolve inner = s.grammar.resolve inner' := by
  obtain ⟨slot, hslot, -, hnode, hof⟩ := huse
  obtain ⟨slot', hslot', -, hnode', hof'⟩ := huse'
  rw [hs.memo_eq_iff hslot hslot' (hnode.symm.trans hnode')]
  generalize slot.expr = expr, slot'.expr = expr' at hof hof'
  cases hof with
  | link hop₁ =>
    cases hof' with
    | link hop₁' =>
      cases hop.symm.trans hop₁
      cases hop'.symm.trans hop₁'
      exact Iff.rfl

/-- A memo instruction uses the slot of the node for which it is made. -/
theorem Planned.exists_uses (hs : s.Planned P) {i : InstrId} {instr : Instruction}
    (hinstr : s.code.instrs[i]? = some instr) (huse : instr.op.memoUse? = some use) :
    ∃ child, s.Uses instr.origin use child := by
  have hwarranted := hs.warranted i instr hinstr
  generalize instr.op = op at huse hwarranted
  cases op with
  | lookup use' child _ _ =>
    cases huse
    exact ⟨child, hwarranted.1⟩
  | memoize use' child =>
    cases huse
    exact ⟨child, hwarranted⟩
  | memoizeFail use' =>
    cases huse
    exact hwarranted
  | _ => cases huse

theorem Planned.uses_of_entry? (hs : s.Planned P) {i : InstrId} {instr : Instruction}
    (hinstr : s.code.instrs[i]? = some instr) (huse : instr.op.entry? = some (use, child)) :
    s.Uses instr.origin use child := by
  have hwarranted := hs.warranted i instr hinstr
  generalize instr.op = op at huse hwarranted
  cases op with
  | lookup use' child' _ _ =>
    cases huse
    exact hwarranted.1
  | memoize use' child' =>
    cases huse
    exact hwarranted
  | _ => cases huse

/-! ### Finished programs -/

variable {Γ : InstrId → Context} {p : Program} {instr instr' : Instruction}

/-- Where instructions stand makes no difference to the slots that they use. -/
theorem Moves.memoUse?_eq (h : s.Moves instr instr') :
    instr'.op.memoUse? = instr.op.memoUse?.map (movedUse s.moved) := by
  rw [h.op_eq]
  cases instr.op <;> rfl

theorem Moves.entry?_eq (h : s.Moves instr instr') :
    instr'.op.entry? = instr.op.entry?.map fun (use, child) ↦ (movedUse s.moved use, child) := by
  rw [h.op_eq]
  cases instr.op <;> rfl

/-- A lookup was made as a lookup. -/
theorem Moves.exists_lookup (h : s.Moves instr instr') {onHit onMemoFail : InstrId}
    (hop : instr'.op = .lookup use child onHit onMemoFail) : ∃ use₀ onHit₀ onMemoFail₀,
      instr.op = .lookup use₀ child onHit₀ onMemoFail₀ ∧ use = movedUse s.moved use₀ ∧
        onMemoFail = s.moved onMemoFail₀ := by
  have hop₀ := h.op_eq.symm.trans hop
  cases hinstr : instr.op with rw [hinstr] at hop₀
  | lookup use₀ child₀ onHit₀ onMemoFail₀ =>
    cases hop₀
    exact ⟨use₀, onHit₀, onMemoFail₀, rfl, rfl, rfl⟩
  | _ => cases hop₀

/-- The results that a program looks up or records are kept as planned. -/
theorem Laid.exists_uses (hs : s.Laid Γ) (hplanned : s.Planned P) (hp : s.finish = .ok p)
    (h : p.Memoizes e use child) :
    ∃ use₀, use = movedUse s.moved use₀ ∧ s.Uses e use₀ child := by
  obtain ⟨n, instr', hinstr', rfl, huse⟩ := h
  obtain ⟨i, instr, -, hinstr, hmoves⟩ := hs.exists_placed hp hinstr'
  rw [hmoves.entry?_eq] at huse
  obtain ⟨⟨use₀, child₀⟩, huse₀, heq⟩ := Option.map_eq_some_iff.mp huse
  cases heq
  rw [hmoves.origin_eq]
  exact ⟨use₀, rfl, hplanned.uses_of_entry? hinstr huse₀⟩

/-- What was planned is what the finished program does. -/
theorem Laid.memoPlanned (hs : s.Laid Γ) (hplanned : s.Planned P) (hp : s.finish = .ok p) :
    p.MemoPlanned s.grammar := by
  obtain ⟨-, -, -, -, hmemo⟩ := finish_eq_ok hp
  constructor
  case id_eq =>
    rw [hmemo]
    exact hplanned.id_eq
  case unique =>
    intro i j slot other hslot hother hexpr hnode
    rw [hmemo] at hslot hother
    have hsame := hplanned.unique slot (Array.mem_of_getElem? hslot) other
      (Array.mem_of_getElem? hother) hexpr hnode
    rw [← hplanned.id_eq i slot hslot, ← hplanned.id_eq j other hother, hsame]
  case key_eq_state_iff =>
    rw [hmemo]
    exact fun slot ↦ hplanned.key_eq_state_iff
  case key_eq =>
    intro n instr' use hinstr' huse
    obtain ⟨i, instr, -, hinstr, hmoves⟩ := hs.exists_placed hp hinstr'
    rw [hmoves.memoUse?_eq] at huse
    obtain ⟨use₀, huse₀, rfl⟩ := Option.map_eq_some_iff.mp huse
    obtain ⟨child, slot, hslot, hkey, -⟩ := hplanned.exists_uses hinstr huse₀
    rw [hmemo]
    exact ⟨slot, hslot, hkey⟩
  case slotOf =>
    intro e use child h
    obtain ⟨use₀, rfl, slot, hslot, -, hnode, hof⟩ := hs.exists_uses hplanned hp h
    rw [hmemo]
    exact ⟨slot, hslot, hnode, hof⟩
  case onMemoFail =>
    intro n instr' use child onHit onMemoFail hinstr' hop
    obtain ⟨i, instr, hn, hinstr, hmoves⟩ := hs.exists_placed hp hinstr'
    obtain ⟨use₀, onHit₀, onMemoFail₀, hop₀, rfl, rfl⟩ := hmoves.exists_lookup hop
    have hwarranted := hplanned.warranted i instr hinstr
    rw [hop₀] at hwarranted
    obtain ⟨-, fail, hfail, hfail_op⟩ := hwarranted
    -- what a lookup falls back on is placed with it
    have hmem : onMemoFail₀ ∈ instr.successors := by
      refine List.mem_append_right _ ?_
      rw [hop₀]
      exact List.mem_cons_of_mem _ (List.mem_singleton_self _)
    obtain ⟨m, hm⟩ := Array.mem_iff_getElem?.mp
      (hs.mem_order (Array.mem_of_getElem? hn) hinstr hmem)
    obtain ⟨fail', hfail', hmoves'⟩ := (hs.fetch hp).2 m onMemoFail₀ fail hm hfail
    rw [hs.moved_eq hm]
    refine ⟨fail', hfail', ?_⟩
    rw [hmoves'.op_eq, hfail_op]
    rfl
  case reference_iff =>
    intro e e' use use' rule rule' body body' h h' hop hop' hbody hbody'
    obtain ⟨use₀, rfl, huse⟩ := hs.exists_uses hplanned hp h
    obtain ⟨use₀', rfl, huse'⟩ := hs.exists_uses hplanned hp h'
    exact hplanned.reference_iff huse huse' hop hop' hbody hbody'
  case link_iff =>
    intro e e' use use' inner inner' index index' h h' hop hop'
    obtain ⟨use₀, rfl, huse⟩ := hs.exists_uses hplanned hp h
    obtain ⟨use₀', rfl, huse'⟩ := hs.exists_uses hplanned hp h'
    exact hplanned.link_iff huse huse' hop hop'

end Session

/-- Whatever is compiled, the memo slots of the program are planned consistently for the grammar
that compiling leaves, in which all that was there before is unchanged. -/
theorem memoPlanned_of_compile {g k : Grammar} (hg : g.FullTables) {depth : Nat}
    {rules : List RuleId} {o : Options} {p : Program}
    (hcompile : compileWithin depth g rules o = some (.ok p, k)) :
    g.IntactIn k ∧ p.MemoPlanned k := by
  obtain ⟨e, s, hrules, rfl, hok⟩ := Grammar.exists_session hcompile
  obtain ⟨rfl, hfinish⟩ := hok p rfl
  obtain ⟨hprecedes, hplanned, -⟩ := (Session.planned_start _ depth g o).compileRules
    Grammar.hereditary_true (fun _ _ _ _ ↦ trivial) hrules
  obtain ⟨Γ, hlaid, -, -⟩ :=
    (Session.laid_start hg depth o fun _ ↦ []).compileRules List.eraseDups_nil.symm hrules
  exact ⟨hprecedes.intact, hlaid.memoPlanned hplanned hfinish⟩

/-- `S = :0(D) :1(E) D E`, where `E = D` and `D` asks for a symbol. Both links share a slot, and so
do both references. -/
def sharedSlots : Grammar where
  nodes := #[⟨.byte 97, .synthetic⟩, ⟨.isSymbol "t" 0 true, .synthetic⟩, ⟨.reference 1, .synthetic⟩,
    ⟨.reference 2, .synthetic⟩, ⟨.link 2 0, .synthetic⟩, ⟨.link 3 1, .synthetic⟩,
    ⟨.sequence [4, 5, 2, 3], .synthetic⟩]
  rules := #[{ name := "S", body := some 6 }, { name := "D", body := some 1 },
    { name := "E", body := some 2 }]

/-- Slots that are shared by links and slots that are shared by references, with trees and a
trace. -/
theorem memoPlanned_of_compile_sharedSlots : ∃ p k,
    compileWithin 20 sharedSlots [0, 1, 2] { packrat := true, ast := true, tracing := true } =
      some (.ok p, k) ∧
    (p.memoSlots.map fun slot ↦ (slot.expr, slot.node, slot.key)) =
      #[(1, false, .state), (1, true, .state)] ∧
    sharedSlots.IntactIn k ∧ p.MemoPlanned k := by
  obtain ⟨p, k, hcompile, htest⟩ := Grammar.exists_program 20 sharedSlots [0, 1, 2]
    { packrat := true, ast := true, tracing := true }
    (fun p ↦ decide ((p.memoSlots.map fun slot ↦ (slot.expr, slot.node, slot.key)) =
      #[(1, false, .state), (1, true, .state)])) (by decide +kernel)
  exact ⟨p, k, hcompile, of_decide_eq_true htest,
    memoPlanned_of_compile (Grammar.fullTables_of_tables_empty rfl) hcompile⟩

end ParsingMachine
