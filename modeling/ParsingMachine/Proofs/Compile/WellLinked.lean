import ParsingMachine.Proofs.Compile.Correctness
import ParsingMachine.Proofs.Compile.Placement

/-!
# Compiled programs are well linked

Renumbering carries over whatever reference it finds a place for, so a finished program is right
only if all that its instructions name has been placed. It has: the blocks of the rules make up the
program one after the other, an instruction names instructions of its own block, and calls go to the
heads of blocks (`Program.WellLinked`).

The branches and fallthroughs are placed with what leads to them. That the switch of a memo
instruction is placed too is seen on the brackets: a memoized path is open between the two, so the
search has come through the switch.

The invariant is that of sessions whose code is laid out in blocks (`Session.Laid`). It says of the
arena that brackets fit together, of what is placed that it is closed under what instructions lead
to, and of each block that it is a stretch of the order. When the session is finished, an
instruction of the program is an instruction of the arena with its references moved to their places,
and a block is an interval of places. So each part of being well linked is an old fact, read at the
new places.

A fallthrough goes to the next place or back because of the search that places instructions, which
goes on with the fallthrough first. The table of an instruction has its length from the grammar;
that is the only thing that is asked of it, as tables are otherwise taken as they are.

The program may have been compiled with any options, from any rules in any order with repetitions.

## Main statements

* `Grammar.FullTables.exists_laid`: what compiling leaves is the program of a session laid out in
  blocks.
* `Session.Laid.tiles_of_finish`: the blocks make up the program.
* `Session.Laid.wellLinked`: a finished program is well linked.
* `wellLinked_of_compile`: every compiled program is.
-/

namespace ParsingMachine

open Machine

/-- The code of a program is in order, and all references in it go where they should. -/
structure Program.WellLinked (p : Program) (rules : List RuleId) (tracing : Bool) : Prop where
  /-- The blocks follow the first occurrences of the rules. -/
  rules_eq : p.blocks.toList.map Block.rule = rules.eraseDups
  /-- No block is empty. -/
  start_lt : ∀ block ∈ p.blocks, block.start < block.stop
  /-- The blocks make up the program, one after the other. -/
  tiles : (p.blocks.toList.flatMap fun block ↦
    List.range' block.start (block.stop - block.start)) = List.range p.size
  /-- Blocks start with their heads. -/
  head_eq : ∀ block ∈ p.blocks, block.head = block.start
  /-- The program starts with its entry. -/
  entry_eq : p.entry = 0
  /-- The fallthrough of an instruction is in its block. -/
  next_within : ∀ block ∈ p.blocks, ∀ (i : InstrId) instr, block.start ≤ i → i < block.stop →
    p.code[i]? = some instr → ∀ j ∈ instr.next, block.start ≤ j ∧ j < block.stop
  /-- What the operands of an instruction name, a call apart, is in its block. -/
  references_within : ∀ block ∈ p.blocks, ∀ (i : InstrId) instr, block.start ≤ i → i < block.stop →
    p.code[i]? = some instr → (∀ rule target, instr.op ≠ .call rule target) →
    ∀ j ∈ instr.op.references, block.start ≤ j ∧ j < block.stop
  /-- A call goes to the head of the block of its rule. -/
  call_eq : ∀ (i : InstrId) instr rule target, p.code[i]? = some instr →
    instr.op = .call rule target → ∃ block, p.block? rule = some block ∧ target = some block.head
  /-- Only what always jumps, fails or returns has no fallthrough. -/
  next_eq_none_iff : ∀ (i : InstrId) instr, p.code[i]? = some instr →
    (instr.next = none ↔ instr.op.isFinal)
  /-- A fallthrough goes to the next place or back. -/
  follows : ∀ (i : InstrId) instr j, p.code[i]? = some instr → instr.next = some j →
    j = i + 1 ∨ j ≤ i
  /-- Jump tables are complete. -/
  length_table : ∀ (i : InstrId) instr table, p.code[i]? = some instr → instr.op = .dispatch table →
    table.length = slotCount
  /-- Memo instructions have switches when these are made. -/
  monitor_isSome : ∀ (i : InstrId) instr use, p.code[i]? = some instr →
    instr.op.memoUse? = some use → use.monitor.isSome = tracing
  /-- The switch of a memo instruction leads to a lookup of the same slot. -/
  monitored : ∀ (i : InstrId) instr use, p.code[i]? = some instr → instr.op.memoUse? = some use →
    ∀ m ∈ use.monitor, ∃ switch activated lookup child onHit onMemoFail, p.code[m]? = some switch ∧
      switch.op = .monitoredSwitch activated ∧ p.code[activated]? = some lookup ∧
      lookup.op = .lookup use child onHit onMemoFail

/-- What compiling leaves is the program of a session whose code is laid out in blocks. -/
theorem Grammar.FullTables.exists_laid {g k : Grammar} (hg : g.FullTables) {depth : Nat}
    {rules : List RuleId} {o : Options} {p : Program}
    (hcompile : compileWithin depth g rules o = some (.ok p, k)) :
    ∃ s Γ, Session.Laid s Γ ∧ s.finish = .ok p ∧ s.options = o ∧
      s.blocks.toList.map Block.rule = rules.eraseDups := by
  obtain ⟨e, s, hrules, -, hok⟩ := Grammar.exists_session hcompile
  obtain ⟨rfl, hfinish⟩ := hok p rfl
  obtain ⟨Γ, hlaid, hoptions, hblocks⟩ :=
    (Session.laid_start hg depth o fun _ ↦ []).compileRules List.eraseDups_nil.symm hrules
  exact ⟨s, Γ, hlaid, hfinish, hoptions, hblocks⟩

namespace Session

variable {s : Session} {Γ : InstrId → Context} {p : Program}

/-- The blocks make up the program, one after the other. -/
theorem Laid.tiles_of_finish (hs : s.Laid Γ) (hp : s.finish = .ok p) :
    (p.blocks.toList.flatMap fun block ↦
      List.range' block.start (block.stop - block.start)) = List.range p.size := by
  rw [(blocks_of_finish hp).1, (hs.fetch hp).1, ← hs.tiles, Array.toList_map, List.flatMap_map]

/-- Every instruction is in a block. -/
theorem Laid.exists_block_of_lt (hs : s.Laid Γ) (hp : s.finish = .ok p) (i : Nat)
    (hi : i < p.size) : ∃ block ∈ p.blocks, block.start ≤ i ∧ i < block.stop := by
  rw [← List.mem_range, ← hs.tiles_of_finish hp, List.mem_flatMap] at hi
  obtain ⟨block, hblock, hi⟩ := hi
  rw [List.mem_range'_1] at hi
  exact ⟨block, Array.mem_toList_iff.mp hblock, hi.1, by omega⟩

/-- The first block starts the program. -/
theorem Laid.start_first (hs : s.Laid Γ) {block : Block} (hblock : s.blocks[0]? = some block) :
    block.start = 0 := by
  have hlt := (hs.stretch block (Array.mem_of_getElem? hblock)).start_lt
  have htiles := hs.tiles
  rw [← Array.getElem?_toList] at hblock
  obtain ⟨rest, hblocks⟩ : ∃ rest, s.blocks.toList = block :: rest := by
    cases hblocks : s.blocks.toList with rw [hblocks] at hblock
    | nil => cases hblock
    | cons first rest =>
      cases hblock
      exact ⟨rest, rfl⟩
  have hsome : 0 < block.stop - block.start := Nat.sub_pos_of_lt hlt
  have hhead := congrArg List.head? htiles
  rw [hblocks, List.flatMap_cons, List.head?_append, List.head?_range', List.head?_range,
    if_neg (by omega)] at hhead
  split at hhead
  · cases hhead
  · exact Option.some.inj hhead

/-- The block of a rule in the finished program. -/
theorem block?_of_finish (hp : s.finish = .ok p) {rule : RuleId} {block : Block}
    (hblock : s.block? rule = some block) :
    p.block? rule = some { block with head := s.moved block.head } := by
  rw [Program.block?, (blocks_of_finish hp).1, Array.find?_map]
  exact congrArg _ hblock

/-- An instruction leads to instructions of its block, unless it is a call. -/
theorem Laid.successors_within (hs : s.Laid Γ) (hp : s.finish = .ok p) {block : Block}
    (hblock : block ∈ p.blocks) {i : Nat} {instr : Instruction} (hstart : block.start ≤ i)
    (hstop : i < block.stop) (hinstr : p.code[i]? = some instr) :
    (∀ j ∈ instr.next, block.start ≤ j ∧ j < block.stop) ∧
      ((∀ rule target, instr.op ≠ .call rule target) →
        ∀ j ∈ instr.op.branches, block.start ≤ j ∧ j < block.stop) := by
  obtain ⟨old, hold, rfl⟩ := exists_block hp hblock
  obtain ⟨x, instr₀, hx, hinstr₀, hmoves⟩ := hs.exists_placed hp hinstr
  have hwithin (y : InstrId) (hy : y ∈ instr₀.successors) :
      old.start ≤ s.moved y ∧ s.moved y < old.stop := by
    refine hs.moved_within ((hs.stretch old hold).closed x ⟨i, hstart, hstop, hx⟩ y ?_)
    rwa [Code.successors, hinstr₀]
  refine ⟨fun j hj ↦ ?_, fun hcall j hj ↦ ?_⟩
  · rw [hmoves.next_eq] at hj
    obtain ⟨y, hy, rfl⟩ := Option.map_eq_some_iff.mp (Option.mem_def.mp hj)
    exact hwithin y (List.mem_append_left _ (Option.mem_toList.mpr hy))
  · have hop (rule : RuleId) (target : Option InstrId) : instr₀.op ≠ .call rule target := by
      intro hop
      refine hcall rule ((s.head? rule).map s.moved) ?_
      rw [hmoves.op_eq, hop]
      rfl
    rw [hmoves.op_eq, branches_moved hop] at hj
    obtain ⟨y, hy, rfl⟩ := List.mem_map.mp hj
    exact hwithin y (List.mem_append_right _ hy)

/-- A fallthrough goes to the next place or back. -/
theorem Laid.follows_of_finish (hs : s.Laid Γ) (hp : s.finish = .ok p) {i : Nat}
    {instr : Instruction} (hinstr : p.code[i]? = some instr) {j : Nat} (hj : instr.next = some j) :
    j = i + 1 ∨ j ≤ i := by
  obtain ⟨block, hblock, hstart, hstop⟩ :=
    hs.exists_block_of_lt hp i (Array.getElem?_eq_some_iff.mp hinstr).1
  obtain ⟨old, hold, rfl⟩ := exists_block hp hblock
  obtain ⟨x, instr₀, hx, hinstr₀, hmoves⟩ := hs.exists_placed hp hinstr
  rw [hmoves.next_eq] at hj
  obtain ⟨y, hy, rfl⟩ := Option.map_eq_some_iff.mp hj
  obtain ⟨k, hk, hget⟩ := (hs.stretch old hold).follows i hstart hstop x instr₀ y hx hinstr₀ hy
  rw [hs.moved_eq hget]
  omega

/-- A call goes to the head of the block of its rule. -/
theorem Laid.call_of_finish (hs : s.Laid Γ) (hp : s.finish = .ok p) {i : Nat}
    {instr : Instruction} (hinstr : p.code[i]? = some instr) {rule : RuleId}
    {target : Option InstrId} (hop : instr.op = .call rule target) :
    ∃ block, p.block? rule = some block ∧ target = some block.head := by
  have hlinked := (hs.typed_of_finish hp).linked i instr rule hinstr
  obtain ⟨x, instr₀, -, -, hmoves⟩ := hs.exists_placed hp hinstr
  have hop₀ := hmoves.op_eq.symm.trans hop
  cases hinstr₀ : instr₀.op with rw [hinstr₀] at hop₀
  | call rule₀ old =>
    simp only [Opcode.linked, Opcode.mapTargets, Opcode.call.injEq] at hop₀
    obtain ⟨rfl, rfl⟩ := hop₀
    rcases hhead : s.head? rule₀ with - | head
    · rw [hhead] at hop
      exact absurd hop hlinked
    · obtain ⟨block, -, hblock, rfl, -⟩ := hs.head_of_head? hhead
      exact ⟨_, block?_of_finish hp hblock, rfl⟩
  | _ => cases hop₀

/-- A finished program is well linked. -/
theorem Laid.wellLinked (hs : s.Laid Γ) (hp : s.finish = .ok p) {rules : List RuleId}
    (hrules : s.blocks.toList.map Block.rule = rules.eraseDups) :
    p.WellLinked rules s.options.tracing := by
  have htyped := hs.typed_of_finish hp
  have hopened := hs.opened_of_finish hp
  obtain ⟨hblocks, first, hfirst, hentry⟩ := blocks_of_finish hp
  have hmoved_head (block : Block) (hblock : block ∈ s.blocks) :
      s.moved block.head = block.start := hs.moved_eq (hs.stretch block hblock).head
  constructor
  case rules_eq =>
    rw [← hrules, hblocks, Array.toList_map, List.map_map]
    rfl
  case start_lt =>
    intro block hblock
    obtain ⟨old, hold, rfl⟩ := exists_block hp hblock
    exact (hs.stretch old hold).start_lt
  case tiles => exact hs.tiles_of_finish hp
  case head_eq =>
    intro block hblock
    obtain ⟨old, hold, rfl⟩ := exists_block hp hblock
    exact hmoved_head old hold
  case entry_eq =>
    rw [hentry, hmoved_head first (Array.mem_of_getElem? hfirst), hs.start_first hfirst]
  case next_within =>
    intro block hblock i instr hstart hstop hinstr
    exact (hs.successors_within hp hblock hstart hstop hinstr).1
  case references_within =>
    intro block hblock i instr hstart hstop hinstr hcall j hj
    rcases List.mem_append.mp hj with hj | hj
    · exact (hs.successors_within hp hblock hstart hstop hinstr).2 hcall j hj
    · obtain ⟨use, huse, hj⟩ := Option.bind_eq_some_iff.mp (Option.mem_toList.mp hj)
      exact (htyped.monitored hopened hblock hstart hstop hinstr huse hj).1
  case call_eq =>
    intro i instr rule target hinstr hop
    exact hs.call_of_finish hp hinstr hop
  case next_eq_none_iff =>
    intro i instr hinstr
    exact (htyped.fits i instr hinstr).next_eq_none_iff
  case follows =>
    intro i instr j hinstr hj
    exact hs.follows_of_finish hp hinstr hj
  case length_table =>
    intro i instr table hinstr hop
    have hfits := htyped.fits i instr hinstr
    rw [hop] at hfits
    exact hfits.length_table
  case monitor_isSome =>
    intro i instr use hinstr huse
    exact ((htyped.fits i instr hinstr).monitor huse).1
  case monitored =>
    intro i instr use hinstr huse m hm
    obtain ⟨block, hblock, hstart, hstop⟩ :=
      hs.exists_block_of_lt hp i (Array.getElem?_eq_some_iff.mp hinstr).1
    exact (htyped.monitored hopened hblock hstart hstop hinstr huse hm).2

end Session

/-- Whatever is compiled, the program is well linked. -/
theorem wellLinked_of_compile {g k : Grammar} (hg : g.FullTables) {depth : Nat}
    {rules : List RuleId} {o : Options} {p : Program}
    (hcompile : compileWithin depth g rules o = some (.ok p, k)) :
    p.WellLinked rules o.tracing := by
  obtain ⟨s, Γ, hlaid, hfinish, rfl, hrules⟩ := hg.exists_laid hcompile
  exact hlaid.wellLinked hfinish hrules

theorem wellLinked_of_compile_symbolAgain : ∃ p k,
    compileWithin 20 (Grammar.attachTables symbolAgain).2 [0, 1, 0]
      { packrat := true, tracing := true, specialize := true } = some (.ok p, k) ∧
    p.WellLinked [0, 1, 0] true := by
  have hfull : (Grammar.attachTables symbolAgain).2.FullTables :=
    Grammar.keeps_attachTables Grammar.lasting_fullTables _
      (Grammar.fullTables_of_tables_empty rfl)
  obtain ⟨p, k, hcompile, -⟩ := Grammar.exists_program 20 (Grammar.attachTables symbolAgain).2
    [0, 1, 0] { packrat := true, tracing := true, specialize := true } (fun _ ↦ true)
    (by decide +kernel)
  exact ⟨p, k, hcompile, wellLinked_of_compile hfull hcompile⟩

end ParsingMachine
