import ParsingMachine.Proofs.Compile.WellLinked

/-!
# Compiled programs keep the discipline of the stacks

A compiled program does none of the things that the machine counts as a fault, over no input and in
no run of whatever length. What drops, moves or records a failure frame finds on top the frame that
the instruction it belongs to has saved, and what uses a position finds the one that the instruction
it belongs to has saved; the stacks are then as high as they were when it was saved.

Which instructions belong together can be read off the program (`Program.Owns`): each has one that
pushes what it uses, made of the same expression in the same block, and no two have the same.

This is so for every grammar with complete jump tables, whatever the tables send where and whatever
the grammar says about repetitions.

The invariant that carries this is a typing of the program. Each instruction is given the brackets
that are open when the machine stands at it (`Machine.Typed`), and the stacks of a run hold what the
open brackets have pushed, in their order (`Machine.StandsAt`). Each step keeps this, since the
instructions to which it may go on are typed accordingly; that the brackets of a compiled program
fit together was shown where encoding was typed. Nothing is said of the input, and any buffer will
do.

What belongs to an instruction is then what has opened its innermost bracket (`Machine.innermost`).
No two instructions share it, as a bracket names the one instruction that takes its frame or its
position.

## Main statements

* `Machine.Typed.owns`: brackets say which instructions belong together.
* `Machine.Typed.disciplined`: and what the stacks hold on top.
* `disciplined_of_compile`: in every reachable state of every compiled program the stacks are as the
  next instruction needs them, and no run ends in a fault.
-/

namespace ParsingMachine

open Machine

/-- `own` answers for each instruction that uses a failure frame or a saved position the instruction
that pushes it. -/
structure Program.Owns (p : Program) (own : InstrId → InstrId) : Prop where
  /-- The two fit together, were made of the same expression and are in the same block. -/
  pairs : ∀ (i : InstrId) instr, p.code[i]? = some instr →
    instr.op.usesFrame ∨ instr.op.usesPosition → ∃ opener, p.code[own i]? = some opener ∧
      opener.op.pairs instr.op ∧ opener.origin = instr.origin ∧ ∃ block ∈ p.blocks,
        (block.start ≤ i ∧ i < block.stop) ∧ block.start ≤ own i ∧ own i < block.stop
  /-- No two instructions have the same. -/
  injective : ∀ (i j : InstrId) instr instr', p.code[i]? = some instr → p.code[j]? = some instr' →
    instr.op.usesFrame ∨ instr.op.usesPosition → instr'.op.usesFrame ∨ instr'.op.usesPosition →
    own i = own j → i = j

/-- The machine is at an instruction, and what that uses is on top of the stacks and its own. -/
structure Machine.Disciplined (p : Program) (own : InstrId → InstrId) (s : State) : Prop where
  /-- There is an instruction. -/
  pc_lt : s.pc < p.size
  /-- The newest frame is the one pushed by the instruction's own, and the stacks are as high as
  they were then. -/
  frame : ∀ instr, p.code[s.pc]? = some instr → instr.op.usesFrame → ∃ f rest,
    s.frames = f :: rest ∧ f.owner = own s.pc ∧ f.calls = s.calls.height ∧
      f.positions = s.positions.height
  /-- The position saved last is the one pushed by the instruction's own. -/
  position : ∀ instr, p.code[s.pc]? = some instr → instr.op.usesPosition → ∃ saved rest,
    s.positions.items = saved :: rest ∧ saved.owner = own s.pc

namespace Machine

variable {tracing : Bool} {p : Program} {Γ : InstrId → Context} {s : State}

/-- The instruction that has opened the innermost bracket. -/
def innermost (Γ : InstrId → Context) (i : InstrId) : InstrId :=
  match Γ i with
  | b :: _ => b.opener
  | [] => i

/-- Brackets say which instructions belong together. -/
theorem Typed.owns (hp : Typed tracing p Γ) (hopened : Opened p Γ)
    (hblocks : ∀ i < p.size, ∃ block ∈ p.blocks, block.start ≤ i ∧ i < block.stop) :
    p.Owns (innermost Γ) := by
  have key (i : InstrId) (instr : Instruction) (hinstr : p.code[i]? = some instr)
      (hop : instr.op.usesFrame ∨ instr.op.usesPosition) : ∃ block ∈ p.blocks,
        (block.start ≤ i ∧ i < block.stop) ∧ ∃ b opener j, innermost Γ i = b.opener ∧ b.closer = i ∧
          block.start ≤ b.opener ∧ b.opener < block.stop ∧ p.code[b.opener]? = some opener ∧
          opener.op.pairs instr.op ∧ opener.origin = instr.origin ∧ opener.next = some j ∧
          Γ j = b :: Γ b.opener := by
    obtain ⟨block, hblock, hstart, hstop⟩ :=
      hblocks i (Array.getElem?_eq_some_iff.mp hinstr).1
    obtain ⟨b, c, opener, j, hb, hrest⟩ :=
      hp.exists_opener hopened hblock hstart hstop hinstr hop
    exact ⟨block, hblock, ⟨hstart, hstop⟩, b, opener, j, by rw [innermost, hb], hrest⟩
  constructor
  · intro i instr hinstr hop
    obtain ⟨block, hblock, hi, b, opener, j, hown, -, hstart, hstop, hopener, hpairs, horigin, -⟩ :=
      key i instr hinstr hop
    rw [hown]
    exact ⟨opener, hopener, hpairs, horigin, block, hblock, hi, hstart, hstop⟩
  · intro i i' instr instr' hinstr hinstr' hop hop' heq
    obtain ⟨-, -, -, b, opener, j, hown, hcloser, -, -, hopener, -, -, hnext, hj⟩ :=
      key i instr hinstr hop
    obtain ⟨-, -, -, b', opener', j', hown', hcloser', -, -, hopener', -, -, hnext', hj'⟩ :=
      key i' instr' hinstr' hop'
    -- the same instruction opens both brackets on its one fallthrough
    rw [hown, hown'] at heq
    rw [heq] at hopener hj
    cases hopener.symm.trans hopener'
    cases hnext.symm.trans hnext'
    have hb : b = b' := (List.cons.inj (hj.symm.trans hj')).1
    rw [← hcloser, ← hcloser', hb]

/-- What the stacks of a typed program hold on top. -/
theorem Typed.disciplined (hp : Typed tracing p Γ) (h : StandsAt p Γ s) :
    Disciplined p (innermost Γ) s := by
  refine ⟨h.pc_lt, fun instr hinstr hop ↦ ?_, fun instr hinstr hop ↦ ?_⟩
  · obtain ⟨b, c, hb, -, -, hcloses⟩ := (hp.fits s.pc instr hinstr).exists_closed (.inl hop)
    have hstands := h.stands
    rw [hb] at hstands
    obtain ⟨f, rest, hframes, howner, hcalls, hpositions, -⟩ :=
      hstands.exists_frame (Bracket.Kind.isFrame_of_closes hcloses hop)
    exact ⟨f, rest, hframes, by rw [howner, innermost, hb], hcalls.trans s.calls.height_eq.symm,
      hpositions.trans s.positions.height_eq.symm⟩
  · obtain ⟨b, c, hb, -, -, hcloses⟩ := (hp.fits s.pc instr hinstr).exists_closed (.inr hop)
    have hstands := h.stands
    rw [hb] at hstands
    obtain ⟨saved, rest, hpositions, howner, -⟩ :=
      hstands.exists_position (Bracket.Kind.eq_position_of_closes hcloses hop)
    exact ⟨saved, rest, hpositions, by rw [howner, innermost, hb]⟩

end Machine

/-- A compiled program comes to no fault, over no input and however long it runs, and what an
instruction takes from a stack is what the instruction that belongs to it has pushed. -/
theorem disciplined_of_compile {g k : Grammar} (hg : g.FullTables) {depth : Nat}
    {rules : List RuleId} {o : Options} {p : Program}
    (hcompile : compileWithin depth g rules o = some (.ok p, k)) :
    ∃ own, p.Owns own ∧ ∀ {σ : Type} [Buffer σ] (src : σ),
      (∀ limit, ∃ out, (runOn limit p src).ending = .outcome out) ∧
      ∀ s t, Reached p src s t →
        Disciplined p own s ∧ ∀ f, (Machine.step p s t).1 ≠ .faulted f := by
  obtain ⟨s, Γ, hlaid, hfinish, -⟩ := hg.exists_laid hcompile
  have htyped := hlaid.typed_of_finish hfinish
  refine ⟨innermost (s.contexts Γ), htyped.owns (hlaid.opened_of_finish hfinish)
    (hlaid.exists_block_of_lt hfinish), fun src ↦ ⟨fun limit ↦ htyped.exists_outcome limit src, ?_⟩⟩
  intro s t hreached
  have hstands := htyped.stands_of_reached hreached
  refine ⟨htyped.disciplined hstands, fun f hf ↦ ?_⟩
  have hfine := htyped.stands_step hstands t
  rw [hf] at hfine
  exact hfine

/-- A repetition that consumes nothing and has no flag, behind a jump table that leads to it from
everywhere: `S = U 'b' / U ('a'*)*` and `U = <is t 'a'*>`. -/
def misledChoice : Grammar where
  nodes := #[⟨.byte 97, .synthetic⟩, ⟨.star 0 false, .synthetic⟩, ⟨.star 1 false, .synthetic⟩,
    ⟨.isSymbol "t" 1 true, .synthetic⟩, ⟨.reference 1, .synthetic⟩, ⟨.byte 98, .synthetic⟩,
    ⟨.sequence [4, 5], .synthetic⟩, ⟨.sequence [4, 2], .synthetic⟩, ⟨.choice [6, 7], .synthetic⟩]
  rules := #[{ name := "S", body := some 8 }, { name := "U", body := some 3 }]
  tables := ({} : Std.TreeMap ExprId JumpTable).insert 8 (List.replicate slotCount 7)

/-- Tables that are wrong and repetitions that never end do not matter. -/
theorem disciplined_of_compile_misledChoice : ∃ p k,
    compileWithin 20 misledChoice [0, 1] { packrat := true, tracing := true } = some (.ok p, k) ∧
    ∃ own, p.Owns own ∧ ∀ {σ : Type} [Buffer σ] (src : σ),
      (∀ limit, ∃ out, (runOn limit p src).ending = .outcome out) ∧
      ∀ s t, Reached p src s t →
        Disciplined p own s ∧ ∀ f, (Machine.step p s t).1 ≠ .faulted f := by
  have hfull : misledChoice.FullTables :=
    (Grammar.fullTables_of_tables_empty (g := { misledChoice with tables := {} }) rfl).setTable
      List.length_replicate
  obtain ⟨p, k, hcompile, -⟩ := Grammar.exists_program 20 misledChoice [0, 1]
    { packrat := true, tracing := true } (fun _ ↦ true) (by decide +kernel)
  exact ⟨p, k, hcompile, disciplined_of_compile hfull hcompile⟩

end ParsingMachine
