import ParsingMachine.Proofs.Machine.Execution
import ParsingMachine.Proofs.Semantics.Kept

/-!
# Finished programs and the code they were made from

A finished program holds the instructions of an arena at other places and with linked calls. An
`Image` is a program together with its arena and with what is known of both, so that execution can
be followed in terms of the arena, whose parts are made one after the other. Its fields are the only
facts about numbering, linking and memo slots that the correctness of code rests on: whoever changes
how programs are laid out has to make an image again, and nothing else.

Code for a term implements it (`Image.Implements`) when a machine that starts on the code with what
the term yields ends accordingly (`Image.Ends`): it goes on after the code with the new position and
parse state and with its stacks as before, or it fails with nothing dropped from its stacks. On
failure the stacks need not be as before, only no lower and with the same frames (`Over`), since a
failure in the middle of a piece leaves what was pushed and the frame that catches it cuts it off.
The depth of nested rules is a parameter, by which the correctness of calls is an induction later.

A memo table may change on the way but always holds results only (`Image.Records`). A result is kept
under an index, and states with the same index are alike as far as the slot's expression can see
(`alike_of_memoIndex_eq`). That this is enough is a field of the image (`keeps`), and whether a
grammar has it is a question about the grammar alone.

## Main statements

* `Records.insert`, `Records.find`: a result may be recorded, and what is found is one.
* `Holds.reaches`: executing a placed instruction of the arena.
* `Ends.of_reaches`: going on from a state with the same stacks.
* `Ends.caught`: a failure that a frame catches.
-/

namespace ParsingMachine

/-- Fills in the target of a call. -/
def Opcode.linked (target : RuleId → Option InstrId) : Opcode → Opcode
  | call rule _ => call rule (target rule)
  | op => op

/-- Whatever the expression yields, it is not a success where it began. -/
def Grammar.Consumes (g : Grammar) (e : ExprId) : Prop :=
  ∀ src d pos s s', ¬Yields g src d (.node e) pos s (some (pos, s'))

namespace Machine

/-- A program and the arena from which it was laid out. -/
structure Image where
  /-- The finished program. -/
  program : Program
  /-- The grammar, with all nodes that were added to it. -/
  grammar : Grammar
  /-- The instructions before linking. -/
  arena : Array Instruction
  /-- The memo slots. -/
  memo : Array MemoSlot
  /-- Where an instruction of the arena was placed. -/
  place : InstrId → InstrId
  /-- Where calls to a rule go. -/
  target : RuleId → Option InstrId
  /-- Which instructions of the arena were placed. -/
  live : InstrId → Prop
  /-- The program holds what was placed. -/
  fetch : ∀ (i : InstrId) instr, live i → arena[i]? = some instr →
    ∃ instr', program.code[place i]? = some instr' ∧
      instr'.op = (instr.op.linked target).mapTargets place ∧
      instr'.next = instr.next.map place
  /-- What follows a placed instruction was placed. -/
  live_successor : ∀ (i : InstrId) instr, live i → arena[i]? = some instr →
    ∀ j ∈ instr.successors, live j
  /-- Calls go to placed code of defined rules. -/
  live_target : ∀ (i : InstrId) instr rule, live i → arena[i]? = some instr →
    instr.op = .call rule none →
    ∃ head body, target rule = some head ∧ live head ∧ grammar.body? rule = some body
  /-- What a repetition without the flag repeats consumes. -/
  consumes : ∀ e inner, grammar.op e = .star inner false ∨ grammar.op e = .plus inner false →
    grammar.Consumes inner
  /-- Results may be kept in the slots. -/
  keeps : ∀ (i : MemoId) slot, memo[i]? = some slot →
    grammar.Keeps slot.contextSensitive slot.expr

namespace Image

variable {W : Image} {src : Resident}

/-! ### Memo tables -/

/-- Every entry is the result of the expression of its slot, in each parse state that has its
index. -/
def Records (W : Image) (src : Resident) (m : MemoTable) : Prop :=
  ∀ i result, m.find? i = some result → ∃ slot : MemoSlot, W.memo[i.memo]? = some slot ∧
    ∀ use s, memoIndex use i.pos s = i →
      ∃ d, Yields W.grammar src d (.node slot.expr) i.pos s (result.map fun stop ↦ (stop, s))

/-- An empty memo table holds results only. -/
theorem records_empty : W.Records src {} := by
  intro i result h
  rw [MemoTable.find?_empty] at h
  cases h

/-- Parse states with the same index are alike. -/
theorem alike_of_memoIndex_eq {use use' : MemoUse} {slot : MemoSlot} {pos pos' : Nat}
    {s s' : ParseState} (hkey : use.key = slot.key)
    (h : memoIndex use pos s = memoIndex use' pos' s') :
    ParseState.Alike slot.contextSensitive s s' := by
  intro hsensitive
  have hstate := congrArg MemoIndex.state h
  simp only [memoIndex, hkey, MemoSlot.key, hsensitive, if_true] at hstate
  split at hstate
  · cases hstate
  · injection hstate with hstate
    injection hstate with hsymbols hindents
    exact ⟨hsymbols, hindents⟩

/-- A result may be recorded. -/
theorem Records.insert {m : MemoTable} (hm : W.Records src m) {use : MemoUse} {slot : MemoSlot}
    (hslot : W.memo[use.memo]? = some slot) (hkey : use.key = slot.key) {d pos : Nat}
    {s : ParseState} {r : Match} (h : Yields W.grammar src d (.node slot.expr) pos s r) :
    W.Records src (m.insert (memoIndex use pos s) (r.map Prod.fst)) := by
  intro i result hfind
  rw [MemoTable.find?_insert] at hfind
  split at hfind
  · rename_i hi
    cases hfind
    subst hi
    refine ⟨slot, hslot, fun use' s' hindex ↦ ?_⟩
    refine ⟨d, ?_⟩
    rw [Option.map_map]
    exact h.kept (W.keeps _ slot hslot) (alike_of_memoIndex_eq hkey hindex.symm)
  · exact hm i result hfind

/-- What the entry found by a use says. -/
theorem Records.find {m : MemoTable} (hm : W.Records src m) {use : MemoUse} {pos : Nat}
    {s : ParseState}
    {result : Option Nat} (hfind : m.find? (memoIndex use pos s) = some result) :
    ∃ slot : MemoSlot, W.memo[use.memo]? = some slot ∧
      ∃ d, Yields W.grammar src d (.node slot.expr) pos s (result.map fun stop ↦ (stop, s)) := by
  obtain ⟨slot, hslot, hentry⟩ := hm _ result hfind
  exact ⟨slot, hslot, hentry use s rfl⟩

/-- What is reached by steps in states whose memo tables hold results only. -/
abbrev Reaches (W : Image) (src : Resident) : Step → Step → Prop :=
  Machine.Reaches W.program src fun st ↦ W.Records src st.memo

/-! ### Instructions -/

/-- The arena has an instruction at a position. -/
def Holds (W : Image) (i : InstrId) (op : Opcode) (next : Option InstrId) : Prop :=
  ∃ instr : Instruction, W.arena[i]? = some instr ∧ instr.op = op ∧ instr.next = next

section

variable {i j : InstrId} {op : Opcode} {next : Option InstrId}

/-- The fallthrough of a placed instruction was placed. -/
theorem Holds.live_next (h : W.Holds i op (some j)) (hi : W.live i) : W.live j := by
  obtain ⟨instr, hinstr, -, hnext⟩ := h
  refine W.live_successor i instr hi hinstr j (List.mem_append_left _ ?_)
  rw [hnext]
  exact List.mem_singleton_self j

/-- The branches of a placed instruction were placed. -/
theorem Holds.live_branch (h : W.Holds i op next) (hi : W.live i) (hj : j ∈ op.branches) :
    W.live j := by
  obtain ⟨instr, hinstr, rfl, -⟩ := h
  exact W.live_successor i instr hi hinstr j (List.mem_append_right _ hj)

/-- Executing a placed instruction. -/
theorem Holds.reaches (h : W.Holds i op next) (hi : W.live i) (st : State)
    (hpc : st.pc = W.place i) (hmemo : W.Records src st.memo) (effect : Effect) (heffect : perform
      ((op.linked W.target).mapTargets W.place) (next.map W.place) st src = (effect, src)) :
    W.Reaches src (.running st) (effect.step (next.map W.place)) := by
  obtain ⟨instr, hinstr, rfl, rfl⟩ := h
  obtain ⟨instr', hcode, hop, hnext⟩ := W.fetch i instr hi hinstr
  refine .step hmemo ?_
  have hstep : (step W.program st src).1 = effect.step (instr.next.map W.place) := by
    simp only [step, hpc, hcode]
    rw [Resident.bind_run (a := effect) (by rw [hop, hnext]; exact heffect), hnext]
    rfl
  rw [hstep]
  exact .refl _

end

/-! ### Ends of a piece of code -/

/-- A state has the stacks of another one with nothing dropped. -/
structure Over (s t : State) : Prop where
  /-- The failure frames are the same. -/
  frames_eq : s.frames = t.frames
  /-- Return addresses are only added. -/
  calls : ∃ added, s.calls.items = added ++ t.calls.items
  /-- Saved positions are only added. -/
  positions : ∃ added, s.positions.items = added ++ t.positions.items

theorem Over.refl (s : State) : Over s s :=
  ⟨rfl, ⟨[], rfl⟩, ⟨[], rfl⟩⟩

/-- How a machine ends that starts in a state on code followed by `next`, for what the code
matches. -/
def Ends (W : Image) (src : Resident) (st : State) (next : InstrId) : Match → Prop
  | some (stop, s) => W.live next ∧ ∃ memo, W.Records src memo ∧
      W.Reaches src (.running st)
        (.running { st with pc := W.place next, pos := stop, parse := s, memo })
  | none => ∃ st', W.Records src st'.memo ∧ Over st' st ∧
      W.Reaches src (.running st) (backtrack st')

/-- The code from `pc` to `next` does what the term yields, within a number of nested rules. -/
def Implements (W : Image) (src : Resident) (d : Nat) (t : Term) (pc next : InstrId) : Prop :=
  ∀ st r, W.live pc → st.pc = W.place pc → W.Records src st.memo →
    Yields W.grammar src d t st.pos st.parse r → W.Ends src st next r

section

variable {st : State} {next : InstrId} {r : Match}

/-- A piece of code that comes to a failure with nothing dropped ends in one. -/
theorem ends_none {st' : State} (h : W.Reaches src (.running st) (backtrack st'))
    (hmemo : W.Records src st'.memo) (hover : Over st' st) : W.Ends src st next none :=
  ⟨st', hmemo, hover, h⟩

/-- Going on from a state with the same stacks. -/
theorem Ends.of_reaches {i : InstrId} {pos : Nat} {s : ParseState} {memo : MemoTable}
    (h : W.Reaches src (.running st)
      (.running { st with pc := i, pos := pos, parse := s, memo }))
    (hends : W.Ends src { st with pc := i, pos := pos, parse := s, memo } next r) :
    W.Ends src st next r := by
  rcases r with - | ⟨stop, s'⟩
  · obtain ⟨st', hmemo, hover, hreach⟩ := hends
    exact ⟨st', hmemo, ⟨hover.frames_eq, hover.calls, hover.positions⟩, h.trans hreach⟩
  · obtain ⟨hnext, memo', hmemo, hreach⟩ := hends
    exact ⟨hnext, memo', hmemo, h.trans hreach⟩

/-- A failure that a frame catches. -/
theorem Ends.caught (hends : W.Ends src st next none) {f : Frame} {rest : List Frame}
    (hframes : st.frames = f :: rest) (hcalls : f.calls = st.calls.height)
    (hpositions : f.positions = st.positions.height) :
    ∃ memo, W.Records src memo ∧ W.Reaches src (.running st)
      (.running { st with
        pc := f.onFail, pos := f.pos, frames := rest, parse := f.parse, memo }) := by
  obtain ⟨st', hmemo, ⟨hframes', ⟨calls, hcalls'⟩, ⟨positions, hpositions'⟩⟩, hreach⟩ := hends
  refine ⟨st'.memo, hmemo, ?_⟩
  have hcut : st'.calls.cut f.calls = st.calls := by
    rw [hcalls, st.calls.height_eq]
    exact Stack.ext_items (Stack.items_cut_of_append _ calls _ hcalls')
  have hcut' : st'.positions.cut f.positions = st.positions := by
    rw [hpositions, st.positions.height_eq]
    exact Stack.ext_items (Stack.items_cut_of_append _ positions _ hpositions')
  simpa only [backtrack, hframes'.trans hframes, hcut, hcut'] using hreach

end

end Image

end Machine

end ParsingMachine
