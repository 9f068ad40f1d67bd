import ParsingMachine.Grammar.Basic
import ParsingMachine.Machine.Run

/-!
# The brackets of a program

What pushes on a stack of the machine opens a bracket, and what pops it again closes the bracket. A
program is typed when every instruction has a context, the brackets that are open before it, and the
contexts of an instruction and of those that it leads to fit together (`Machine.Fits`, one
constructor for each kind of operation). A bracket names the two instructions that it belongs to and
the expression they were made of, so a context says not only how many entries are on a stack but
which instruction has pushed each of them.

Two things are no entries of a stack and have brackets all the same. A frame that a lookup pushes is
a kind of its own, so that only `memoize` of the same slot closes it. And the path behind a switch
is a bracket for which nothing is pushed: with it the context alone says that a memo instruction is
reached only through its switch.

The stacks of the machine hold what the context of the present instruction asks for, and below that
what the contexts of the return addresses ask for (`Machine.Stands`). This is the invariant. A
failure cuts the stacks back to where the newest frame was saved; that they are right again there is
read off the invariant, since each frame was pushed over stacks that stood for the context where the
frame resumes (`Stands.newest`). A step needs nothing else of the states before.

None of this depends on the input: what an instruction does to the stacks is the same for every
answer of the buffer (`Gives`), so the results hold over every buffer and not only over texts in
memory.

## Main statements

* `Fits.suffix_or_opens`: an instruction leads to where some of its brackets are open, or one more.
* `Typed.exists_opener`: what is open before an instruction was opened on the way to it.
* `Typed.monitored`: a memo instruction is behind its switch, in the same block.
* `Typed.stands_step`: a step of a typed program is no fault and keeps the stacks right.
* `Typed.stands_of_reached`, `Typed.exists_outcome`: so does a run, which ends with an outcome.
-/

namespace ParsingMachine

/-! ### Brackets -/

namespace Opcode

/-- An operation that opens and closes no bracket and goes on at the fallthrough or fails. -/
def isPlain : Opcode → Bool
  | anyByte | byte _ _ | byteClass _ _ | skipClass _ | notClass _ | notLiteral _ => true
  | nodePush | nodeStore _ | mark _ | tablePush | tablePop | defIndent | isIndent => true
  | _ => false

/-- An operation that always jumps, fails or returns. -/
def isFinal : Opcode → Bool
  | fail | ret | dispatch _ | memoizeFail _ => true
  | _ => false

/-- An operation that uses up the position saved last. -/
def usesPosition : Opcode → Bool
  | posBack | defSymbol _ | isSymbol _ _ => true
  | _ => false

/-- An operation that uses the newest failure frame. -/
def usesFrame : Opcode → Bool
  | failPop | failSkip _ | memoize _ _ => true
  | _ => false

/-- Whether an operation uses what another one has pushed. -/
def pairs : Opcode → Opcode → Bool
  | failPush _, failPop | failPush _, failSkip _ => true
  | posPush, op => op.usesPosition
  | lookup use child _ _, memoize use' child' => use == use' && child == child'
  | _, _ => false

end Opcode

namespace Machine

/-- What a bracket stands for. -/
inductive Bracket.Kind where
  /-- A failure frame. -/
  | frame
  /-- A failure frame of a result that is being computed. -/
  | entry (use : MemoUse) (child : Option Int)
  /-- A saved position. -/
  | position
  /-- The memoized path behind a switch; nothing is pushed for it. -/
  | guard (use : MemoUse)
  deriving DecidableEq

namespace Bracket.Kind

/-- The failure frames that brackets stand for. -/
def isFrame : Kind → Bool
  | frame | entry _ _ => true
  | _ => false

/-- The operations that open a bracket. -/
def opens : Kind → Opcode → Bool
  | frame, .failPush _ | position, .posPush | guard _, .monitoredSwitch _ => true
  | entry use child, .lookup use' child' _ _ => use == use' && child == child'
  | _, _ => false

/-- The operations that close a bracket. -/
def closes : Kind → Opcode → Bool
  | frame, .failPop | frame, .failSkip _ => true
  | position, op => op.usesPosition
  | entry use child, .memoize use' child' => use == use' && child == child'
  | _, _ => false

/-- What closes a bracket goes on at the fallthrough only. -/
theorem branches_of_closes {kind : Kind} {op : Opcode} (h : kind.closes op) : op.branches = [] := by
  cases op with
  | failPush _ | call _ _ | monitoredSwitch _ | lookup _ _ _ _ | dispatch _ =>
    cases kind <;> cases h
  | _ => rfl

/-- What uses a failure frame closes a bracket that stands for one. -/
theorem isFrame_of_closes {kind : Kind} {op : Opcode} (h : kind.closes op) (hop : op.usesFrame) :
    kind.isFrame := by
  cases kind with
  | frame | entry _ _ => rfl
  | position =>
    cases op with
    | posBack | defSymbol _ | isSymbol _ _ => cases hop
    | _ => cases h
  | guard _ => cases h

/-- What uses a saved position closes a bracket that stands for one. -/
theorem eq_position_of_closes {kind : Kind} {op : Opcode} (h : kind.closes op)
    (hop : op.usesPosition) : kind = position := by
  cases kind with
  | position => rfl
  | frame | entry _ _ =>
    cases op with
    | posBack | defSymbol _ | isSymbol _ _ => cases h
    | _ => cases hop
  | guard _ => cases h

/-- What opens a bracket pushes what is used where the bracket is closed. -/
theorem pairs_of_opens {kind : Kind} {op op' : Opcode} (hopens : kind.opens op)
    (hcloses : kind.closes op') : op.pairs op' := by
  cases kind with
  | frame =>
    cases op with
    | failPush _ =>
      cases op' with
      | failPop | failSkip _ => rfl
      | _ => cases hcloses
    | _ => cases hopens
  | entry use child =>
    cases op with
    | lookup _ _ _ _ =>
      cases op' with
      | memoize _ _ =>
        simp only [opens, closes, Bool.and_eq_true, beq_iff_eq] at hopens hcloses
        obtain ⟨rfl, rfl⟩ := hopens
        obtain ⟨rfl, rfl⟩ := hcloses
        simp [Opcode.pairs]
      | _ => cases hcloses
    | _ => cases hopens
  | position =>
    cases op with
    | posPush => exact hcloses
    | _ => cases hopens
  | guard _ => cases hcloses

end Bracket.Kind

/-- A bracket between two instructions made of one expression. -/
structure Bracket where
  /-- What it stands for. -/
  kind : Bracket.Kind
  /-- The instruction that opens it. -/
  opener : InstrId
  /-- The instruction that closes it; for a guarded path the switch again. -/
  closer : InstrId
  /-- The expression. -/
  origin : ExprId
  deriving DecidableEq

/-- The open brackets, the innermost first. -/
abbrev Context := List Bracket

/-- The guard of a memo instruction, if there is one. -/
def guards (use : MemoUse) (e : ExprId) : Context :=
  use.monitor.toList.map fun switch ↦ ⟨.guard use, switch, switch, e⟩

/-- An instruction at a place fits the contexts of all that it leads to. -/
inductive Fits (tracing : Bool) (code : Array Instruction) (Γ : InstrId → Context) (i : InstrId)
    (e : ExprId) : Opcode → Option InstrId → Prop
  | plain {op j} (hop : op.isPlain) (hj : Γ j = Γ i) : Fits tracing code Γ i e op (some j)
  | fail : Fits tracing code Γ i e .fail none
  | ret (hi : Γ i = []) : Fits tracing code Γ i e .ret none
  | dispatch {table} (hlength : table.length = slotCount) (htable : ∀ j ∈ table, Γ j = Γ i) :
    Fits tracing code Γ i e (.dispatch table) none
  | call {rule target j} (hj : Γ j = Γ i) (htarget : ∀ t ∈ target, Γ t = []) :
    Fits tracing code Γ i e (.call rule target) (some j)
  | switch {activated j instr use child onHit onMemoFail} (hj : Γ j = Γ i)
    (hactivated : Γ activated = ⟨.guard use, i, i, e⟩ :: Γ i)
    (hinstr : code[activated]? = some instr)
    (hop : instr.op = .lookup use child onHit onMemoFail) :
    Fits tracing code Γ i e (.monitoredSwitch activated) (some j)
  | failPush {onFail j closer} (hj : Γ j = ⟨.frame, i, closer, e⟩ :: Γ i) (hfail : Γ onFail = Γ i) :
    Fits tracing code Γ i e (.failPush onFail) (some j)
  | failPop {opener j} (hi : Γ i = ⟨.frame, opener, i, e⟩ :: Γ j) :
    Fits tracing code Γ i e .failPop (some j)
  | failSkip {guarded opener c j} (hi : Γ i = ⟨.frame, opener, i, e⟩ :: c) (hj : Γ j = Γ i) :
    Fits tracing code Γ i e (.failSkip guarded) (some j)
  | posPush {j closer} (hj : Γ j = ⟨.position, i, closer, e⟩ :: Γ i) :
    Fits tracing code Γ i e .posPush (some j)
  | position {op opener j} (hop : op.usesPosition) (hi : Γ i = ⟨.position, opener, i, e⟩ :: Γ j) :
    Fits tracing code Γ i e op (some j)
  | lookup {use child onHit onMemoFail j closer} (hmonitor : use.monitor.isSome = tracing)
    (hi : Γ i = guards use e ++ Γ onHit) (hfail : Γ onMemoFail = Γ i)
    (hj : Γ j = ⟨.entry use child, i, closer, e⟩ :: Γ i) :
    Fits tracing code Γ i e (.lookup use child onHit onMemoFail) (some j)
  | memoize {use child opener j} (hmonitor : use.monitor.isSome = tracing)
    (hi : Γ i = ⟨.entry use child, opener, i, e⟩ :: (guards use e ++ Γ j)) :
    Fits tracing code Γ i e (.memoize use child) (some j)
  | memoizeFail {use c} (hmonitor : use.monitor.isSome = tracing) (hi : Γ i = guards use e ++ c) :
    Fits tracing code Γ i e (.memoizeFail use) none

namespace Fits

variable {tracing : Bool} {code : Array Instruction} {Γ : InstrId → Context} {i y : InstrId}
  {e : ExprId} {op : Opcode} {next : Option InstrId} {b : Bracket}

/-- Plain operations use neither a frame nor a saved position. -/
theorem uses_of_isPlain (hop : op.isPlain) : op.usesFrame = false ∧ op.usesPosition = false := by
  cases op <;> first | exact ⟨rfl, rfl⟩ | cases hop

/-- What uses a frame or a position closes the innermost bracket. -/
theorem exists_closed (h : Fits tracing code Γ i e op next)
    (hop : op.usesFrame ∨ op.usesPosition) :
    ∃ b c, Γ i = b :: c ∧ b.closer = i ∧ b.origin = e ∧ b.kind.closes op := by
  cases h with
  | failPop hi => exact ⟨_, _, hi, rfl, rfl, rfl⟩
  | failSkip hi _ => exact ⟨_, _, hi, rfl, rfl, rfl⟩
  | position hop hi => exact ⟨_, _, hi, rfl, rfl, hop⟩
  | memoize _ hi => exact ⟨_, _, hi, rfl, rfl, by simp [Bracket.Kind.closes]⟩
  | plain hplain _ =>
    obtain ⟨hframe, hposition⟩ := uses_of_isPlain hplain
    simp [hframe, hposition] at hop
  | _ => simp [Opcode.usesFrame, Opcode.usesPosition] at hop

/-- Plain operations go on at the fallthrough only. -/
theorem branches_of_isPlain (hop : op.isPlain) : op.branches = [] := by
  cases op <;> first | rfl | cases hop

/-- What uses a saved position goes on at the fallthrough only. -/
theorem branches_of_usesPosition (hop : op.usesPosition) : op.branches = [] := by
  cases op <;> first | rfl | cases hop

/-- An instruction leads to where some of the brackets are open that are open before it, or opens
one more. -/
theorem suffix_or_opens (h : Fits tracing code Γ i e op next)
    (hy : y ∈ next.toList ++ op.branches) : Γ y <:+ Γ i ∨
      ∃ b : Bracket, Γ y = b :: Γ i ∧ b.opener = i ∧ b.origin = e ∧ b.kind.opens op ∧
        ((∀ use, b.kind ≠ .guard use) → next = some y) ∧
        ∀ use, b.kind = .guard use → ∃ instr child onHit onMemoFail, op = .monitoredSwitch y ∧
          code[y]? = some instr ∧ instr.op = .lookup use child onHit onMemoFail := by
  have hsame {y : InstrId} (hy : Γ y = Γ i) : Γ y <:+ Γ i := hy ▸ List.suffix_rfl
  cases h with
  | plain hop hj =>
    rw [branches_of_isPlain hop] at hy
    obtain rfl : y = _ := by simpa using hy
    exact .inl (hsame hj)
  | fail | memoizeFail _ _ | ret _ => simp [Opcode.branches] at hy
  | dispatch _ htable => exact .inl (hsame (htable y hy))
  | @call rule target j hj htarget =>
    rcases List.mem_cons.mp hy with rfl | hy
    · exact .inl (hsame hj)
    · rw [htarget y (Option.mem_toList.mp hy)]
      exact .inl (List.nil_suffix)
  | switch hj hactivated hinstr hop =>
    rcases List.mem_cons.mp hy with rfl | hy
    · exact .inl (hsame hj)
    · obtain rfl := List.mem_singleton.mp hy
      refine .inr ⟨_, hactivated, rfl, rfl, rfl, fun h ↦ absurd rfl (h _), fun use huse ↦ ?_⟩
      cases huse
      exact ⟨_, _, _, _, rfl, hinstr, hop⟩
  | failPush hj hfail =>
    rcases List.mem_cons.mp hy with rfl | hy
    · exact .inr ⟨_, hj, rfl, rfl, rfl, fun _ ↦ rfl, fun _ h ↦ nomatch h⟩
    · rw [List.mem_singleton.mp hy]
      exact .inl (hsame hfail)
  | @failPop opener j hi =>
    rw [List.mem_singleton.mp hy, hi]
    exact .inl (List.suffix_cons _ _)
  | failSkip hi hj =>
    rw [List.mem_singleton.mp hy]
    exact .inl (hsame hj)
  | posPush hj =>
    rw [List.mem_singleton.mp hy]
    exact .inr ⟨_, hj, rfl, rfl, rfl, fun _ ↦ rfl, fun _ h ↦ nomatch h⟩
  | position hop hi =>
    rw [branches_of_usesPosition hop] at hy
    rw [List.mem_singleton.mp hy, hi]
    exact .inl (List.suffix_cons _ _)
  | @lookup use child onHit onMemoFail j closer hmonitor hi hfail hj =>
    rcases List.mem_cons.mp hy with rfl | hy
    · exact .inr ⟨_, hj, rfl, rfl, by simp [Bracket.Kind.opens], fun _ ↦ rfl, fun _ h ↦ nomatch h⟩
    · rcases List.mem_cons.mp hy with rfl | hy
      · rw [hi]
        exact .inl (List.suffix_append _ _)
      · rw [List.mem_singleton.mp hy]
        exact .inl (hsame hfail)
  | memoize _ hi =>
    rw [List.mem_singleton.mp hy, hi]
    exact .inl ((List.suffix_append _ _).trans (List.suffix_cons _ _))

/-- What is open after an instruction was open before it, or is opened by it. -/
theorem mem_or_opens (h : Fits tracing code Γ i e op next) (hy : y ∈ next.toList ++ op.branches)
    (hb : b ∈ Γ y) : b ∈ Γ i ∨ b.opener = i ∧ Γ y = b :: Γ i := by
  rcases h.suffix_or_opens hy with hsuffix | ⟨b', hb', hopener, -⟩
  · exact .inl (hsuffix.subset hb)
  · rw [hb'] at hb ⊢
    rcases List.mem_cons.mp hb with rfl | hb
    · exact .inr ⟨hopener, rfl⟩
    · exact .inl hb

/-- What leads to where one more bracket is open opens that. -/
theorem opens (h : Fits tracing code Γ i e op next) (hy : y ∈ next.toList ++ op.branches)
    (hb : Γ y = b :: Γ i) : b.opener = i ∧ b.origin = e ∧ b.kind.opens op ∧
      ((∀ use, b.kind ≠ .guard use) → next = some y) ∧
      ∀ use, b.kind = .guard use → ∃ instr child onHit onMemoFail, op = .monitoredSwitch y ∧
        code[y]? = some instr ∧ instr.op = .lookup use child onHit onMemoFail := by
  rcases h.suffix_or_opens hy with hsuffix | ⟨b', hb', hrest⟩
  · have hlength := hsuffix.length_le
    rw [hb, List.length_cons] at hlength
    omega
  · rw [hb] at hb'
    cases hb'
    exact hrest

/-- A memo instruction is behind its switch, and has one when these are made. -/
theorem monitor (h : Fits tracing code Γ i e op next) {use : MemoUse}
    (huse : op.memoUse? = some use) : use.monitor.isSome = tracing ∧
      ∀ switch ∈ use.monitor, ⟨.guard use, switch, switch, e⟩ ∈ Γ i := by
  have hmem (switch : InstrId) (hswitch : switch ∈ use.monitor) :
      ⟨.guard use, switch, switch, e⟩ ∈ guards use e := by
    rw [guards, Option.mem_def.mp hswitch]
    exact List.mem_singleton_self _
  cases h with
  | lookup hmonitor hi _ _ =>
    cases huse
    rw [hi]
    exact ⟨hmonitor, fun switch hswitch ↦ List.mem_append_left _ (hmem switch hswitch)⟩
  | memoize hmonitor hi =>
    cases huse
    rw [hi]
    exact ⟨hmonitor, fun switch hswitch ↦
      List.mem_cons_of_mem _ (List.mem_append_left _ (hmem switch hswitch))⟩
  | memoizeFail hmonitor hi =>
    cases huse
    rw [hi]
    exact ⟨hmonitor, fun switch hswitch ↦ List.mem_append_left _ (hmem switch hswitch)⟩
  | plain hop _ | position hop _ =>
    cases op with
    | lookup _ _ _ _ | memoize _ _ | memoizeFail _ => cases hop
    | _ => cases huse
  | _ => cases huse

/-- There is no fallthrough behind what always jumps, fails or returns. -/
theorem next_eq_none_iff (h : Fits tracing code Γ i e op next) : next = none ↔ op.isFinal := by
  cases h with
  | plain hop _ | position hop _ =>
    refine iff_of_false (Option.some_ne_none _) fun hfinal ↦ ?_
    cases op with
    | fail | ret | dispatch _ | memoizeFail _ => cases hop
    | _ => cases hfinal
  | fail | ret _ | dispatch _ _ | memoizeFail _ _ => exact iff_of_true rfl rfl
  | _ => exact iff_of_false (Option.some_ne_none _) Bool.false_ne_true

/-- Jump tables are complete. -/
theorem length_table {table : List InstrId} (h : Fits tracing code Γ i e (.dispatch table) next) :
    table.length = slotCount := by
  cases h with
  | dispatch hlength _ => exact hlength
  | plain hop _ | position hop _ => cases hop

end Fits

/-! ### What the machine holds for the open brackets -/

/-- The stacks hold what open brackets stand for, and below what the contexts of the return
addresses stand for. -/
inductive Stands (p : Program) (Γ : InstrId → Context) :
    Context → List InstrId → List SavedPosition → List Frame → Prop
  | start : Stands p Γ [] [] [] []
  | call {back calls positions frames} (hlt : back < p.size)
    (h : Stands p Γ (Γ back) calls positions frames) :
    Stands p Γ [] (back :: calls) positions frames
  | frame {b c calls positions frames} {f : Frame} (hkind : b.kind.isFrame)
    (howner : f.owner = b.opener) (hcalls : f.calls = calls.length)
    (hpositions : f.positions = positions.length) (hlt : f.onFail < p.size) (hfail : Γ f.onFail = c)
    (h : Stands p Γ c calls positions frames) :
    Stands p Γ (b :: c) calls positions (f :: frames)
  | position {b c calls positions frames} {saved : SavedPosition} (hkind : b.kind = .position)
    (howner : saved.owner = b.opener) (h : Stands p Γ c calls positions frames) :
    Stands p Γ (b :: c) calls (saved :: positions) frames
  | guard {b c use calls positions frames} (hkind : b.kind = .guard use)
    (h : Stands p Γ c calls positions frames) :
    Stands p Γ (b :: c) calls positions frames

namespace Stands

variable {p : Program} {Γ : InstrId → Context} {b : Bracket} {c : Context} {calls : List InstrId}
  {positions : List SavedPosition} {frames : List Frame} {f : Frame}

/-- The newest frame was saved over a part of the stacks that is still there, and which goes with
where the frame resumes. -/
theorem newest (h : Stands p Γ c calls positions (f :: frames)) : f.onFail < p.size ∧
    ∃ calls₁ calls₀ positions₁ positions₀, calls = calls₁ ++ calls₀ ∧
      positions = positions₁ ++ positions₀ ∧ f.calls = calls₀.length ∧
      f.positions = positions₀.length ∧ Stands p Γ (Γ f.onFail) calls₀ positions₀ frames := by
  generalize hframes : f :: frames = all at h
  induction h with
  | start => cases hframes
  | @call back _ _ _ _ _ ih =>
    obtain ⟨hlt, calls₁, calls₀, positions₁, positions₀, rfl, hrest⟩ := ih hframes
    exact ⟨hlt, back :: calls₁, calls₀, positions₁, positions₀, rfl, hrest⟩
  | @frame _ _ calls positions _ f _ _ hcalls hpositions hlt hfail h _ =>
    cases hframes
    rw [← hfail] at h
    exact ⟨hlt, [], calls, [], positions, rfl, rfl, hcalls, hpositions, h⟩
  | @position _ _ _ _ _ saved _ _ _ ih =>
    obtain ⟨hlt, calls₁, calls₀, positions₁, positions₀, hcalls, rfl, hrest⟩ := ih hframes
    exact ⟨hlt, calls₁, calls₀, saved :: positions₁, positions₀, hcalls, rfl, hrest⟩
  | guard _ _ ih => exact ih hframes

/-- With nothing open there is a return address, unless the stacks are as they were at the start. -/
theorem exists_call (h : Stands p Γ [] calls positions frames) : calls = [] ∨
    ∃ back rest, calls = back :: rest ∧ back < p.size ∧
      Stands p Γ (Γ back) rest positions frames := by
  cases h with
  | start => exact .inl rfl
  | call hlt h => exact .inr ⟨_, _, rfl, hlt, h⟩

/-- An open frame bracket has its frame on top. -/
theorem exists_frame (h : Stands p Γ (b :: c) calls positions frames) (hb : b.kind.isFrame) :
    ∃ f rest, frames = f :: rest ∧ f.owner = b.opener ∧ f.calls = calls.length ∧
      f.positions = positions.length ∧ f.onFail < p.size ∧ Γ f.onFail = c ∧
      Stands p Γ c calls positions rest := by
  cases h with
  | frame _ howner hcalls hpositions hlt hfail h =>
    exact ⟨_, _, rfl, howner, hcalls, hpositions, hlt, hfail, h⟩
  | position hkind _ _ =>
    rw [hkind] at hb
    cases hb
  | guard hkind _ =>
    rw [hkind] at hb
    cases hb

/-- An open position bracket has its position on top. -/
theorem exists_position (h : Stands p Γ (b :: c) calls positions frames)
    (hb : b.kind = .position) :
    ∃ saved rest, positions = saved :: rest ∧ saved.owner = b.opener ∧
      Stands p Γ c calls rest frames := by
  cases h with
  | frame hkind _ _ _ _ _ _ =>
    rw [hb] at hkind
    cases hkind
  | position _ howner h => exact ⟨_, _, rfl, howner, h⟩
  | guard hkind _ =>
    rw [hb] at hkind
    cases hkind

/-- Guards stand for nothing. -/
theorem guards_iff (use : MemoUse) (e : ExprId) :
    Stands p Γ (guards use e ++ c) calls positions frames ↔
      Stands p Γ c calls positions frames := by
  unfold guards
  rcases use.monitor with - | switch
  · rfl
  · constructor
    · intro h
      cases h with
      | frame hkind _ _ _ _ _ _ => cases hkind
      | position hkind _ _ => cases hkind
      | guard _ h => exact h
    · exact .guard rfl

end Stands

/-! ### Typed programs -/

/-- Every instruction has a context that fits. -/
structure Typed (tracing : Bool) (p : Program) (Γ : InstrId → Context) : Prop where
  /-- The contexts fit. -/
  fits : ∀ (i : InstrId) instr, p.code[i]? = some instr →
    Fits tracing p.code Γ i instr.origin instr.op instr.next
  /-- Instructions lead to instructions. -/
  successor_lt : ∀ (i : InstrId) instr, p.code[i]? = some instr → ∀ j ∈ instr.successors, j < p.size
  /-- Calls have targets. -/
  linked : ∀ (i : InstrId) instr rule, p.code[i]? = some instr → instr.op ≠ .call rule none
  /-- The entry is an instruction. -/
  entry_lt : p.entry < p.size
  /-- Nothing is open at the entry. -/
  entry_eq : Γ p.entry = []

/-- What is open before an instruction of a block was opened by an instruction of the block, on an
edge that leads to where nothing else is open. -/
def Opened (p : Program) (Γ : InstrId → Context) : Prop :=
  ∀ block ∈ p.blocks, ∀ i, block.start ≤ i → i < block.stop → ∀ b ∈ Γ i,
    block.start ≤ b.opener ∧ b.opener < block.stop ∧
      ∃ instr, p.code[b.opener]? = some instr ∧ ∃ j ∈ instr.successors, Γ j = b :: Γ b.opener

/-- What uses a frame or a position has an opening instruction in its block. -/
theorem Typed.exists_opener {tracing : Bool} {p : Program} {Γ : InstrId → Context}
    (hp : Typed tracing p Γ) (hopened : Opened p Γ) {block : Block} (hblock : block ∈ p.blocks)
    {i : InstrId} (hstart : block.start ≤ i) (hstop : i < block.stop) {instr : Instruction}
    (hinstr : p.code[i]? = some instr) (hop : instr.op.usesFrame ∨ instr.op.usesPosition) :
    ∃ b c opener j, Γ i = b :: c ∧ b.closer = i ∧ block.start ≤ b.opener ∧ b.opener < block.stop ∧
      p.code[b.opener]? = some opener ∧ opener.op.pairs instr.op ∧ opener.origin = instr.origin ∧
      opener.next = some j ∧ Γ j = b :: Γ b.opener := by
  obtain ⟨b, c, hb, hcloser, horigin, hcloses⟩ := (hp.fits i instr hinstr).exists_closed hop
  obtain ⟨hstart', hstop', opener, hopener, j, hj, hΓj⟩ :=
    hopened block hblock i hstart hstop b (by rw [hb]; exact List.mem_cons_self)
  obtain ⟨-, horigin', hopens, hnext, -⟩ := (hp.fits _ opener hopener).opens hj hΓj
  refine ⟨b, c, opener, j, hb, hcloser, hstart', hstop', hopener,
    Bracket.Kind.pairs_of_opens hopens hcloses, horigin'.symm.trans horigin,
    hnext fun use huse ↦ ?_, hΓj⟩
  -- nothing closes a guard
  rw [huse] at hcloses
  cases hcloses

/-- The switch of a memo instruction is in its block and leads to a lookup of the same slot. -/
theorem Typed.monitored {tracing : Bool} {p : Program} {Γ : InstrId → Context}
    (hp : Typed tracing p Γ) (hopened : Opened p Γ) {block : Block} (hblock : block ∈ p.blocks)
    {i : InstrId} (hstart : block.start ≤ i) (hstop : i < block.stop) {instr : Instruction}
    (hinstr : p.code[i]? = some instr) {use : MemoUse} (huse : instr.op.memoUse? = some use)
    {m : InstrId} (hm : m ∈ use.monitor) : (block.start ≤ m ∧ m < block.stop) ∧
      ∃ switch activated lookup child onHit onMemoFail, p.code[m]? = some switch ∧
        switch.op = .monitoredSwitch activated ∧ p.code[activated]? = some lookup ∧
        lookup.op = .lookup use child onHit onMemoFail := by
  have hguard := ((hp.fits i instr hinstr).monitor huse).2 m hm
  obtain ⟨hstart', hstop', switch, hswitch, activated, hactivated, hΓ⟩ :=
    hopened block hblock i hstart hstop _ hguard
  obtain ⟨-, -, -, -, hlookup⟩ := (hp.fits m switch hswitch).opens hactivated hΓ
  obtain ⟨lookup, child, onHit, onMemoFail, hop, hget, hrest⟩ := hlookup use rfl
  exact ⟨⟨hstart', hstop'⟩, switch, activated, lookup, child, onHit, onMemoFail, hswitch, hop, hget,
    hrest⟩

/-- The machine is at an instruction and its stacks hold what the context of that stands for. -/
structure StandsAt (p : Program) (Γ : InstrId → Context) (s : State) : Prop where
  /-- The instruction is one. -/
  pc_lt : s.pc < p.size
  /-- The stacks are right. -/
  stands : Stands p Γ (Γ s.pc) s.calls.items s.positions.items s.frames

/-- What a step leads to is no fault, and the stacks are right again. -/
def Step.Fine (p : Program) (Γ : InstrId → Context) : Step → Prop
  | .running s => StandsAt p Γ s
  | .halted _ => True
  | .faulted _ => False

/-- What an operation with fallthrough `next` asks for is no fault, and the stacks are right
there. -/
def Effect.Fine (p : Program) (Γ : InstrId → Context) (next : Option InstrId) : Effect → Prop
  | .next s => ∃ j, next = some j ∧ StandsAt p Γ { s with pc := j }
  | .jump j s => StandsAt p Γ { s with pc := j }
  | .fail s => ∃ c, Stands p Γ c s.calls.items s.positions.items s.frames
  | .accept _ => True
  | .fault _ => False

section

variable {p : Program} {Γ : InstrId → Context} {next : Option InstrId}

/-- A failure leaves the stacks as they were when the newest frame was saved. -/
theorem fine_backtrack {s : State} {c : Context}
    (h : Stands p Γ c s.calls.items s.positions.items s.frames) : (backtrack s).Fine p Γ := by
  unfold backtrack
  rcases hframes : s.frames with - | ⟨f, frames⟩
  · trivial
  · rw [hframes] at h
    obtain ⟨hlt, calls₁, calls₀, positions₁, positions₀, hcalls, hpositions, hfc, hfp, hrest⟩ :=
      h.newest
    refine ⟨hlt, ?_⟩
    dsimp only
    rwa [hfc, hfp, s.calls.items_cut_of_append calls₁ calls₀ hcalls,
      s.positions.items_cut_of_append positions₁ positions₀ hpositions]

/-- Where an effect is no fault, the step that carries it out is none. -/
theorem Effect.Fine.step {effect : Effect} (h : effect.Fine p Γ next) :
    (effect.step next).Fine p Γ := by
  cases effect with
  | next s =>
    obtain ⟨j, rfl, hj⟩ := h
    exact hj
  | jump j s => exact h
  | fail s =>
    obtain ⟨c, hc⟩ := h
    exact fine_backtrack hc
  | accept pos => trivial
  | fault f => exact h

end

/-! ### Executing one instruction -/

section

variable {σ : Type} {α β : Type}

/-- Whatever the buffer holds, the answer of a computation has a property. -/
def Gives (m : StateM σ α) (P : α → Prop) : Prop :=
  ∀ src, P (m src).1

theorem Gives.pure {P : α → Prop} {a : α} (h : P a) : Gives (Pure.pure a : StateM σ α) P :=
  fun _ ↦ h

/-- The answer of two computations has a property if that of the second has it for every first
answer. -/
theorem Gives.bind {P : β → Prop} {m : StateM σ α} {f : α → StateM σ β}
    (h : ∀ a, Gives (f a) P) : Gives (m >>= f) P :=
  fun src ↦ h (m src).1 (m src).2

theorem Gives.imp {P Q : α → Prop} {m : StateM σ α} (h : Gives m P) (hPQ : ∀ a, P a → Q a) :
    Gives m Q :=
  fun src ↦ hPQ _ (h src)

end

/-- The stacks stay, and the operation goes on at the fallthrough or fails. -/
inductive Effect.Keeps (s : State) : Effect → Prop
  | next {s'} (hcalls : s'.calls = s.calls) (hpositions : s'.positions = s.positions)
    (hframes : s'.frames = s.frames) : Effect.Keeps s (.next s')
  | fail : Effect.Keeps s (.fail s)

section

variable {σ : Type} [Buffer σ] {s : State}

/-- Testing the next byte keeps the stacks. -/
theorem gives_consume (test : UInt8 → Bool) (optional : Bool) (s : State) :
    Gives (σ := σ) (consume test optional s) (Effect.Keeps s) := by
  have hpass : Effect.Keeps s (.next { s with pos := s.pos + 1 }) := .next rfl rfl rfl
  have hmiss : Effect.Keeps s (if optional then .next s else .fail s) := by
    split
    · exact .next rfl rfl rfl
    · exact .fail
  refine .bind fun b ↦ ?_
  rcases b with - | b
  · exact .pure hmiss
  · dsimp only
    split
    · exact .pure hpass
    · exact .pure hmiss

/-- Plain operations keep the stacks. -/
theorem gives_perform_plain {op : Opcode} (hop : op.isPlain) (next : Option InstrId) (s : State) :
    Gives (σ := σ) (perform op next s) (Effect.Keeps s) := by
  have hnext {pos : Nat} {parse : ParseState} :
      Effect.Keeps s (.next { s with pos, parse }) := .next rfl rfl rfl
  cases op with
  | byte b optional => exact gives_consume _ optional s
  | byteClass set optional => exact gives_consume _ optional s
  | anyByte =>
    refine .bind fun src ↦ .pure ?_
    split
    · exact hnext
    · exact .fail
  | skipClass set => exact .bind fun src ↦ .bind fun pos ↦ .pure hnext
  | notClass set =>
    refine .bind fun b ↦ ?_
    rcases b with - | b
    · exact .pure hnext
    · refine .pure ?_
      split
      · exact .fail
      · exact hnext
  | notLiteral bytes =>
    refine .bind fun b ↦ .pure ?_
    split
    · exact .fail
    · exact hnext
  | nodePush | nodeStore _ | mark _ | tablePush | tablePop => exact .pure hnext
  | defIndent => exact .bind fun indent ↦ .pure hnext
  | isIndent =>
    refine .bind fun b ↦ ?_
    split
    · exact .pure hnext
    · exact .pure .fail
  | _ => cases hop

/-- What uses the position saved last takes it off and keeps the stacks otherwise. -/
theorem gives_perform_position {op : Opcode} (hop : op.usesPosition) {saved : SavedPosition}
    {rest : List SavedPosition} (hpositions : s.positions.items = saved :: rest)
    (next : Option InstrId) : Gives (σ := σ) (perform op next s) fun effect ↦
      ∃ positions, positions.items = rest ∧ Effect.Keeps { s with positions } effect := by
  obtain ⟨positions, hpop, hitems⟩ := Stack.pop?_of_items_cons hpositions
  have hgo {pos : Nat} {parse : ParseState} :
      Effect.Keeps { s with positions } (.next { s with pos, parse, positions }) :=
    .next rfl rfl rfl
  cases op with
  | posBack =>
    simp only [perform, hpop]
    exact .pure ⟨positions, hitems, hgo⟩
  | defSymbol table =>
    simp only [perform, hpop]
    exact .bind fun text ↦ .pure ⟨positions, hitems, hgo⟩
  | isSymbol table lastOnly =>
    simp only [perform, hpop]
    refine .bind fun text ↦ .pure ⟨positions, hitems, ?_⟩
    split
    · exact hgo
    · exact .fail
  | _ => cases hop

variable {p : Program} {Γ : InstrId → Context} {tracing : Bool}

/-- What keeps the stacks is no fault, where they are right at the fallthrough. -/
theorem Effect.Keeps.fine {effect : Effect} {j : InstrId} (heffect : Effect.Keeps s effect)
    (hlt : j < p.size) (h : Stands p Γ (Γ j) s.calls.items s.positions.items s.frames) :
    effect.Fine p Γ (some j) := by
  cases heffect with
  | next hcalls hpositions hframes =>
    refine ⟨j, rfl, hlt, ?_⟩
    dsimp only
    rwa [hcalls, hpositions, hframes]
  | fail => exact ⟨_, h⟩

/-- With nothing open a return goes to the newest return address, or ends the run. -/
theorem gives_perform_ret (h : Stands p Γ [] s.calls.items s.positions.items s.frames)
    (next : Option InstrId) : Gives (σ := σ) (perform .ret next s) (Effect.Fine p Γ next) := by
  simp only [perform]
  rcases h.exists_call with hcalls | ⟨back, calls, hcalls, hlt, hrest⟩
  · rw [Stack.pop?_of_items_nil hcalls]
    exact .pure trivial
  · obtain ⟨rest, hpop, hitems⟩ := Stack.pop?_of_items_cons hcalls
    rw [hpop]
    refine .pure ⟨hlt, ?_⟩
    dsimp only
    rwa [hitems]

/-- A complete table has an entry for the next byte and for the end of the input. -/
theorem gives_perform_dispatch {table : List InstrId} (hlength : table.length = slotCount)
    (hfine : ∀ target ∈ table, StandsAt p Γ { s with pc := target }) (next : Option InstrId) :
    Gives (σ := σ) (perform (.dispatch table) next s) (Effect.Fine p Γ next) := by
  refine .bind fun b ↦ ?_
  dsimp only
  split
  · rename_i target htarget
    exact .pure (hfine target (List.mem_of_getElem? htarget))
  · rename_i hnone
    have hle := List.getElem?_eq_none_iff.mp hnone
    rw [hlength, slotCount] at hle
    rcases b with - | b
    · exact absurd hle (by decide)
    · exact absurd (Nat.le_trans hle (Nat.le_of_lt b.toNat_lt)) (by decide)

/-- Executing an instruction that fits, where the stacks are right. -/
theorem Typed.gives_perform (hp : Typed tracing p Γ) {instr : Instruction}
    (hinstr : p.code[s.pc]? = some instr)
    (h : Stands p Γ (Γ s.pc) s.calls.items s.positions.items s.frames) :
    Gives (σ := σ) (perform instr.op instr.next s) (Effect.Fine p Γ instr.next) := by
  have hfits := hp.fits s.pc instr hinstr
  have hsuccessor := hp.successor_lt s.pc instr hinstr
  have hlinked := hp.linked s.pc instr
  obtain ⟨op, next, origin, label⟩ := instr
  dsimp only [Instruction.successors] at hfits hsuccessor hlinked ⊢
  have hnext {j : InstrId} (hj : next = some j) : j < p.size :=
    hsuccessor j (List.mem_append_left _ (by rw [hj]; exact List.mem_singleton_self j))
  have hbranch {j : InstrId} (hj : j ∈ op.branches) : j < p.size :=
    hsuccessor j (List.mem_append_right _ hj)
  cases hfits with
  | @plain op j hop hj =>
    rw [← hj] at h
    exact (gives_perform_plain hop (some j) s).imp fun effect heffect ↦ heffect.fine (hnext rfl) h
  | fail => exact .pure ⟨_, h⟩
  | ret hi =>
    rw [hi] at h
    exact gives_perform_ret h none
  | @dispatch table hlength htable =>
    refine gives_perform_dispatch hlength (fun target hmem ↦ ⟨hbranch hmem, ?_⟩) none
    dsimp only
    rwa [htable target hmem]
  | @call rule target j hj htarget =>
    rcases target with - | target
    · exact absurd rfl (hlinked rule hinstr)
    · refine .pure ⟨hbranch (List.mem_singleton_self target), ?_⟩
      dsimp only
      rw [htarget target rfl]
      refine .call (hnext rfl) ?_
      rwa [hj]
  | @switch activated j _ use _ _ _ hj hactivated hlookup hop =>
    refine .pure ⟨hbranch (List.mem_singleton_self activated), ?_⟩
    dsimp only
    rw [hactivated]
    exact .guard rfl h
  | @failPush onFail j closer hj hfail =>
    refine .pure ⟨j, rfl, hnext rfl, ?_⟩
    dsimp only
    rw [hj]
    exact .frame rfl rfl s.calls.height_eq s.positions.height_eq
      (hbranch (List.mem_singleton_self onFail)) hfail h
  | @failPop opener j hi =>
    rw [hi] at h
    obtain ⟨f, rest, hframes, -, -, -, -, -, hrest⟩ := h.exists_frame rfl
    refine .pure ⟨j, rfl, hnext rfl, ?_⟩
    dsimp only
    rwa [hframes]
  | @failSkip guarded opener c j hi hj =>
    rw [hi] at h hj
    obtain ⟨f, rest, hframes, howner, hcalls, hpositions, hlt, hfail, hrest⟩ := h.exists_frame rfl
    simp only [perform, hframes]
    split
    · refine .pure ⟨hlt, ?_⟩
      dsimp only
      rwa [hfail]
    · refine .pure ⟨j, rfl, hnext rfl, ?_⟩
      dsimp only
      rw [hj]
      exact .frame rfl howner hcalls hpositions hlt hfail hrest
  | @posPush j closer hj =>
    refine .pure ⟨j, rfl, hnext rfl, ?_⟩
    dsimp only
    rw [hj]
    exact .position rfl rfl h
  | @position op opener j hop hi =>
    rw [hi] at h
    obtain ⟨saved, rest, hpositions, -, hrest⟩ := h.exists_position rfl
    refine (gives_perform_position hop hpositions (some j)).imp fun effect hkeeps ↦ ?_
    obtain ⟨positions, rfl, heffect⟩ := hkeeps
    exact heffect.fine (hnext rfl) hrest
  | @lookup use child onHit onMemoFail j closer hmonitor hi hfail hj =>
    simp only [perform]
    split
    · refine .pure ⟨hbranch List.mem_cons_self, ?_⟩
      rw [hi] at h
      exact (Stands.guards_iff use origin).mp h
    · exact .pure ⟨_, h⟩
    · refine .pure ⟨j, rfl, hnext rfl, ?_⟩
      dsimp only
      rw [hj]
      exact .frame rfl rfl s.calls.height_eq s.positions.height_eq
        (hbranch (List.mem_cons_of_mem _ (List.mem_singleton_self _))) hfail h
  | @memoize use child opener j hmonitor hi =>
    rw [hi] at h
    obtain ⟨f, rest, hframes, -, -, -, -, -, hrest⟩ := h.exists_frame rfl
    simp only [perform, hframes]
    exact .pure ⟨j, rfl, hnext rfl, (Stands.guards_iff use origin).mp hrest⟩
  | memoizeFail hmonitor hi => exact .pure ⟨_, h⟩

/-! ### Steps and runs -/

/-- A step of a typed program is no fault and keeps the stacks right. -/
theorem Typed.stands_step (hp : Typed tracing p Γ) (h : StandsAt p Γ s) :
    Gives (σ := σ) (step p s) (Step.Fine p Γ) := by
  intro src
  obtain ⟨instr, hget⟩ : ∃ instr, p.code[s.pc]? = some instr :=
    ⟨_, Array.getElem?_eq_getElem h.pc_lt⟩
  unfold step
  rw [hget]
  exact (hp.gives_perform hget h.stands src).step

/-- Nothing is on the stacks at the start. -/
theorem Typed.stands_start (hp : Typed tracing p Γ) : StandsAt p Γ (start p) where
  pc_lt := hp.entry_lt
  stands := by
    change Stands p Γ (Γ p.entry) [] [] []
    rw [hp.entry_eq]
    exact .start

/-- The states that the machine comes through. -/
inductive Reached (p : Program) (src : σ) : State → σ → Prop
  | start : Reached p src (start p) src
  | step {s s' t t'} (h : Reached p src s t) (hstep : Machine.step p s t = (.running s', t')) :
    Reached p src s' t'

/-- The stacks are right throughout a run. -/
theorem Typed.stands_of_reached (hp : Typed tracing p Γ) {src t : σ} (h : Reached p src s t) :
    StandsAt p Γ s := by
  induction h with
  | start => exact hp.stands_start
  | @step s s' t t' _ hstep ih =>
    have hfine := hp.stands_step ih t
    rwa [hstep] at hfine

/-- A run of a typed program ends with an outcome, whatever its length. -/
theorem Typed.exists_outcome (hp : Typed tracing p Γ) (limit : Nat) (src : σ) :
    ∃ o, (runOn limit p src).ending = .outcome o := by
  have key (n : Nat) : ∀ s executed (t : σ), StandsAt p Γ s →
      ∃ o, (runFrom p n s executed t).1.ending = .outcome o := by
    induction n with
    | zero => exact fun s executed t _ ↦ ⟨_, rfl⟩
    | succ n ih =>
      intro s executed t hs
      have hfine := hp.stands_step hs t
      rw [runFrom]
      rcases hstep : Machine.step p s t with ⟨s' | o | f, t'⟩
      · rw [hstep] at hfine
        exact ih s' _ t' hfine
      · exact ⟨o, rfl⟩
      · rw [hstep] at hfine
        exact hfine.elim
  exact key limit _ _ _ hp.stands_start

end

end Machine

end ParsingMachine
