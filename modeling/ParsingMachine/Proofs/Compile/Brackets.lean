import ParsingMachine.Proofs.Compile.Encode
import ParsingMachine.Proofs.Grammar.Passes
import ParsingMachine.Proofs.Machine.Brackets

/-!
# Encoded code is typed

The instructions that encoding makes have contexts that fit (`Machine.Fits`). All code of one level
has the same context: when the continuation has it, so has the code that is answered
(`Encoder.types_encode`). An encoder that opens a bracket encodes its operand on a level of its own,
and may do so before the instruction that opens the bracket is made.

This asks nothing of the grammar but that its jump tables are complete (`Grammar.FullTables`).

Code is made from its end, so the context of an instruction is not known when it is made: the
brackets around it are opened by instructions that come later, and a bracket names the instructions
that open and close it. Therefore contexts are given afterwards. What was made between two sessions
can be typed if for every context of the level there are contexts for the new instructions with
which these fit, in whatever arena holds them and whatever contexts other code has
(`Session.Typable`). The caller chooses the context when it has made the opening instruction, and
the parts are put together as functions on disjoint ranges of ids (`Encoder.exists_contexts`).

A level is a list of instructions that have the same context. What is answered comes to be on the
level, and further code may be encoded with that as its continuation (`Encoder.Types.bind`). Answers
that are no instruction stand for none, and the answer for a jump table stands for one per slot.

A memoized path is not on the level of its continuation but behind a guard, which the switch in
front of it opens. Its shape is stated apart (`Session.TypablePath`), and the switch brings it back
to the level, together with the plain path (`Encoder.typable_switch`).

Calls fit with nothing open in the callee; they are linked later.

## Main statements

* `Types.bind`: encoders that make typed code, one after the other.
* `types_bracket`, `types_loop`: an operand between the two instructions of a bracket.
* `types_memoizedCode`: a memoized path, with or without a switch.
* `types_nodeCode`: one node, if other nodes are encoded that way.
* `types_encode`: encoding makes typed code, at every depth.
-/

namespace ParsingMachine

open Machine

/-! ### What encoding leaves alone -/

/-- A session and what encoding made of it: instructions are appended. -/
structure Session.Emits (s s' : Session) : Prop where
  /-- Instructions are only added. -/
  size_le : s.code.instrs.size ≤ s'.code.instrs.size
  /-- Old instructions stay as they are. -/
  instrs_eq : ∀ i < s.code.instrs.size, s'.code.instrs[i]? = s.code.instrs[i]?
  /-- Nothing is placed. -/
  order_eq : s'.code.order = s.code.order
  /-- No block is finished. -/
  blocks_eq : s'.blocks = s.blocks
  /-- The options stay. -/
  options_eq : s'.options = s.options
  /-- The grammar keeps what simplifying and factoring keep. -/
  keeps : ∀ P, Grammar.Enduring P → P s.grammar → P s'.grammar

/-- The arena holds what was made on the way from one session to another. -/
def Session.Holds (s s' : Session) (arena : Array Instruction) : Prop :=
  ∀ i, s.code.instrs.size ≤ i → i < s'.code.instrs.size → arena[i]? = s'.code.instrs[i]?

namespace Session

variable {s s₁ s₂ : Session} {arena : Array Instruction}

theorem Emits.refl (s : Session) : s.Emits s :=
  ⟨Nat.le_refl _, fun _ _ ↦ rfl, rfl, rfl, rfl, fun _ _ ↦ id⟩

theorem Emits.trans (h : s.Emits s₁) (h' : s₁.Emits s₂) : s.Emits s₂ where
  size_le := Nat.le_trans h.size_le h'.size_le
  instrs_eq i hi := by
    rw [h'.instrs_eq i (Nat.lt_of_lt_of_le hi h.size_le), h.instrs_eq i hi]
  order_eq := h'.order_eq.trans h.order_eq
  blocks_eq := h'.blocks_eq.trans h.blocks_eq
  options_eq := h'.options_eq.trans h.options_eq
  keeps P hP hs := h'.keeps P hP (h.keeps P hP hs)

/-- Jump tables stay complete. -/
theorem Emits.fullTables (h : s.Emits s₁) (hs : s.grammar.FullTables) : s₁.grammar.FullTables :=
  h.keeps _ Grammar.lasting_fullTables.toEnduring hs

theorem Holds.left (h : s.Holds s₂ arena) (h₂ : s₁.Emits s₂) : s.Holds s₁ arena := by
  intro i hi hlt
  rw [h i hi (Nat.lt_of_lt_of_le hlt h₂.size_le), h₂.instrs_eq i hlt]

theorem Holds.right (h : s.Holds s₂ arena) (h₁ : s.Emits s₁) : s₁.Holds s₂ arena :=
  fun i hi hlt ↦ h i (Nat.le_trans h₁.size_le hi) hlt

end Session

/-! ### Typed code -/

/-- The instruction at a place fits, and leads to instructions between `bot` and `top`; calls are
not linked yet. -/
def Machine.FitsAt (tracing : Bool) (arena : Array Instruction) (Γ : InstrId → Context)
    (bot top i : Nat) : Prop :=
  ∃ instr, arena[i]? = some instr ∧ Fits tracing arena Γ i instr.origin instr.op instr.next ∧
    (∀ j ∈ instr.successors, bot ≤ j ∧ j < top) ∧
    ∀ rule target, instr.op = .call rule target → target = none

/-- What fits in a part of the arena fits in a larger one. -/
theorem Machine.FitsAt.mono {tracing : Bool} {arena : Array Instruction} {Γ : InstrId → Context}
    {bot top top' i : Nat} (h : FitsAt tracing arena Γ bot top i) (htop : top ≤ top') :
    FitsAt tracing arena Γ bot top' i := by
  obtain ⟨instr, hinstr, hfits, hsuccessor, hcall⟩ := h
  refine ⟨instr, hinstr, hfits, fun j hj ↦ ?_, hcall⟩
  obtain ⟨hbot, hlt⟩ := hsuccessor j hj
  exact ⟨hbot, Nat.lt_of_lt_of_le hlt htop⟩

/-- Instructions of one level: they have the same context. -/
def Machine.Level (Γ : InstrId → Context) (bot : Nat) (c : Context) (level : List InstrId) : Prop :=
  ∀ j ∈ level, bot ≤ j ∧ Γ j = c

/-- What was made on the way from one session to another can be given contexts, so that `ids` come
to be on the same level as `level`. -/
def Session.Typable (s s' : Session) (level ids : List InstrId) : Prop :=
  ∀ c, ∃ contexts : InstrId → Context, ∀ arena Γ bot, bot ≤ s.code.instrs.size →
    s.Holds s' arena → Level Γ bot c level →
    (∀ i, s.code.instrs.size ≤ i → i < s'.code.instrs.size → Γ i = contexts i) →
    (∀ j ∈ ids, Γ j = c) ∧
      ∀ i, s.code.instrs.size ≤ i → i < s'.code.instrs.size →
        FitsAt s.options.tracing arena Γ bot s'.code.instrs.size i

/-- What was made for a memoized path can be given contexts, so that its lookup is behind the guard
of the memo and leads on to what is not. -/
def Session.TypablePath (s s' : Session) (use : MemoUse) (e : ExprId) (next lookup : InstrId) :
    Prop :=
  ∀ c, ∃ contexts : InstrId → Context, ∀ arena Γ bot, bot ≤ s.code.instrs.size →
    s.Holds s' arena → bot ≤ next → Γ next = c →
    (∀ i, s.code.instrs.size ≤ i → i < s'.code.instrs.size → Γ i = contexts i) →
    Γ lookup = guards use e ++ c ∧
      ∀ i, s.code.instrs.size ≤ i → i < s'.code.instrs.size →
        FitsAt s.options.tracing arena Γ bot s'.code.instrs.size i

namespace Encoder

variable {α β : Type} {s : Session} {e : ExprId} {next : InstrId} {level : List InstrId}

/-- The encoder makes typed code. Its answer stands for the instructions `ids`, which are on the
level or new and come to be on it. -/
def Types (level : List InstrId) (m : Encoder α) (ids : α → List InstrId) (s : Session) : Prop :=
  (∀ j ∈ level, j < s.code.instrs.size) → s.grammar.FullTables → ∀ a s', m s = some (a, s') →
    s.Emits s' ∧ (∀ j ∈ ids a, j ∈ level ∨ s.code.instrs.size ≤ j ∧ j < s'.code.instrs.size) ∧
      s.Typable s' level (ids a)

/-- The instructions that an answered instruction stands for. -/
abbrev here : InstrId → List InstrId := fun pc ↦ [pc]

/-- The instructions that an answer stands for that is no instruction. -/
abbrev nowhere : α → List InstrId := fun _ ↦ []

/-- What is answered may be continued with, next to the level. -/
theorem Types.bind {m : Encoder α} {f : α → Encoder β} {ids : α → List InstrId}
    {ids' : β → List InstrId} (hm : Types level m ids s)
    (hf : ∀ a s₁, m s = some (a, s₁) → Types (ids a ++ level) (f a) ids' s₁) :
    Types level (m >>= f) ids' s := by
  intro hlevel htables b s₂ h
  obtain ⟨a, s₁, h₁, h₂⟩ := bind_eq_some h
  obtain ⟨hemits, hids, htypes⟩ := hm hlevel htables a s₁ h₁
  have hlevel' (j : InstrId) (hj : j ∈ ids a ++ level) : j < s₁.code.instrs.size := by
    rcases List.mem_append.mp hj with hj | hj
    · rcases hids j hj with hj | hj
      · exact Nat.lt_of_lt_of_le (hlevel j hj) hemits.size_le
      · exact hj.2
    · exact Nat.lt_of_lt_of_le (hlevel j hj) hemits.size_le
  obtain ⟨hemits', hids', htypes'⟩ := hf a s₁ h₁ hlevel' (hemits.fullTables htables) b s₂ h₂
  have hsize := hemits.size_le
  have hsize' := hemits'.size_le
  refine ⟨hemits.trans hemits', fun j hj ↦ ?_, fun c ↦ ?_⟩
  · rcases hids' j hj with hj | hj
    · rcases List.mem_append.mp hj with hj | hj
      · exact (hids j hj).imp_right fun h ↦ ⟨h.1, Nat.lt_of_lt_of_le h.2 hsize'⟩
      · exact .inl hj
    · exact .inr ⟨Nat.le_trans hsize hj.1, hj.2⟩
  · obtain ⟨cs, hcs⟩ := htypes c
    obtain ⟨cs', hcs'⟩ := htypes' c
    refine ⟨fun i ↦ if i < s₁.code.instrs.size then cs i else cs' i,
      fun arena Γ bot hbot harena hc hΓ ↦ ?_⟩
    obtain ⟨hids_eq, hfits⟩ := hcs arena Γ bot hbot (harena.left hemits') hc fun i hi hlt ↦
      (hΓ i hi (Nat.lt_of_lt_of_le hlt hsize')).trans (if_pos hlt)
    have hc' : Level Γ bot c (ids a ++ level) := by
      intro j hj
      rcases List.mem_append.mp hj with hj | hj
      · refine ⟨?_, hids_eq j hj⟩
        rcases hids j hj with hj | hj
        · exact (hc j hj).1
        · exact Nat.le_trans hbot hj.1
      · exact hc j hj
    obtain ⟨hids_eq', hfits'⟩ := hcs' arena Γ bot (Nat.le_trans hbot hsize) (harena.right hemits)
      hc' fun i hi hlt ↦
        (hΓ i (Nat.le_trans hsize hi) hlt).trans (if_neg (Nat.not_lt_of_le hi))
    refine ⟨hids_eq', fun i hi hlt ↦ ?_⟩
    by_cases hi₁ : i < s₁.code.instrs.size
    · exact (hfits i hi hi₁).mono hsize'
    · rw [← hemits.options_eq]
      exact hfits' i (Nat.le_of_not_lt hi₁) hlt

/-- A larger level serves as well. -/
theorem Types.mono {m : Encoder α} {ids : α → List InstrId} {level' : List InstrId}
    (h : Types level m ids s) (hsub : level ⊆ level') : Types level' m ids s := by
  intro hlevel htables a s' hrun
  obtain ⟨hemits, hids, htypes⟩ := h (fun j hj ↦ hlevel j (hsub hj)) htables a s' hrun
  refine ⟨hemits, fun j hj ↦ (hids j hj).imp_left (hsub ·), fun c ↦ ?_⟩
  obtain ⟨cs, hcs⟩ := htypes c
  exact ⟨cs, fun arena Γ bot hbot harena hc ↦
    hcs arena Γ bot hbot harena fun j hj ↦ hc j (hsub hj)⟩

/-- Nothing is made, so the answer has to be on the level. -/
theorem Types.pure {ids : α → List InstrId} {a : α} (ha : ids a ⊆ level) :
    Types level (Pure.pure a) ids s := by
  intro _ _ b s' h
  cases h
  refine ⟨.refl _, fun j hj ↦ .inl (ha hj), fun c ↦ ⟨fun _ ↦ [], fun arena Γ bot _ _ hc _ ↦
    ⟨fun j hj ↦ (hc j (ha hj)).2, fun i hi hlt ↦ absurd hi (Nat.not_le_of_lt hlt)⟩⟩⟩

/-- Reading the options. -/
theorem Types.options {f : Options → Encoder β} {ids : β → List InstrId}
    (hf : Types level (f s.options) ids s) : Types level (Encoder.options >>= f) ids s :=
  hf

/-- Reading the grammar. -/
theorem Types.grammar {f : Grammar → Encoder β} {ids : β → List InstrId}
    (hf : Types level (f s.grammar) ids s) : Types level (Encoder.grammar >>= f) ids s :=
  hf

/-- What makes no instructions makes typed code. -/
theorem Types.of_code_eq {m : Encoder α} (h : ∀ a s', m s = some (a, s') → s'.code = s.code ∧
      s'.blocks = s.blocks ∧ s'.options = s.options ∧
      ∀ P, Grammar.Enduring P → P s.grammar → P s'.grammar) :
    Types level m nowhere s := by
  intro _ _ a s' hrun
  obtain ⟨hcode, hblocks, hoptions, hkeeps⟩ := h a s' hrun
  refine ⟨⟨Nat.le_of_eq (by rw [hcode]), fun i _ ↦ by rw [hcode], by rw [hcode], hblocks,
    hoptions, hkeeps⟩,
    fun j hj ↦ (nomatch hj), fun c ↦ ⟨fun _ ↦ [], fun arena Γ bot _ _ _ _ ↦
      ⟨fun j hj ↦ (nomatch hj), fun i hi hlt ↦ ?_⟩⟩⟩
  rw [hcode] at hlt
  exact absurd hi (Nat.not_le_of_lt hlt)

/-! ### Making one instruction -/

/-- One instruction is appended. -/
theorem emits_emitWith {op : Opcode} {next : Option InstrId} {i : InstrId} {s' : Session}
    (h : emitWith op next e s = some (i, s')) : s.Emits s' ∧ i = s.code.instrs.size ∧
      s'.code.instrs.size = s.code.instrs.size + 1 ∧
      s'.code.instrs[i]? = some { op, next, origin := e } := by
  cases h
  refine ⟨⟨?_, fun i hi ↦ ?_, rfl, rfl, rfl, fun _ _ ↦ id⟩, rfl, by simp [Code.push],
    by simp [Code.push]⟩
  · simp [Code.push]
  · have hne : i ≠ s.code.instrs.size := Nat.ne_of_lt hi
    simp [Code.push, Array.getElem?_push, hne]

/-- An instruction that fits when it is on the level. -/
theorem types_emitWith {op : Opcode} {next : Option InstrId}
    (hsuccessor : ∀ j ∈ next.toList ++ op.branches, j ∈ level)
    (hcall : ∀ rule target, op = .call rule target → target = none)
    (hfits : ∀ arena Γ c i, (∀ j ∈ level, Γ j = c) → Γ i = c →
      Fits s.options.tracing arena Γ i e op next) :
    Types level (emitWith op next e) here s := by
  intro hlevel _ i s' h
  obtain ⟨hemits, rfl, hsize, hinstr⟩ := emits_emitWith h
  have hlast : s.code.instrs.size < s'.code.instrs.size := by
    rw [hsize]
    exact Nat.lt_succ_self _
  refine ⟨hemits, fun j hj ↦ ?_, fun c ↦ ⟨fun _ ↦ c, fun arena Γ bot hbot harena hc hΓ ↦ ?_⟩⟩
  · rw [List.mem_singleton.mp hj]
    exact .inr ⟨Nat.le_refl _, hlast⟩
  · have hself : Γ s.code.instrs.size = c := hΓ _ (Nat.le_refl _) hlast
    refine ⟨fun j hj ↦ by rw [List.mem_singleton.mp hj, hself], fun i hi hlt ↦ ?_⟩
    obtain rfl : i = s.code.instrs.size := by omega
    refine ⟨_, (harena _ hi hlt).trans hinstr, hfits arena Γ c _ (fun j hj ↦ (hc j hj).2) hself,
      fun j hj ↦ ?_, hcall⟩
    have hj := hsuccessor j hj
    exact ⟨(hc j hj).1, Nat.lt_trans (hlevel j hj) hlast⟩

/-- An operation that neither opens nor closes a bracket is on the level of what follows. -/
theorem types_emit_plain {op : Opcode} (hop : op.isPlain) (hnext : next ∈ level) :
    Types level (emit op next e) here s := by
  refine types_emitWith (fun j hj ↦ ?_) (fun rule target h ↦ ?_) fun arena Γ c i hc hi ↦ ?_
  · rw [Fits.branches_of_isPlain hop] at hj
    rwa [List.mem_singleton.mp hj]
  · rw [h] at hop
    cases hop
  · exact .plain hop ((hc next hnext).trans hi.symm)

/-- A call is on the level of the instruction to which it returns. -/
theorem types_emit_call {rule : RuleId} (hnext : next ∈ level) :
    Types level (emit (.call rule none) next e) here s := by
  refine types_emitWith (fun j hj ↦ ?_) (fun rule target h ↦ ?_) fun arena Γ c i hc hi ↦ ?_
  · rwa [List.mem_singleton.mp hj]
  · cases h
    rfl
  · exact .call ((hc next hnext).trans hi.symm) fun t ht ↦ (nomatch ht)

/-- What leads nowhere is on every level. -/
theorem types_emitEnd_fail : Types level (emitEnd .fail e) here s :=
  types_emitWith (fun _ h ↦ nomatch h) (fun _ _ h ↦ nomatch h) fun _ _ _ _ _ _ ↦ .fail

/-- A complete table leads to instructions of one level. -/
theorem types_emitEnd_dispatch {table : List InstrId} (hlength : table.length = slotCount)
    (htable : ∀ j ∈ table, j ∈ level) : Types level (emitEnd (.dispatch table) e) here s :=
  types_emitWith htable (fun _ _ h ↦ nomatch h) fun _ _ _ _ hc hi ↦
    .dispatch hlength fun j hj ↦ (hc j (htable j hj)).trans hi.symm

/-! ### Brackets -/

/-- What was encoded between the two instructions of a bracket can be given contexts in which the
bracket is open; the closing instruction was made before, and what was made afterwards has the
context around. -/
theorem exists_contexts {s₁ s₂ : Session} {a body : Nat} (h : s₁.Typable s₂ [a] [body])
    (hsize : s₁.code.instrs.size = a + 1) (hle : s₁.code.instrs.size ≤ s₂.code.instrs.size)
    (b : Bracket) (c : Context) :
    ∃ contexts : InstrId → Context, ∀ arena Γ (bot top : Nat), bot ≤ a → s₁.Holds s₂ arena →
      s₂.code.instrs.size ≤ top → (∀ i : Nat, a ≤ i → i < top → Γ i = contexts i) →
      Γ a = b :: c ∧ Γ body = b :: c ∧ (∀ i, s₂.code.instrs.size ≤ i → i < top → Γ i = c) ∧
        ∀ i, s₁.code.instrs.size ≤ i → i < s₂.code.instrs.size →
          FitsAt s₁.options.tracing arena Γ bot s₂.code.instrs.size i := by
  obtain ⟨cs, hcs⟩ := h (b :: c)
  refine ⟨fun i : Nat ↦ if i = a then b :: c else if i < s₂.code.instrs.size then cs i else c,
    fun arena Γ bot top hbot harena htop hΓ ↦ ?_⟩
  have ha : Γ a = b :: c := (hΓ a (Nat.le_refl a) (by omega)).trans (if_pos rfl)
  have htail (i : Nat) (hi : s₂.code.instrs.size ≤ i) (hlt : i < top) : Γ i = c := by
    rw [hΓ i (by omega) hlt]
    exact (if_neg (by omega)).trans (if_neg (Nat.not_lt_of_le hi))
  obtain ⟨hbody, hfits⟩ := hcs arena Γ bot (by omega) harena
    (fun j hj ↦ by rw [List.mem_singleton.mp hj]; exact ⟨hbot, ha⟩) fun i hi hlt ↦ by
      rw [hΓ i (by omega) (by omega)]
      exact (if_neg (by omega)).trans (if_pos hlt)
  exact ⟨ha, hbody body (List.mem_singleton_self body), htail, hfits⟩

/-- The operand of a bracket and the two instructions around it, when both fit. -/
theorem typable_bracket {s₁ s₂ s₃ : Session} {body : Nat} (b : Bracket)
    (htypes : s₁.Typable s₂ [s.code.instrs.size] [body])
    (hsize₁ : s₁.code.instrs.size = s.code.instrs.size + 1)
    (hle : s₁.code.instrs.size ≤ s₂.code.instrs.size)
    (hsize₃ : s₃.code.instrs.size = s₂.code.instrs.size + 1) (hoptions : s₁.options = s.options)
    (hkeep : ∀ i, s₁.code.instrs.size ≤ i → i < s₂.code.instrs.size →
      s₃.code.instrs[i]? = s₂.code.instrs[i]?)
    (hfits : ∀ arena Γ bot c, bot ≤ s.code.instrs.size → s.Holds s₃ arena → Level Γ bot c level →
      Γ s.code.instrs.size = b :: c → Γ body = b :: c → Γ s₂.code.instrs.size = c →
      FitsAt s.options.tracing arena Γ bot s₃.code.instrs.size s.code.instrs.size ∧
        FitsAt s.options.tracing arena Γ bot s₃.code.instrs.size s₂.code.instrs.size) :
    s.Typable s₃ level [s₂.code.instrs.size] := by
  intro c
  obtain ⟨contexts, hcontexts⟩ := exists_contexts htypes hsize₁ hle b c
  refine ⟨contexts, fun arena Γ bot hbot harena hc hΓ ↦ ?_⟩
  have hinner : s₁.Holds s₂ arena := fun i hi hlt ↦
    (harena i (by omega) (by omega)).trans (hkeep i hi hlt)
  obtain ⟨ha, hbody, htail, hrest⟩ := hcontexts arena Γ bot s₃.code.instrs.size hbot hinner
    (by omega) hΓ
  have ho := htail _ (Nat.le_refl _) (by omega)
  obtain ⟨hclosing, hopening⟩ := hfits arena Γ bot c hbot harena hc ha hbody ho
  refine ⟨fun j hj ↦ by rw [List.mem_singleton.mp hj, ho], fun i hi hlt ↦ ?_⟩
  rcases Nat.eq_or_lt_of_le hi with rfl | hi
  · exact hclosing
  · rcases Nat.lt_or_ge i s₂.code.instrs.size with hi₂ | hi₂
    · rw [← hoptions]
      exact (hrest i (by omega) hi₂).mono (by omega)
    · obtain rfl : i = s₂.code.instrs.size := by omega
      exact hopening

/-- Encoders that encode operands on a level of their own. -/
def TypesAll (inside : InstrId → Encoder InstrId) : Prop :=
  ∀ (s : Session) (next : InstrId), Types [next] (inside next) here s

/-- Encoding an operand of which the closing instruction has just been made. -/
theorem TypesAll.run {inside : InstrId → Encoder InstrId} (hinside : TypesAll inside)
    {s₁ s₂ : Session} {body : Nat} (hsize : s₁.code.instrs.size = s.code.instrs.size + 1)
    (htables : s₁.grammar.FullTables) (h : inside s.code.instrs.size s₁ = some (body, s₂)) :
    s₁.Emits s₂ ∧ s.code.instrs.size ≤ body ∧ body < s₂.code.instrs.size ∧
      s₁.Typable s₂ [s.code.instrs.size] [body] := by
  obtain ⟨hemits, hbody, htypes⟩ := hinside s₁ _
    (fun j hj ↦ by rw [List.mem_singleton.mp hj, hsize]; exact Nat.lt_succ_self _) htables body s₂ h
  have hle := hemits.size_le
  refine ⟨hemits, ?_, ?_, htypes⟩
  · rcases hbody body (List.mem_singleton_self body) with hbody | hbody
    · exact Nat.le_of_eq (List.mem_singleton.mp hbody).symm
    · exact Nat.le_trans (by omega) hbody.1
  · rcases hbody body (List.mem_singleton_self body) with hbody | hbody
    · rw [List.mem_singleton.mp hbody]
      exact Nat.lt_of_lt_of_le (by omega) hle
    · exact hbody.2

/-- An operand between two instructions, of which the second one is made first. -/
theorem types_bracket (kind : Bracket.Kind) {opening closing : Opcode}
    {inside : InstrId → Encoder InstrId} (hinside : TypesAll inside) (hnext : next ∈ level)
    (hopens : kind.opens opening) (hcloses : kind.closes closing)
    (hbranches : ∀ j ∈ opening.branches, j ∈ level)
    (hopening : ∀ arena Γ c a o body, (∀ j ∈ level, Γ j = c) → Γ o = c →
      Γ body = ⟨kind, o, a, e⟩ :: c → Fits s.options.tracing arena Γ o e opening (some body))
    (hclosing : ∀ arena Γ c a o, (∀ j ∈ level, Γ j = c) → Γ a = ⟨kind, o, a, e⟩ :: c →
      Fits s.options.tracing arena Γ a e closing (some next)) :
    Types level (do
      let a ← emit closing next e
      let body ← inside a
      emit opening body e) here s := by
  intro hlevel htables (o : Nat) s₃ h
  obtain ⟨(a : Nat), s₁, h₁, h⟩ := bind_eq_some h
  obtain ⟨(body : Nat), s₂, h₂, h₃⟩ := bind_eq_some h
  obtain ⟨hemits₁, rfl, hsize₁, hinstr₁⟩ := emits_emitWith h₁
  obtain ⟨hemits₂, hbody_le, hbody_lt, htypes⟩ := hinside.run hsize₁ (hemits₁.fullTables htables) h₂
  obtain ⟨hemits₃, rfl, hsize₃, hinstr₃⟩ := emits_emitWith h₃
  have hle := hemits₂.size_le
  have hlast : s₂.code.instrs.size < s₃.code.instrs.size := by
    rw [hsize₃]
    exact Nat.lt_succ_self _
  refine ⟨hemits₁.trans (hemits₂.trans hemits₃), fun j hj ↦ ?_, ?_⟩
  · rw [List.mem_singleton.mp hj]
    exact .inr ⟨Nat.le_trans hemits₁.size_le hle, hlast⟩
  · refine typable_bracket ⟨kind, s₂.code.instrs.size, s.code.instrs.size, e⟩ htypes hsize₁ hle
      hsize₃ hemits₁.options_eq (fun i _ hi ↦ hemits₃.instrs_eq i hi)
      fun arena Γ bot c hbot harena hc ha hbody ho ↦ ⟨?_, ?_⟩
    · have hinstr : s₃.code.instrs[s.code.instrs.size]? =
          some { op := closing, next := some next, origin := e } := by
        rw [hemits₃.instrs_eq _ (by omega), hemits₂.instrs_eq _ (by omega), hinstr₁]
      refine ⟨_, (harena _ (Nat.le_refl _) (by omega)).trans hinstr,
        hclosing arena Γ c _ _ (fun j hj ↦ (hc j hj).2) ha, fun j hj ↦ ?_, fun rule target hop ↦ ?_⟩
      · rw [Instruction.successors, Bracket.Kind.branches_of_closes hcloses] at hj
        rw [List.mem_singleton.mp hj]
        exact ⟨(hc next hnext).1, Nat.lt_trans (hlevel next hnext) (by omega)⟩
      · dsimp only at hop
        subst hop
        cases kind <;> cases hcloses
    · refine ⟨_, (harena _ (by omega) hlast).trans hinstr₃,
        hopening arena Γ c _ _ body (fun j hj ↦ (hc j hj).2) ho hbody, fun j hj ↦ ?_,
        fun rule target hop ↦ ?_⟩
      · rcases List.mem_cons.mp hj with rfl | hj
        · exact ⟨Nat.le_trans hbot hbody_le, Nat.lt_trans hbody_lt hlast⟩
        · have hj := hbranches j hj
          exact ⟨(hc j hj).1, Nat.lt_trans (hlevel j hj) (by omega)⟩
      · dsimp only at hop
        subst hop
        cases kind <;> cases hopens

/-- Replacing an instruction that was made on the way. -/
theorem emits_modify {s₁ s' : Session} (h : s.Emits s₁) {i : Nat} (hi : s.code.instrs.size ≤ i)
    {f : Instruction → Instruction} {u : Unit} (hrun : (modify fun s ↦ { s with
      code := { s.code with instrs := s.code.instrs.modify i f } } : Encoder Unit) s₁ =
        some (u, s')) :
    s.Emits s' ∧ s'.code.instrs.size = s₁.code.instrs.size ∧ ∀ j : Nat, s'.code.instrs[j]? =
      if i = j then s₁.code.instrs[j]?.map f else s₁.code.instrs[j]? := by
  cases hrun
  refine ⟨⟨?_, fun j hj ↦ ?_, h.order_eq, h.blocks_eq, h.options_eq, h.keeps⟩, Array.size_modify,
    fun j ↦ Array.getElem?_modify⟩
  · simpa using h.size_le
  · rw [Array.getElem?_modify, if_neg (Nat.ne_of_gt (Nat.lt_of_lt_of_le hj hi))]
    exact h.instrs_eq j hj

/-- A loop: the closing instruction leads back to where the operand starts. -/
theorem types_loop {guarded : Bool} {inside : InstrId → Encoder InstrId}
    (hinside : TypesAll inside) (hnext : next ∈ level) :
    Types level (do
      let skip ← emitEnd (.failSkip guarded) e
      let start ← inside skip
      patchNext skip start
      emit (.failPush next) start e) here s := by
  intro hlevel htables (o : Nat) s₄ h
  obtain ⟨(skip : Nat), s₁, h₁, h⟩ := bind_eq_some h
  obtain ⟨(start : Nat), s₂, h₂, h⟩ := bind_eq_some h
  obtain ⟨_, s₃, h₃, h₄⟩ := bind_eq_some h
  obtain ⟨hemits₁, rfl, hsize₁, hinstr₁⟩ := emits_emitWith h₁
  obtain ⟨hemits₂, hstart_le, hstart_lt, htypes⟩ :=
    hinside.run hsize₁ (hemits₁.fullTables htables) h₂
  -- of the new instructions only the first is changed
  obtain ⟨hemits₃, hsize₃, hpatched⟩ := emits_modify (hemits₁.trans hemits₂) (Nat.le_refl _)
    (f := ({ · with next := some start })) h₃
  obtain ⟨hemits₄, rfl, hsize₄, hinstr₄⟩ := emits_emitWith h₄
  rw [hsize₃] at hinstr₄ hsize₄ ⊢
  have hle := hemits₂.size_le
  have hlast : s₂.code.instrs.size < s₄.code.instrs.size := by omega
  refine ⟨hemits₃.trans hemits₄, fun j hj ↦ ?_, ?_⟩
  · rw [List.mem_singleton.mp hj]
    exact .inr ⟨Nat.le_trans hemits₁.size_le hle, hlast⟩
  · refine typable_bracket ⟨.frame, s₂.code.instrs.size, s.code.instrs.size, e⟩ htypes hsize₁ hle
      hsize₄ hemits₁.options_eq (fun i hi hlt ↦ ?_)
      fun arena Γ bot c hbot harena hc ha hbody ho ↦ ⟨?_, ?_⟩
    · rw [hemits₄.instrs_eq i (by omega), hpatched, if_neg (by omega)]
    · have hinstr : s₄.code.instrs[s.code.instrs.size]? =
          some { op := .failSkip guarded, next := some start, origin := e } := by
        rw [hemits₄.instrs_eq _ (by omega), hpatched, if_pos rfl, hemits₂.instrs_eq _ (by omega),
          hinstr₁]
        rfl
      refine ⟨_, (harena _ (Nat.le_refl _) (by omega)).trans hinstr,
        .failSkip ha (hbody.trans ha.symm),
        fun j hj ↦ ?_, fun _ _ h ↦ nomatch h⟩
      rw [List.mem_singleton.mp hj]
      exact ⟨Nat.le_trans hbot hstart_le, Nat.lt_trans hstart_lt hlast⟩
    · refine ⟨_, (harena _ (by omega) hlast).trans hinstr₄,
        .failPush (by rw [ho]; exact hbody) (((hc next hnext).2).trans ho.symm), fun j hj ↦ ?_,
        fun _ _ h ↦ nomatch h⟩
      rcases List.mem_cons.mp hj with rfl | hj
      · exact ⟨Nat.le_trans hbot hstart_le, Nat.lt_trans hstart_lt hlast⟩
      · rw [List.mem_singleton.mp hj]
        exact ⟨(hc next hnext).1, Nat.lt_trans (hlevel next hnext) (by omega)⟩

/-! ### Memoized results -/

/-- The memoized path is behind its guard, and leads to what is not. -/
theorem typable_memoPath {use : MemoUse} {child : Option Int} {inside : InstrId → Encoder InstrId}
    (hinside : TypesAll inside) (hmonitor : use.monitor.isSome = s.options.tracing)
    (hnext : next < s.code.instrs.size) (htables : s.grammar.FullTables) {lookup : Nat}
    {s' : Session} (h : memoPath e use child inside next s = some (lookup, s')) :
    s.Emits s' ∧ s.code.instrs.size ≤ lookup ∧ lookup < s'.code.instrs.size ∧
      (∃ instr onMemoFail, s'.code.instrs[lookup]? = some instr ∧
        instr.op = .lookup use child next onMemoFail) ∧
      s.TypablePath s' use e next lookup := by
  obtain ⟨(memoize : Nat), s₁, h₁, h⟩ := bind_eq_some h
  obtain ⟨(body : Nat), s₂, h₂, h⟩ := bind_eq_some h
  obtain ⟨(memoFail : Nat), s₃, h₃, h₄⟩ := bind_eq_some h
  obtain ⟨hemits₁, rfl, hsize₁, hinstr₁⟩ := emits_emitWith h₁
  obtain ⟨hemits₂, hbody_le, hbody_lt, htypes⟩ := hinside.run hsize₁ (hemits₁.fullTables htables) h₂
  obtain ⟨hemits₃, rfl, hsize₃, hinstr₃⟩ := emits_emitWith h₃
  obtain ⟨hemits₄, rfl, hsize₄, hinstr₄⟩ := emits_emitWith h₄
  have hle := hemits₂.size_le
  refine ⟨hemits₁.trans (hemits₂.trans (hemits₃.trans hemits₄)), by omega, by omega,
    ⟨_, _, hinstr₄, rfl⟩, fun c ↦ ?_⟩
  obtain ⟨contexts, hcontexts⟩ := exists_contexts htypes hsize₁ hle
    ⟨.entry use child, s₃.code.instrs.size, s.code.instrs.size, e⟩ (guards use e ++ c)
  refine ⟨contexts, fun arena Γ bot hbot harena hbot_next hc hΓ ↦ ?_⟩
  have hinner : s₁.Holds s₂ arena :=
    (harena.right hemits₁).left (hemits₃.trans hemits₄)
  obtain ⟨hmemoize, hbody, htail, hrest⟩ := hcontexts arena Γ bot s'.code.instrs.size hbot hinner
    (by omega) hΓ
  have hfail := htail s₂.code.instrs.size (Nat.le_refl _) (by omega)
  have hlookup := htail s₃.code.instrs.size (by omega) (by omega)
  refine ⟨hlookup, fun i hi hlt ↦ ?_⟩
  rcases Nat.eq_or_lt_of_le hi with rfl | hi
  · have hinstr : s'.code.instrs[s.code.instrs.size]? =
        some { op := .memoize use child, next := some next, origin := e } := by
      rw [hemits₄.instrs_eq _ (by omega), hemits₃.instrs_eq _ (by omega),
        hemits₂.instrs_eq _ (by omega), hinstr₁]
    refine ⟨_, (harena _ hi hlt).trans hinstr, .memoize hmonitor (by rw [hmemoize, hc]),
      fun j hj ↦ ?_, fun _ _ h ↦ nomatch h⟩
    rw [List.mem_singleton.mp hj]
    exact ⟨hbot_next, Nat.lt_trans hnext hlt⟩
  · rcases Nat.lt_or_ge i s₂.code.instrs.size with hi₂ | hi₂
    · rw [← hemits₁.options_eq]
      exact (hrest i (by omega) hi₂).mono (by omega)
    · rcases Nat.eq_or_lt_of_le hi₂ with rfl | hi₂
      · refine ⟨_, (harena _ (by omega) hlt).trans ((hemits₄.instrs_eq _ (by omega)).trans hinstr₃),
          .memoizeFail hmonitor hfail, fun j hj ↦ (nomatch hj), fun _ _ h ↦ nomatch h⟩
      · obtain rfl : i = s₃.code.instrs.size := by omega
        refine ⟨_, (harena _ (by omega) hlt).trans hinstr₄,
          .lookup hmonitor (by rw [hlookup, hc]) (hfail.trans hlookup.symm)
            (by rw [hlookup]; exact hbody), fun j hj ↦ ?_, fun _ _ h ↦ nomatch h⟩
        rcases List.mem_cons.mp hj with rfl | hj
        · exact ⟨Nat.le_trans hbot hbody_le, Nat.lt_trans hbody_lt (by omega)⟩
        · rcases List.mem_cons.mp hj with rfl | hj
          · exact ⟨hbot_next, Nat.lt_trans hnext (by omega)⟩
          · rw [List.mem_singleton.mp hj]
            have hlast : s₂.code.instrs.size < s'.code.instrs.size := by omega
            exact ⟨Nat.le_trans hbot (Nat.le_trans hemits₁.size_le hle), hlast⟩

/-- Without tracing there is no switch. -/
theorem monitorCode_of_not_tracing {plain : Encoder InstrId} (h : s.options.tracing = false) :
    monitorCode e plain s = some (none, s) := by
  have hoptions : monitorCode e plain s = (if s.options.tracing = true then do
      let plain ← plain
      some <$> emit (.monitoredSwitch plain) plain e
    else pure none : Encoder (Option InstrId)) s := rfl
  rw [hoptions, if_neg (by rw [h]; exact Bool.false_ne_true)]
  rfl

/-- With tracing the switch comes after the plain path. -/
theorem exists_of_monitorCode {plain : Encoder InstrId} (htracing : s.options.tracing = true)
    {monitor : Option InstrId} {s' : Session} (h : monitorCode e plain s = some (monitor, s')) :
    ∃ start s₁ switch, plain s = some (start, s₁) ∧
      emit (.monitoredSwitch start) start e s₁ = some (switch, s') ∧ monitor = some switch := by
  have hoptions : monitorCode e plain s = (if s.options.tracing = true then do
      let plain ← plain
      some <$> emit (.monitoredSwitch plain) plain e
    else pure none : Encoder (Option InstrId)) s := rfl
  rw [hoptions, if_pos htracing] at h
  obtain ⟨start, s₁, hstart, h⟩ := bind_eq_some h
  cases h
  exact ⟨start, s₁, _, hstart, rfl, rfl⟩

/-- The plain path, the switch that comes after it and the memoized path that the switch guards. -/
theorem typable_switch {s₁ s₂ s₃ s₄ : Session} {use : MemoUse} {child : Option Int}
    {onMemoFail : InstrId} {start lookup : Nat} {instr : Instruction}
    (hplain : s.Typable s₁ level [start]) (hpath : s₂.TypablePath s₃ use e next lookup)
    (huse : use.monitor = some s₁.code.instrs.size) (hnext : next ∈ level)
    (hsize₁ : s.code.instrs.size ≤ s₁.code.instrs.size)
    (hsize₂ : s₂.code.instrs.size = s₁.code.instrs.size + 1)
    (hsize₄ : s₄.code.instrs.size = s₃.code.instrs.size) (hoptions : s₂.options = s.options)
    (hholds : s.Holds s₁ s₄.code.instrs) (hholds' : s₂.Holds s₃ s₄.code.instrs)
    (hswitch : s₄.code.instrs[s₁.code.instrs.size]? =
      some { op := .monitoredSwitch lookup, next := some start, origin := e })
    (hlookup : s₄.code.instrs[lookup]? = some instr)
    (hop : instr.op = .lookup use child next onMemoFail)
    (hstart : ∀ bot c Γ, bot ≤ s.code.instrs.size → Level Γ bot c level →
      bot ≤ start ∧ start < s₄.code.instrs.size)
    (hle : s₂.code.instrs.size ≤ lookup) (hlt : lookup < s₃.code.instrs.size) :
    s.Typable s₄ level [s₁.code.instrs.size] := by
  intro c
  obtain ⟨contexts, hcontexts⟩ := hplain c
  obtain ⟨contexts', hcontexts'⟩ := hpath c
  refine ⟨fun i : Nat ↦ if i < s₁.code.instrs.size then contexts i
    else if i = s₁.code.instrs.size then c else contexts' i,
    fun arena Γ bot hbot harena hc hΓ ↦ ?_⟩
  have hself : Γ s₁.code.instrs.size = c := by
    rw [hΓ _ hsize₁ (by omega)]
    exact (if_neg (Nat.lt_irrefl _)).trans (if_pos rfl)
  have hpath_arena : s₂.Holds s₃ arena := fun i hi hlt ↦
    (harena i (by omega) (by omega)).trans (hholds' i hi hlt)
  obtain ⟨hstart_eq, hfits⟩ := hcontexts arena Γ bot hbot
    (fun i hi hlt ↦ (harena i hi (by omega)).trans (hholds i hi hlt)) hc fun i hi hlt ↦
      (hΓ i hi (by omega)).trans (if_pos hlt)
  obtain ⟨hlookup_eq, hfits'⟩ := hcontexts' arena Γ bot (by omega) hpath_arena (hc next hnext).1
    (hc next hnext).2 fun i hi hlt ↦ by
      rw [hΓ i (by omega) (by omega)]
      exact (if_neg (by omega)).trans (if_neg (by omega))
  refine ⟨fun j hj ↦ by rw [List.mem_singleton.mp hj, hself], fun i hi hlt' ↦ ?_⟩
  rcases Nat.lt_or_ge i s₁.code.instrs.size with hi₁ | hi₁
  · exact (hfits i hi hi₁).mono (by omega)
  · rcases Nat.eq_or_lt_of_le hi₁ with rfl | hi₁
    · have hlookup_arena := (harena lookup (by omega) (by omega)).trans hlookup
      have hguard : Γ lookup =
          ⟨.guard use, s₁.code.instrs.size, s₁.code.instrs.size, e⟩ :: Γ s₁.code.instrs.size := by
        rw [hlookup_eq, hself, guards, huse]
        rfl
      refine ⟨_, (harena _ hi hlt').trans hswitch,
        .switch ((hstart_eq start (List.mem_singleton_self start)).trans hself.symm) hguard
          hlookup_arena hop, fun j hj ↦ ?_, fun _ _ h ↦ by cases h⟩
      rcases List.mem_cons.mp hj with rfl | hj
      · exact hstart bot c Γ hbot hc
      · rw [List.mem_singleton.mp hj]
        have hlookup_lt : bot ≤ lookup ∧ lookup < s₄.code.instrs.size := by omega
        exact hlookup_lt
    · rw [← hoptions, hsize₄]
      exact hfits' i (by omega) (by omega)

/-- A memoized path, behind a switch next to the plain path when there are switches. -/
theorem types_memoizedCode {slot : MemoSlot} {child : Option Int} {plain : Encoder InstrId}
    {inside : InstrId → Encoder InstrId} (hplain : Types level plain here s)
    (hinside : TypesAll inside) (hnext : next ∈ level) :
    Types level (memoizedCode e slot child plain inside next) here s := by
  rw [memoizedCode_eq]
  intro hlevel htables (pc : Nat) s₄ h
  obtain ⟨monitor, s₂, h₂, h⟩ := bind_eq_some h
  obtain ⟨(lookup : Nat), s₃, h₃, h₄⟩ := bind_eq_some h
  cases htracing : s.options.tracing with
  | false =>
    rw [monitorCode_of_not_tracing htracing] at h₂
    cases h₂
    cases h₄
    obtain ⟨hemits, hle, hlt, -, htypes⟩ := typable_memoPath hinside (by rw [htracing]; rfl)
      (hlevel next hnext) htables h₃
    refine ⟨hemits, fun j hj ↦ ?_, fun c ↦ ?_⟩
    · rw [List.mem_singleton.mp hj]
      exact .inr ⟨hle, hlt⟩
    · obtain ⟨contexts, hcontexts⟩ := htypes c
      refine ⟨contexts, fun arena Γ bot hbot harena hc hΓ ↦ ?_⟩
      obtain ⟨hlookup, hfits⟩ := hcontexts arena Γ bot hbot harena (hc next hnext).1
        (hc next hnext).2 hΓ
      exact ⟨fun j hj ↦ by rw [List.mem_singleton.mp hj]; exact hlookup, hfits⟩
  | true =>
    obtain ⟨(start : Nat), s₁, (switch : Nat), h₁, hswitch, rfl⟩ :=
      exists_of_monitorCode htracing h₂
    obtain ⟨hemits₁, hstart, htypes₁⟩ := hplain hlevel htables start s₁ h₁
    obtain ⟨hemits₂, rfl, hsize₂, hinstr₂⟩ := emits_emitWith hswitch
    have hemits := hemits₁.trans hemits₂
    have hsize₁ := hemits₁.size_le
    obtain ⟨hemits₃, hle, hlt, ⟨instr, onMemoFail, hlookup, hop⟩, htypes₃⟩ :=
      typable_memoPath hinside (by rw [hemits.options_eq, htracing]; rfl)
        (Nat.lt_of_lt_of_le (hlevel next hnext) hemits.size_le) (hemits.fullTables htables) h₃
    obtain ⟨_, s', hpatch, h₄⟩ := bind_eq_some h₄
    cases h₄
    obtain ⟨hemits₄, hsize₄, hpatched⟩ := emits_modify (hemits.trans hemits₃) hsize₁
      (f := ({ · with op := .monitoredSwitch lookup })) hpatch
    have hle₂ := hemits₃.size_le
    have hlast : s₁.code.instrs.size < s₄.code.instrs.size := by omega
    refine ⟨hemits₄, fun j hj ↦ ?_, ?_⟩
    · rw [List.mem_singleton.mp hj]
      exact .inr ⟨hsize₁, hlast⟩
    · -- only the switch is changed afterwards
      refine typable_switch htypes₁ htypes₃ rfl hnext hsize₁ hsize₂ hsize₄ hemits.options_eq
        (fun i hi hlt ↦ ?_) (fun i hi hlt ↦ ?_) ?_ ?_ hop (fun bot c Γ hbot hc ↦ ?_) hle hlt
      · rw [hpatched, if_neg (by omega), hemits₃.instrs_eq i (by omega), hemits₂.instrs_eq i hlt]
      · rw [hpatched, if_neg (by omega)]
      · rw [hpatched, if_pos rfl, hemits₃.instrs_eq _ (by omega), hinstr₂]
        rfl
      · rw [hpatched, if_neg (by omega), hlookup]
      · rcases hstart start (List.mem_singleton_self start) with hstart | hstart
        · exact ⟨(hc start hstart).1, Nat.lt_of_lt_of_le (hlevel start hstart) hemits₄.size_le⟩
        · exact ⟨Nat.le_trans hbot hstart.1, Nat.lt_trans hstart.2 hlast⟩

/-! ### Operators -/

/-- Extending the grammar makes no instructions. -/
theorem types_build {b : Builder α} (hb : ∀ P, Grammar.Enduring P → Builder.Keeps P b) :
    Types level (build b) nowhere s := by
  refine .of_code_eq fun a s' h ↦ ?_
  cases h
  exact ⟨rfl, rfl, rfl, fun P hP ↦ hb P hP s.grammar⟩

theorem types_issue {label : String} {expr : ExprId} {node : Bool} :
    Types level (issue label expr node) nowhere s := by
  refine .of_code_eq fun a s' h ↦ ?_
  rcases issue_eq_some h with ⟨rfl, -⟩ | ⟨-, rfl, -⟩ <;> exact ⟨rfl, rfl, rfl, fun _ _ ↦ id⟩

theorem types_simplified : Types level (simplified e) nowhere s := by
  refine .options ?_
  split
  · exact types_build fun _ hP ↦ Grammar.keeps_simplify hP e
  · exact .pure (List.nil_subset _)

theorem types_specializedSet? : Types level (specializedSet? e) nowhere s := by
  refine .options ?_
  split
  · exact (types_build fun _ hP ↦ Grammar.keeps_simplify hP e).bind fun other s₁ _ ↦
      .grammar (.pure (List.nil_subset _))
  · exact .pure (List.nil_subset _)

/-- An operand on a level with other instructions. -/
theorem TypesAll.types {inside : InstrId → Encoder InstrId} (h : TypesAll inside)
    (hnext : next ∈ level) : Types level (inside next) here s :=
  (h s next).mono (List.cons_subset.mpr ⟨hnext, List.nil_subset _⟩)

/-- An operand whose failure is caught. -/
theorem types_framed {inside : InstrId → Encoder InstrId} {onFail : InstrId}
    (hinside : TypesAll inside) (hnext : next ∈ level) (hfail : onFail ∈ level) :
    Types level (do
      let pop ← emit .failPop next e
      let body ← inside pop
      emit (.failPush onFail) body e) here s :=
  types_bracket .frame hinside hnext rfl rfl (List.forall_mem_singleton.mpr hfail)
    (fun _ _ _ _ _ _ hc ho hbody ↦ .failPush (by rw [ho]; exact hbody) ((hc _ hfail).trans ho.symm))
    fun _ _ _ _ _ hc ha ↦ .failPop (by rw [hc _ hnext]; exact ha)

section

variable {recur : ExprId → InstrId → Encoder InstrId} (hrecur : ∀ e, TypesAll (recur e))
include hrecur

/-- Items are on one level. -/
theorem types_itemsCode (items : List ExprId) (hnext : next ∈ level) :
    Types level (itemsCode recur items next) here s := by
  induction items generalizing s with
  | nil => exact .pure (List.cons_subset.mpr ⟨hnext, List.nil_subset _⟩)
  | cons item items ih =>
    rw [itemsCode, List.foldrM_cons]
    exact ih.bind fun mid s₁ _ ↦ (hrecur item).types List.mem_cons_self

/-- So is a dispatch in front of them. -/
theorem types_sequenceCode (items : List ExprId) (hnext : next ∈ level) :
    Types level (sequenceCode recur e items next) here s := by
  refine types_simplified.bind fun other s₁ _ ↦ .grammar ?_
  split
  · exact (hrecur other).types hnext
  · refine (types_itemsCode hrecur items hnext).bind fun start s₂ _ ↦ .grammar ?_
    dsimp only
    split
    · refine (types_emit_plain rfl (List.mem_append_right _ hnext)).bind fun any s₃ _ ↦
        types_emitEnd_dispatch (by rw [List.length_map, List.length_range]) fun j hj ↦ ?_
      obtain ⟨slot, -, rfl⟩ := List.mem_map.mp hj
      split
      · exact List.mem_cons_self
      · exact List.mem_cons_of_mem _ List.mem_cons_self
    · exact .pure (List.cons_subset.mpr ⟨List.mem_cons_self, List.nil_subset _⟩)

/-- Each alternative but the last is in a bracket that catches its failure. -/
theorem types_alternativesCode (alts : List ExprId) (hnext : next ∈ level) :
    Types level (alternativesCode recur e next alts) here s := by
  induction alts generalizing s with
  | nil => exact types_emitEnd_fail
  | cons alt alts ih =>
    cases alts with
    | nil => exact (hrecur alt).types hnext
    | cons alt' alts =>
      exact ih.bind fun rest s₁ _ ↦
        types_framed (hrecur alt) (List.mem_cons_of_mem _ hnext) List.mem_cons_self

theorem types_unfactoredCode (hnext : next ∈ level) : Types level (do
      match (← Encoder.grammar).op e with
      | .choice alts => alternativesCode recur e next alts
      | _ => recur e next) here s := by
  refine .grammar ?_
  split
  · exact types_alternativesCode hrecur _ hnext
  · exact (hrecur e).types hnext

/-- Factoring makes no instructions. -/
theorem types_factoredCode (hnext : next ∈ level) :
    Types level (factoredCode recur e next) here s := by
  refine .options ?_
  split
  · refine (types_build fun _ hP ↦ Grammar.keeps_factorCommonHead hP e).bind fun factored s₁ _ ↦ ?_
    dsimp only
    split
    · exact (hrecur _).types hnext
    · exact types_unfactoredCode hrecur hnext
  · exact types_unfactoredCode hrecur hnext

theorem types_entryCode (choice target : Nat) (hnext : next ∈ level) :
    Types level (entryCode recur choice next target) here s := by
  refine .grammar ?_
  split
  · exact types_factoredCode hrecur hnext
  · exact (hrecur target).types hnext

/-- The codes of entries are on one level, new ones and those found again. -/
theorem types_entryCodes (choice : Nat) (done : List (ExprId × InstrId)) (table : JumpTable)
    (hdone : ∀ p ∈ done, p.2 ∈ level) (hnext : next ∈ level) :
    Types level (entryCodes recur choice next done table) id s := by
  induction table generalizing s done level with
  | nil => exact .pure (List.nil_subset _)
  | cons target table ih =>
    rw [entryCodes]
    split
    · rename_i code hlookup
      -- an equal entry before is on the level already
      have hmem := mem_of_lookup_eq_some hlookup
      refine (ih done hdone hnext).bind fun codes s₁ _ ↦ .pure ?_
      exact List.cons_subset.mpr ⟨List.mem_append_right _ (hdone _ hmem),
        List.subset_append_left _ _⟩
    · refine (types_entryCode hrecur choice target hnext).bind fun code s₁ _ ↦ ?_
      refine (ih ((target, code) :: done) (fun p hp ↦ ?_) (List.mem_cons_of_mem _ hnext)).bind
        fun codes s₂ _ ↦ .pure ?_
      · rcases List.mem_cons.mp hp with rfl | hp
        · exact List.mem_cons_self
        · exact List.mem_cons_of_mem _ (hdone p hp)
      · exact List.cons_subset.mpr ⟨List.mem_append_right _ List.mem_cons_self,
          List.subset_append_left _ _⟩

omit hrecur in
/-- There is one code for each slot. -/
theorem length_entryCodes {choice : Nat} {done : List (ExprId × InstrId)} {table : JumpTable}
    {codes : List InstrId} {s' : Session}
    (h : entryCodes recur choice next done table s = some (codes, s')) :
    codes.length = table.length := by
  induction table generalizing s done codes with
  | nil =>
    cases h
    rfl
  | cons target table ih =>
    rw [entryCodes] at h
    rcases hlookup : done.lookup target with - | code
    · rw [hlookup] at h
      obtain ⟨code, s₁, -, h⟩ := bind_eq_some h
      obtain ⟨rest, s₂, hrest, h⟩ := bind_eq_some h
      cases h
      exact congrArg (· + 1) (ih hrest)
    · rw [hlookup] at h
      obtain ⟨rest, s₁, hrest, h⟩ := bind_eq_some h
      cases h
      exact congrArg (· + 1) (ih hrest)

theorem types_branchingCode (htables : s.grammar.FullTables) (alts : List ExprId)
    (hnext : next ∈ level) : Types level (do
      match (← Encoder.grammar).table? e with
      | some table => emitEnd (.dispatch (← entryCodes recur e next [] table)) e
      | none => alternativesCode recur e next alts) here s := by
  refine .grammar ?_
  split
  · rename_i table htable
    refine (types_entryCodes hrecur e [] table (List.forall_mem_nil _) hnext).bind
      fun codes s₁ h₁ ↦ types_emitEnd_dispatch ?_ fun j hj ↦ List.mem_append_left _ hj
    exact (length_entryCodes h₁).trans (htables e table htable)
  · exact types_alternativesCode hrecur alts hnext

/-- A choice by its byte class, its table or its alternatives. -/
theorem types_choiceCode (htables : s.grammar.FullTables) (alts : List ExprId)
    (hnext : next ∈ level) : Types level (choiceCode recur e alts next) here s := by
  refine types_simplified.bind fun other s₁ hs₁ ↦ .grammar ?_
  have hsimplified : Types [] (simplified e) nowhere s := types_simplified
  have htables₁ : s₁.grammar.FullTables :=
    (hsimplified (List.forall_mem_nil _) htables _ _ hs₁).1.fullTables htables
  split
  · exact (hrecur other).types hnext
  · exact types_branchingCode hrecur htables₁ alts hnext

/-- A loop, or one instruction. -/
theorem types_starCode (inner : ExprId) (nullable : Bool) (hnext : next ∈ level) :
    Types level (starCode recur e inner nullable next) here s := by
  refine types_specializedSet?.bind fun set? s₁ _ ↦ ?_
  rcases set? with - | set
  · exact types_loop (hrecur inner) hnext
  · exact types_emit_plain rfl hnext

/-- An operand whose failure leads to the continuation, or one instruction. -/
theorem types_optionalCode (inner : ExprId) (hnext : next ∈ level) :
    Types level (optionalCode recur e inner next) here s := by
  refine .options ?_
  dsimp only
  split
  · refine (types_build fun _ hP ↦ Grammar.keeps_simplify hP inner).bind fun other s₁ _ ↦
      .grammar ?_
    split
    · exact types_emit_plain rfl hnext
    · exact types_emit_plain rfl hnext
    · exact types_framed (hrecur inner) hnext hnext
  · exact types_framed (hrecur inner) hnext hnext

/-- An operand whose success leads to a failure, or one instruction. -/
theorem types_notCode (inner : ExprId) (hnext : next ∈ level) :
    Types level (notCode recur e inner next) here s := by
  have hplain (s : Session) : Types level (do
      let fail ← emitEnd .fail e
      let pop ← emit .failPop fail e
      let body ← recur inner pop
      emit (.failPush next) body e) here s :=
    types_emitEnd_fail.bind fun fail s₁ _ ↦
      types_framed (hrecur inner) List.mem_cons_self (List.mem_cons_of_mem _ hnext)
  refine .options ?_
  dsimp only
  split
  · refine (types_build fun _ hP ↦ Grammar.keeps_simplify hP inner).bind fun other s₁ _ ↦
      .grammar ?_
    split
    · exact types_emit_plain rfl hnext
    · exact types_emit_plain rfl hnext
    · exact hplain s₁
  · exact hplain s

/-- An operand whose failure leads to where the block is closed. -/
theorem types_blockCode (inner : ExprId) (hnext : next ∈ level) :
    Types level (blockCode recur e inner next) here s := by
  refine types_emitEnd_fail.bind fun fail s₁ _ ↦ ?_
  refine (types_emit_plain rfl List.mem_cons_self).bind fun failed s₂ _ ↦ ?_
  refine (types_emit_plain rfl ?_).bind fun popTable s₃ _ ↦ ?_
  · exact List.mem_cons_of_mem _ (List.mem_cons_of_mem _ hnext)
  have hassoc : (do
      let pop ← emit .failPop popTable e
      let body ← recur inner pop
      let push ← emit (.failPush failed) body e
      emit .tablePush push e) = (do
      let pop ← emit .failPop popTable e
      let body ← recur inner pop
      emit (.failPush failed) body e) >>= fun push ↦ emit .tablePush push e := by
    simp only [bind_assoc]
  rw [hassoc]
  exact (types_framed (hrecur inner) List.mem_cons_self
    (List.mem_cons_of_mem _ List.mem_cons_self)).bind fun push s₄ _ ↦
      types_emit_plain rfl List.mem_cons_self

/-- An operand in a bracket that holds the position. -/
theorem types_spannedCode (inner : ExprId) {op : Opcode} (hop : op.usesPosition)
    (hnext : next ∈ level) : Types level (spannedCode recur e inner op next) here s :=
  types_bracket .position (hrecur inner) hnext rfl hop (List.forall_mem_nil _)
    (fun _ _ _ _ _ _ hc ho hbody ↦ .posPush (by rw [ho]; exact hbody))
    fun _ _ _ _ _ hc ha ↦ .position hop (by rw [hc _ hnext]; exact ha)

theorem types_referenceCode (rule : RuleId) (hnext : next ∈ level) :
    Types level (referenceCode recur e rule next) here s := by
  have hcall (s : Session) : Types level (emit (.call rule none) next e) here s :=
    types_emit_call hnext
  refine types_simplified.bind fun other s₁ _ ↦ .grammar ?_
  split
  · exact (hrecur other).types hnext
  · refine .options ?_
    split
    · split
      · exact types_issue.bind fun slot s₂ _ ↦ types_memoizedCode (hcall s₂)
          (fun s memoize ↦ types_emit_call (List.mem_singleton_self memoize)) hnext
      · exact hcall s₁
    · exact hcall s₁

theorem types_treeNodeCode (inner : ExprId) (index : Int) (hnext : next ∈ level) :
    Types level (treeNodeCode recur e inner index next) here s := by
  refine (types_emit_plain rfl hnext).bind fun store s₁ _ ↦ ?_
  exact ((hrecur inner).types List.mem_cons_self).bind fun body s₂ _ ↦
    types_emit_plain rfl List.mem_cons_self

/-- An operand on the level of the instructions around it, memoized or not. -/
theorem types_linkCode (inner : ExprId) (index : Int) (hnext : next ∈ level) :
    Types level (linkCode recur e inner index next) here s := by
  refine .options ?_
  split
  · exact (hrecur inner).types hnext
  · split
    · exact types_treeNodeCode hrecur inner index hnext
    · exact .grammar (types_issue.bind fun slot s₁ _ ↦
        types_memoizedCode (types_treeNodeCode hrecur inner index hnext) (hrecur inner) hnext)

/-! ### Nodes -/

/-- One node, if others make typed code. -/
theorem types_nodeCode (htables : s.grammar.FullTables) (hnext : next ∈ level) :
    Types level (nodeCode recur e next) here s := by
  refine .options (.grammar ?_)
  cases s.grammar.op e with
  | empty => exact .pure (List.cons_subset.mpr ⟨hnext, List.nil_subset _⟩)
  | fail => exact types_emitEnd_fail
  | anyByte | byte _ | byteClass _ | defIndent | isIndent => exact types_emit_plain rfl hnext
  | sequence items => exact types_sequenceCode hrecur items hnext
  | choice alts => exact types_choiceCode hrecur htables alts hnext
  | star inner nullable => exact types_starCode hrecur inner nullable hnext
  | plus inner nullable =>
    exact (types_starCode hrecur inner nullable hnext).bind fun rest s₁ _ ↦
      (hrecur inner).types List.mem_cons_self
  | optional inner => exact types_optionalCode hrecur inner hnext
  | and inner | defSymbol table inner | isSymbol table inner lastOnly =>
    exact types_spannedCode hrecur inner rfl hnext
  | not inner => exact types_notCode hrecur inner hnext
  | reference rule => exact types_referenceCode hrecur rule hnext
  | construct body left =>
    dsimp only
    split
    · exact (types_emit_plain rfl hnext).bind fun capture s₁ _ ↦
        (types_sequenceCode hrecur body List.mem_cons_self).bind fun body s₂ _ ↦
          types_emit_plain rfl List.mem_cons_self
    · exact types_sequenceCode hrecur body hnext
  | mark m =>
    dsimp only
    split
    · exact types_emit_plain rfl hnext
    · exact .pure (List.cons_subset.mpr ⟨hnext, List.nil_subset _⟩)
  | link inner index => exact types_linkCode hrecur inner index hnext
  | block inner => exact types_blockCode hrecur inner hnext

end

/-- Encoding makes typed code, at every depth. -/
theorem types_encode (depth : Nat) (e : ExprId) : TypesAll (encode depth e) := by
  induction depth generalizing e with
  | zero => exact fun s next _ _ _ _ h ↦ nomatch h
  | succ depth ih =>
    intro s next hlevel htables
    exact types_nodeCode ih htables (List.mem_singleton_self next) hlevel htables

end Encoder

end ParsingMachine
