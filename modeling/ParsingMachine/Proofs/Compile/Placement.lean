import ParsingMachine.Compile.Basic
import ParsingMachine.Proofs.Compile.Brackets
import ParsingMachine.Proofs.Compile.Layout

/-!
# Finished programs are typed

The code of a rule is encoded on an outermost level, so it is typed with nothing open at its head,
and placing it keeps it together in a block of its own (`Session.Stretch`): what a placed
instruction leads to is in the same block, and so is what has opened the brackets before it. Linking
and numbering carry contexts over (`Machine.Fits.map`).

The new code of a rule leads to itself only, since it was made from its own return on. So the search
from its head finds nothing that was placed before, and what it finds is new code, with what has
opened the brackets there (`Session.Found`). The latter is an invariant of the search: nothing is
open at the head, and a bracket that is open after an edge was open before it or is opened by the
instruction from which the edge starts, which was found already.

Contexts are a function on the whole arena, and each rule brings some for the instructions that it
adds. Blocks that were there before see only the contexts of their own instructions, so nothing
changes for them (`Session.Stretch.mono`).

When the session is finished, instructions move. A bracket names instructions and moves with them
(`Machine.Bracket.moved`), and the context at a place is the moved context of the instruction that
was placed there. An instruction that fits still fits, for whatever it leads to moved along and a
linked call goes to the head of a block, where nothing is open.

## Main statements

* `Machine.Fits.map`: an instruction that fits still does when code has moved and is linked.
* `Session.Unplaced.laid_addBlock`: what is encoded for a rule may be placed as its block.
* `Session.Laid.compileRules`: what every session keeps that has compiled some rules.
* `Session.Laid.typed_of_finish`: the finished program is typed.
* `Session.Laid.opened_of_finish`: brackets are opened in the block in which they are open.
-/

namespace ParsingMachine

open Machine

/-! ### Carrying contexts over -/

namespace Machine

/-- A use of a memo slot when instructions have moved. -/
def movedUse (place : InstrId → InstrId) (use : MemoUse) : MemoUse :=
  { use with monitor := use.monitor.map place }

/-- A bracket when its instructions have moved. -/
def Bracket.moved (place : InstrId → InstrId) (b : Bracket) : Bracket where
  kind := match b.kind with
    | .entry use child => .entry (movedUse place use) child
    | .guard use => .guard (movedUse place use)
    | kind => kind
  opener := place b.opener
  closer := place b.closer
  origin := b.origin

/-- The guard of a memoized path moves with its switch. -/
theorem map_guards (place : InstrId → InstrId) (use : MemoUse) (e : ExprId) :
    (guards use e).map (Bracket.moved place) = guards (movedUse place use) e := by
  obtain ⟨memo, key, monitor⟩ := use
  cases monitor <;> rfl

theorem isSome_monitor_movedUse (place : InstrId → InstrId) (use : MemoUse) :
    (movedUse place use).monitor.isSome = use.monitor.isSome :=
  Option.isSome_map

/-- An instruction that fits still does when it and what it leads to have moved and calls are
linked. -/
theorem Fits.map {tracing : Bool} {code code' : Array Instruction} {Γ Γ' : InstrId → Context}
    {i : InstrId} {e : ExprId} {op : Opcode} {next : Option InstrId}
    (h : Fits tracing code Γ i e op next) (place : InstrId → InstrId)
    (target : RuleId → Option InstrId) (hi : Γ' (place i) = (Γ i).map (Bracket.moved place))
    (hΓ : ∀ j ∈ next.toList ++ op.branches, Γ' (place j) = (Γ j).map (Bracket.moved place))
    (htarget : ∀ rule t, target rule = some t → Γ' (place t) = [])
    (hcode : ∀ j ∈ op.branches, ∀ instr use child onHit onMemoFail, code[j]? = some instr →
      instr.op = .lookup use child onHit onMemoFail → ∃ instr', code'[place j]? = some instr' ∧
        instr'.op = instr.op.mapTargets place) :
    Fits tracing code' Γ' (place i) e ((op.linked target).mapTargets place) (next.map place) := by
  cases h with
  | @plain op j hop hj =>
    have hop' : (op.linked target).mapTargets place = op := by
      cases op <;> first | rfl | cases hop
    rw [hop']
    exact .plain hop (by rw [hΓ j List.mem_cons_self, hi, hj])
  | fail => exact .fail
  | ret hi' => exact .ret (by rw [hi, hi']; rfl)
  | @dispatch table hlength htable =>
    refine .dispatch (by rw [List.length_map, hlength]) fun x hx ↦ ?_
    obtain ⟨j, hj, rfl⟩ := List.mem_map.mp hx
    rw [hΓ j hj, hi, htable j hj]
  | @call rule _ j hj _ =>
    refine .call (by rw [hΓ j List.mem_cons_self, hi, hj]) fun x hx ↦ ?_
    obtain ⟨t, ht, rfl⟩ := Option.map_eq_some_iff.mp hx
    exact htarget rule t ht
  | @switch activated j instr use child onHit onMemoFail hj hactivated hinstr hop =>
    obtain ⟨instr', hinstr', hop'⟩ :=
      hcode activated (List.mem_singleton_self _) instr use child onHit onMemoFail hinstr hop
    have hactivated' : Γ' (place activated) =
        ⟨.guard (movedUse place use), place i, place i, e⟩ :: Γ' (place i) := by
      rw [hΓ activated (List.mem_cons_of_mem _ (List.mem_singleton_self _)), hactivated, hi]
      rfl
    exact .switch (by rw [hΓ j List.mem_cons_self, hi, hj]) hactivated' hinstr'
      (by rw [hop', hop]; rfl)
  | @failPush onFail j closer hj hfail =>
    have hj' : Γ' (place j) = ⟨.frame, place i, place closer, e⟩ :: Γ' (place i) := by
      rw [hΓ j List.mem_cons_self, hi, hj]
      rfl
    exact .failPush hj'
      (by rw [hΓ onFail (List.mem_cons_of_mem _ (List.mem_singleton_self _)), hi, hfail])
  | @failPop opener j hi' =>
    have hi'' : Γ' (place i) = ⟨.frame, place opener, place i, e⟩ :: Γ' (place j) := by
      rw [hi, hi', hΓ j List.mem_cons_self]
      rfl
    exact .failPop hi''
  | @failSkip guarded opener c j hi' hj =>
    have hi'' : Γ' (place i) =
        ⟨.frame, place opener, place i, e⟩ :: c.map (Bracket.moved place) := by
      rw [hi, hi']
      rfl
    exact .failSkip hi'' (by rw [hΓ j List.mem_cons_self, hi, hj])
  | @posPush j closer hj =>
    have hj' : Γ' (place j) = ⟨.position, place i, place closer, e⟩ :: Γ' (place i) := by
      rw [hΓ j List.mem_cons_self, hi, hj]
      rfl
    exact .posPush hj'
  | @position op opener j hop hi' =>
    have hop' : (op.linked target).mapTargets place = op := by
      cases op <;> first | rfl | cases hop
    have hi'' : Γ' (place i) = ⟨.position, place opener, place i, e⟩ :: Γ' (place j) := by
      rw [hi, hi', hΓ j List.mem_cons_self]
      rfl
    rw [hop']
    exact .position hop hi''
  | @lookup use child onHit onMemoFail j closer hmonitor hi' hfail hj =>
    have hi'' : Γ' (place i) = guards (movedUse place use) e ++ Γ' (place onHit) := by
      rw [hi, hi', hΓ onHit (List.mem_cons_of_mem _ List.mem_cons_self), List.map_append,
        map_guards]
    have hj' : Γ' (place j) =
        ⟨.entry (movedUse place use) child, place i, place closer, e⟩ :: Γ' (place i) := by
      rw [hΓ j List.mem_cons_self, hi, hj]
      rfl
    exact .lookup (hmonitor ▸ isSome_monitor_movedUse place use) hi''
      (by rw [hΓ onMemoFail (by simp [Opcode.branches]), hi, hfail]) hj'
  | @memoize use child opener j hmonitor hi' =>
    have hi'' : Γ' (place i) = ⟨.entry (movedUse place use) child, place opener, place i, e⟩ ::
        (guards (movedUse place use) e ++ Γ' (place j)) := by
      rw [hi, hi', hΓ j List.mem_cons_self, List.map_cons, List.map_append, map_guards]
      rfl
    exact .memoize (hmonitor ▸ isSome_monitor_movedUse place use) hi''
  | @memoizeFail use c hmonitor hi' =>
    have hi'' : Γ' (place i) = guards (movedUse place use) e ++ c.map (Bracket.moved place) := by
      rw [hi, hi', List.map_append, map_guards]
    exact .memoizeFail (hmonitor ▸ isSome_monitor_movedUse place use) hi''

theorem movedUse_id (use : MemoUse) : movedUse id use = use := by
  rw [movedUse, Option.map_id]
  rfl

theorem Bracket.moved_id (b : Bracket) : b.moved id = b := by
  obtain ⟨kind, opener, closer, origin⟩ := b
  cases kind <;> simp [moved, movedUse_id]

theorem mapTargets_id (op : Opcode) : op.mapTargets id = op := by
  cases op <;> simp [Opcode.mapTargets]

/-- Only the contexts of an instruction and of what it leads to matter, and the instructions to
which it jumps. -/
theorem Fits.congr {tracing : Bool} {code code' : Array Instruction} {Γ Γ' : InstrId → Context}
    {i : InstrId} {e : ExprId} {op : Opcode} {next : Option InstrId}
    (h : Fits tracing code Γ i e op next) (hi : Γ' i = Γ i)
    (hΓ : ∀ j ∈ next.toList ++ op.branches, Γ' j = Γ j)
    (hcall : ∀ rule target, op = .call rule target → target = none)
    (hcode : ∀ j ∈ op.branches, code'[j]? = code[j]?) : Fits tracing code' Γ' i e op next := by
  have hmoved (c : Context) : c.map (Bracket.moved id) = c := by
    rw [funext Bracket.moved_id]
    exact List.map_id c
  have hlinked : op.linked (fun _ ↦ none) = op := by
    cases op with
    | call rule target => rw [Opcode.linked, hcall rule target rfl]
    | _ => rfl
  have hmap : Fits tracing code' Γ' i e ((op.linked fun _ ↦ none).mapTargets id) (next.map id) :=
    h.map id (fun _ ↦ none) (by rw [hmoved]; exact hi) (fun j hj ↦ by rw [hmoved]; exact hΓ j hj)
      (fun _ _ h ↦ by cases h) fun j hj instr use child onHit onMemoFail hinstr hop ↦
        ⟨instr, (hcode j hj).trans hinstr, (mapTargets_id instr.op).symm⟩
  rwa [hlinked, mapTargets_id, Option.map_id] at hmap

end Machine

/-! ### Blocks -/

namespace Session

variable {s s' s₁ s₂ : Session} {Γ Γ' : InstrId → Context} {block : Block} {i : InstrId}

/-- The instruction is placed in a block. -/
def Within (s : Session) (block : Block) (i : InstrId) : Prop :=
  ∃ n, block.start ≤ n ∧ n < block.stop ∧ s.code.order[n]? = some i

/-- What is known of a block. -/
structure Stretch (s : Session) (Γ : InstrId → Context) (block : Block) : Prop where
  /-- It is not empty. -/
  start_lt : block.start < block.stop
  /-- It is placed. -/
  stop_le : block.stop ≤ s.code.order.size
  /-- It starts with its head. -/
  head : s.code.order[block.start]? = some block.head
  /-- Nothing is open at the head. -/
  head_eq : Γ block.head = []
  /-- Instructions lead to instructions of the block. -/
  closed : ∀ i, s.Within block i → ∀ j ∈ s.code.successors i, s.Within block j
  /-- What an instruction falls through to comes next or was placed before. -/
  follows : ∀ n, block.start ≤ n → n < block.stop → ∀ i instr j, s.code.order[n]? = some i →
    s.code.instrs[i]? = some instr → instr.next = some j → ∃ k ≤ n + 1, s.code.order[k]? = some j
  /-- What is open before an instruction was opened by an instruction of the block. -/
  opened : ∀ i, s.Within block i → ∀ b ∈ Γ i, s.Within block b.opener ∧
    ∃ j ∈ s.code.successors b.opener, Γ j = b :: Γ b.opener

/-- What every session keeps that has compiled some rules. -/
structure Laid (s : Session) (Γ : InstrId → Context) : Prop where
  /-- The arena is typed. -/
  fits : ∀ i < s.code.instrs.size,
    FitsAt s.options.tracing s.code.instrs Γ 0 s.code.instrs.size i
  /-- The jump tables are complete. -/
  fullTables : s.grammar.FullTables
  /-- Nothing is placed twice. -/
  nodup : s.code.order.toList.Nodup
  /-- Instructions are placed. -/
  order_lt : ∀ i ∈ s.code.order, i < s.code.instrs.size
  /-- What a placed instruction leads to is placed. -/
  closed : ∀ i ∈ s.code.order, ∀ j ∈ s.code.successors i, j ∈ s.code.order
  /-- Every block is a stretch of the order. -/
  stretch : ∀ block ∈ s.blocks, s.Stretch Γ block
  /-- The blocks make up the order, one after the other. -/
  tiles : (s.blocks.toList.flatMap fun block ↦
    List.range' block.start (block.stop - block.start)) = List.range s.code.order.size

/-- A session that was just started holds nothing. -/
theorem laid_start {g : Grammar} (hg : g.FullTables) (depth : Nat) (o : Options)
    (Γ : InstrId → Context) : (start depth g o).Laid Γ where
  fits i hi := absurd hi (Nat.not_lt_zero i)
  fullTables := hg
  nodup := List.nodup_nil
  order_lt _ h := absurd h (Array.not_mem_empty _)
  closed _ h := absurd h (Array.not_mem_empty _)
  stretch _ h := absurd h (Array.not_mem_empty _)
  tiles := rfl

/-- A block stays what it is when code is added. -/
theorem Stretch.mono (h : s.Stretch Γ block) (hs : s.Laid Γ) {added : Array InstrId}
    (horder : s'.code.order = s.code.order ++ added)
    (hinstrs : ∀ i < s.code.instrs.size, s'.code.instrs[i]? = s.code.instrs[i]?)
    (hΓ : ∀ i < s.code.instrs.size, Γ' i = Γ i) : s'.Stretch Γ' block := by
  have hget {n : Nat} (hn : n < block.stop) : s'.code.order[n]? = s.code.order[n]? := by
    rw [horder, Array.getElem?_append_left (Nat.lt_of_lt_of_le hn h.stop_le)]
  have hwithin (i : InstrId) : s'.Within block i ↔ s.Within block i := by
    refine exists_congr fun n ↦ and_congr_right fun _ ↦ and_congr_right fun hn ↦ ?_
    rw [hget hn]
  have hlt {i : InstrId} (hi : s.Within block i) : i < s.code.instrs.size := by
    obtain ⟨n, -, -, hn⟩ := hi
    exact hs.order_lt i (Array.mem_of_getElem? hn)
  have hsuccessors {i : InstrId} (hi : s.Within block i) :
      s'.code.successors i = s.code.successors i := by
    rw [Code.successors, Code.successors, hinstrs i (hlt hi)]
  have hhead : s.Within block block.head := ⟨_, Nat.le_refl _, h.start_lt, h.head⟩
  refine ⟨h.start_lt, ?_, ?_, ?_, fun i hi j hj ↦ ?_,
    fun n hstart hstop i instr j hi hinstr hj ↦ ?_, fun i hi b hb ↦ ?_⟩
  · rw [horder, Array.size_append]
    exact Nat.le_trans h.stop_le (Nat.le_add_right _ _)
  · rw [hget h.start_lt, h.head]
  · rw [hΓ _ (hlt hhead), h.head_eq]
  · rw [hwithin] at hi ⊢
    rw [hsuccessors hi] at hj
    exact h.closed i hi j hj
  · rw [hget hstop] at hi
    rw [hinstrs i (hlt ⟨n, hstart, hstop, hi⟩)] at hinstr
    obtain ⟨k, hk, hget_k⟩ := h.follows n hstart hstop i instr j hi hinstr hj
    have hk_lt := (Array.getElem?_eq_some_iff.mp hget_k).1
    exact ⟨k, hk, by rw [horder, Array.getElem?_append_left hk_lt, hget_k]⟩
  · rw [hwithin] at hi ⊢
    rw [hΓ i (hlt hi)] at hb
    obtain ⟨hopener, j, hj, hΓj⟩ := h.opened i hi b hb
    refine ⟨hopener, j, by rwa [hsuccessors hopener], ?_⟩
    rw [hΓ j (hlt (h.closed _ hopener j hj)), hΓ _ (hlt hopener), hΓj]

/-! ### Placing the code of a rule -/

/-- A session with code for one more rule, which is not placed yet. -/
structure Unplaced (s s₁ : Session) (Γ Γ' : InstrId → Context) : Prop where
  laid : s.Laid Γ
  emits : s.Emits s₁
  /-- The code before has the contexts it had. -/
  contexts_eq : ∀ i < s.code.instrs.size, Γ' i = Γ i
  /-- The new code is typed, and leads to new code only. -/
  fits : ∀ i, s.code.instrs.size ≤ i → i < s₁.code.instrs.size →
    FitsAt s₁.options.tracing s₁.code.instrs Γ' s.code.instrs.size s₁.code.instrs.size i

/-- New code that the search from the head finds, as it finds what has opened the brackets there. -/
structure Found (s s₁ : Session) (Γ' : InstrId → Context) (head i : InstrId) : Prop where
  le : s.code.instrs.size ≤ i
  lt : i < s₁.code.instrs.size
  mem : i ∈ (s₁.code.place head).order
  opened : ∀ b ∈ Γ' i, s.code.instrs.size ≤ b.opener ∧ b.opener ∈ (s₁.code.place head).order ∧
    ∃ j ∈ s₁.code.successors b.opener, Γ' j = b :: Γ' b.opener

namespace Unplaced

variable (h : s.Unplaced s₁ Γ Γ') {head j : InstrId}

include h

theorem successors_eq (hi : i ∈ s.code.order) : s₁.code.successors i = s.code.successors i := by
  rw [Code.successors, Code.successors, h.emits.instrs_eq i (h.laid.order_lt i hi)]

/-- New code leads to new code, and what is open there was open before or is opened on the way. -/
theorem mem_successors (hle : s.code.instrs.size ≤ i) (hlt : i < s₁.code.instrs.size)
    (hj : j ∈ s₁.code.successors i) : (s.code.instrs.size ≤ j ∧ j < s₁.code.instrs.size) ∧
      ∀ b ∈ Γ' j, b ∈ Γ' i ∨ b.opener = i ∧ Γ' j = b :: Γ' i := by
  obtain ⟨instr, hinstr, hfits, hsuccessor, -⟩ := h.fits i hle hlt
  rw [Code.successors, hinstr] at hj
  exact ⟨hsuccessor j hj, fun b hb ↦ hfits.mem_or_opens hj hb⟩

/-- The arena is typed, with the new code. -/
theorem fitsAt (hi : i < s₁.code.instrs.size) :
    FitsAt s₁.options.tracing s₁.code.instrs Γ' 0 s₁.code.instrs.size i := by
  rcases Nat.lt_or_ge i s.code.instrs.size with hold | hnew
  · obtain ⟨instr, hinstr, hfits, hsuccessor, hcall⟩ := h.laid.fits i hold
    rw [h.emits.options_eq]
    refine ⟨instr, (h.emits.instrs_eq i hold).trans hinstr, hfits.congr (h.contexts_eq i hold)
      (fun j hj ↦ h.contexts_eq j (hsuccessor j hj).2) hcall (fun j hj ↦ h.emits.instrs_eq j
        (hsuccessor j (List.mem_append_right _ hj)).2), fun j hj ↦ ?_, hcall⟩
    exact ⟨Nat.zero_le j, Nat.lt_of_lt_of_le (hsuccessor j hj).2 h.emits.size_le⟩
  · obtain ⟨instr, hinstr, hfits, hsuccessor, hcall⟩ := h.fits i hnew hi
    exact ⟨instr, hinstr, hfits, fun j hj ↦ ⟨Nat.zero_le j, (hsuccessor j hj).2⟩, hcall⟩

/-- Placing the head searches from it, among what is new and what was placed. -/
theorem explores (head : InstrId) :
    Graph.Explores s₁.code.successors [head] s.code.order (s₁.code.place head).order := by
  have hplace := explores_place s₁.code head
  rwa [h.emits.order_eq] at hplace

/-- What a new instruction leads to is placed with it. -/
theorem closed (hle : s.code.instrs.size ≤ i) (hmem : i ∈ (s₁.code.place head).order)
    (hj : j ∈ s₁.code.successors i) : j ∈ (s₁.code.place head).order := by
  rcases (h.explores head).closed i hmem with hold | hclosed
  · exact absurd hle (Nat.not_le_of_lt (h.laid.order_lt i hold))
  · exact hclosed j hj

/-- The head is the first of the new code. -/
theorem getElem?_head (hle : s.code.instrs.size ≤ head) :
    (s₁.code.place head).order[s₁.code.order.size]? = some head := by
  obtain ⟨added, hadded⟩ := (h.explores head).append
  obtain ⟨k, hk, hget⟩ := Graph.first_explore successors_of_size_le head s₁.code.order
  change (s₁.code.place head).order[k]? = some head at hget
  rcases Nat.eq_or_lt_of_le hk with rfl | hk
  · exact hget
  · rw [h.emits.order_eq] at hk
    rw [hadded, Array.getElem?_append_left hk] at hget
    exact absurd hle (Nat.not_le_of_lt (h.laid.order_lt head (Array.mem_of_getElem? hget)))

variable (hle : s.code.instrs.size ≤ head) (hlt : head < s₁.code.instrs.size)
  (hhead : Γ' head = [])

include hle hlt hhead

/-- The search from the head adds new code to what was placed before. -/
theorem found_of_mem (hmem : i ∈ (s₁.code.place head).order) :
    i ∈ s.code.order ∨ Found s s₁ Γ' head i := by
  have hexplores := h.explores head
  -- along the search, what is open was opened by what it has found
  refine hexplores.invariant (fun i ↦ i ∈ s.code.order ∨ Found s s₁ Γ' head i)
    (fun i hi ↦ .inl hi) (fun i hi ↦ ?_) (fun i hi j hj ↦ ?_) i hmem
  · rw [List.mem_singleton.mp hi]
    refine .inr ⟨hle, hlt, hexplores.mem _ (List.mem_singleton_self _), fun b hb ↦ ?_⟩
    rw [hhead] at hb
    cases hb
  · rcases hi with hi | hi
    · rw [h.successors_eq hi] at hj
      exact .inl (h.laid.closed i hi j hj)
    · obtain ⟨⟨hj_le, hj_lt⟩, hopens⟩ := h.mem_successors hi.le hi.lt hj
      refine .inr ⟨hj_le, hj_lt, h.closed hi.le hi.mem hj, fun b hb ↦ ?_⟩
      rcases hopens b hb with hb | ⟨rfl, hΓj⟩
      · exact hi.opened b hb
      · exact ⟨hi.le, hi.mem, j, hj, hΓj⟩

theorem found_of_le (hmem : i ∈ (s₁.code.place head).order) (hi : s.code.instrs.size ≤ i) :
    Found s s₁ Γ' head i :=
  (h.found_of_mem hle hlt hhead hmem).resolve_left fun hold ↦
    Nat.not_le_of_lt (h.laid.order_lt i hold) hi

theorem lt_of_mem (hmem : i ∈ (s₁.code.place head).order) : i < s₁.code.instrs.size := by
  rcases h.found_of_mem hle hlt hhead hmem with hi | hi
  · exact Nat.lt_of_lt_of_le (h.laid.order_lt i hi) h.emits.size_le
  · exact hi.lt

/-- The places of the new block are those of the new code. -/
theorem within_iff (rule : RuleId) : (s₁.addBlock rule head).Within
    ⟨rule, head, s₁.code.order.size, (s₁.code.place head).order.size⟩ i ↔
      i ∈ (s₁.code.place head).order ∧ s.code.instrs.size ≤ i := by
  have hexplores := h.explores head
  obtain ⟨added, hadded⟩ := hexplores.append
  show (∃ n, s₁.code.order.size ≤ n ∧ n < (s₁.code.place head).order.size ∧
    (s₁.code.place head).order[n]? = some i) ↔ _
  rw [h.emits.order_eq]
  constructor
  · rintro ⟨n, hn, hn_lt, hget⟩
    have hmem := Array.mem_of_getElem? hget
    refine ⟨hmem, (h.found_of_mem hle hlt hhead hmem).elim (fun hi ↦ ?_) Found.le⟩
    -- nothing is placed twice
    obtain ⟨m, hm⟩ := Array.mem_iff_getElem?.mp hi
    have hm_lt := (Array.getElem?_eq_some_iff.mp hm).1
    have hget' : (s₁.code.place head).order[m]? = some i := by
      rw [hadded, Array.getElem?_append_left hm_lt, hm]
    rw [← Array.getElem?_toList] at hget hget'
    have hmn := (List.getElem?_inj (by simpa using hn_lt) (hexplores.nodup h.laid.nodup)).mp
      (hget.trans hget'.symm)
    omega
  · rintro ⟨hmem, hi⟩
    obtain ⟨n, hn⟩ := Array.mem_iff_getElem?.mp hmem
    refine ⟨n, Nat.le_of_not_lt fun hlt ↦ ?_, (Array.getElem?_eq_some_iff.mp hn).1, hn⟩
    rw [hadded, Array.getElem?_append_left hlt] at hn
    exact absurd hi (Nat.not_le_of_lt (h.laid.order_lt i (Array.mem_of_getElem? hn)))

/-- The new code makes up a block. -/
theorem stretch (rule : RuleId) : (s₁.addBlock rule head).Stretch Γ'
    ⟨rule, head, s₁.code.order.size, (s₁.code.place head).order.size⟩ := by
  have hwithin {i : InstrId} := h.within_iff hle hlt hhead (i := i) rule
  have hget := h.getElem?_head hle
  refine ⟨(Array.getElem?_eq_some_iff.mp hget).1, Nat.le_refl _, hget, hhead, fun i hi j hj ↦ ?_,
    fun n hn _ i instr j hi hinstr hj ↦ ?_, fun i hi b hb ↦ ?_⟩
  · obtain ⟨hmem, hi⟩ := hwithin.mp hi
    obtain ⟨⟨hj_le, -⟩, -⟩ := h.mem_successors hi (h.lt_of_mem hle hlt hhead hmem) hj
    exact hwithin.mpr ⟨h.closed hi hmem hj, hj_le⟩
  · change s₁.code.instrs[i]? = some instr at hinstr
    have hsuccessors : s₁.code.successors i = j :: instr.op.branches := by
      rw [Code.successors, hinstr]
      change instr.next.toList ++ instr.op.branches = _
      rw [hj]
      rfl
    exact Graph.follows_explore successors_of_size_le hn hi hsuccessors
  · obtain ⟨hmem, hi⟩ := hwithin.mp hi
    obtain ⟨hopener, hopener_mem, j, hj, hΓj⟩ :=
      (h.found_of_le hle hlt hhead hmem hi).opened b hb
    exact ⟨hwithin.mpr ⟨hopener_mem, hopener⟩, j, hj, hΓj⟩

/-- What is encoded for a rule may be placed as its block. -/
theorem laid_addBlock (rule : RuleId) : (s₁.addBlock rule head).Laid Γ' := by
  have hexplores := h.explores head
  obtain ⟨added, hadded⟩ := hexplores.append
  refine ⟨fun i hi ↦ h.fitsAt hi, h.emits.fullTables h.laid.fullTables,
    hexplores.nodup h.laid.nodup, fun i hi ↦ h.lt_of_mem hle hlt hhead hi, fun i hi j hj ↦ ?_,
    fun block hblock ↦ ?_, ?_⟩
  · rcases h.found_of_mem hle hlt hhead hi with hold | hfound
    · change j ∈ s₁.code.successors i at hj
      rw [h.successors_eq hold] at hj
      exact hexplores.mem_of_mem (h.laid.closed i hold j hj)
    · exact h.closed hfound.le hfound.mem hj
  · rcases Array.mem_push.mp hblock with hblock | rfl
    · rw [h.emits.blocks_eq] at hblock
      exact (h.laid.stretch block hblock).mono h.laid hadded h.emits.instrs_eq h.contexts_eq
    · exact h.stretch hle hlt hhead rule
  · have hsize_le : s.code.order.size ≤ (s₁.code.place head).order.size := by
      rw [hadded, Array.size_append]
      exact Nat.le_add_right _ _
    have happend := List.range'_append_1 (s := 0) (m := s.code.order.size)
      (n := (s₁.code.place head).order.size - s.code.order.size)
    rw [Nat.zero_add, Nat.add_sub_cancel' hsize_le] at happend
    rw [addBlock, Array.toList_push, List.flatMap_append, h.emits.blocks_eq, h.laid.tiles,
      h.emits.order_eq, List.range_eq_range', List.range_eq_range', List.flatMap_singleton]
    exact happend

end Unplaced

/-- Encoding the body of a rule gives it a block. -/
theorem Laid.encodeRule (hs : s.Laid Γ) {rule : RuleId} {body : ExprId} {u : Unit}
    (h : Session.encodeRule rule body s = some (u, s')) :
    ∃ Γ', s'.Laid Γ' ∧ s'.options = s.options ∧
      s'.blocks.toList.map Block.rule = s.blocks.toList.map Block.rule ++ [rule] := by
  obtain ⟨(ret : Nat), s₁, (head : Nat), s₂, hret, hhead, rfl⟩ := exists_of_encodeRule h
  obtain ⟨hemits, rfl, hsize, hinstr⟩ := Encoder.emits_emitWith hret
  obtain ⟨hemits', hle, hlt, htypes⟩ :=
    (Encoder.types_encode _ body).run hsize (hemits.fullTables hs.fullTables) hhead
  obtain ⟨contexts, hcontexts⟩ := htypes []
  -- nothing is open at the return, nor at what leads to it on the same level
  let Γ' (i : Nat) : Context :=
    if i < s.code.instrs.size then Γ i else if i = s.code.instrs.size then [] else contexts i
  have hΓ (i : Nat) (hi : i < s.code.instrs.size) : Γ' i = Γ i := if_pos hi
  have hret_eq : Γ' s.code.instrs.size = [] :=
    (if_neg (Nat.lt_irrefl _)).trans (if_pos rfl)
  obtain ⟨hhead_eq, hfits⟩ := hcontexts s₂.code.instrs Γ' s.code.instrs.size hemits.size_le
    (fun i _ _ ↦ rfl)
    (fun j hj ↦ by rw [List.mem_singleton.mp hj]; exact ⟨Nat.le_refl _, hret_eq⟩)
    fun i hi _ ↦ (if_neg (by omega)).trans (if_neg (by omega))
  have hunplaced : s.Unplaced s₂ Γ Γ' := by
    refine ⟨hs, hemits.trans hemits', hΓ, fun i hi hi_lt ↦ ?_⟩
    rcases Nat.eq_or_lt_of_le hi with rfl | hi
    · exact ⟨_, (hemits'.instrs_eq _ (by omega)).trans hinstr, .ret hret_eq,
        fun j hj ↦ (nomatch hj), fun _ _ h ↦ nomatch h⟩
    · rw [hemits'.options_eq]
      exact hfits i (by omega) hi_lt
  have hlaid := hunplaced.laid_addBlock hle hlt (hhead_eq head (List.mem_singleton_self _)) rule
  refine ⟨Γ', hlaid, hunplaced.emits.options_eq, ?_⟩
  rw [addBlock, Array.toList_push, List.map_append, hunplaced.emits.blocks_eq]
  rfl

/-- Compiling a rule makes a block for it unless it has one. -/
theorem Laid.compileRule (hs : s.Laid Γ) {rule : RuleId}
    (h : s.compileRule rule = some (.ok s')) :
    ∃ Γ', s'.Laid Γ' ∧ s'.options = s.options ∧ s'.blocks.toList.map Block.rule =
      if rule ∈ s.blocks.toList.map Block.rule then s.blocks.toList.map Block.rule
      else s.blocks.toList.map Block.rule ++ [rule] := by
  have hblock : (s.block? rule).isSome ↔ rule ∈ s.blocks.toList.map Block.rule := by
    rw [block?, Array.find?_isSome]
    simp
  rcases exists_of_compileRule h with ⟨hsome, rfl⟩ | ⟨hnone, body, u, -, hrule⟩
  · exact ⟨Γ, hs, rfl, (if_pos (hblock.mp hsome)).symm⟩
  · obtain ⟨Γ', hlaid, hoptions, hblocks⟩ := hs.encodeRule hrule
    have hnot : rule ∉ s.blocks.toList.map Block.rule := fun hmem ↦
      Option.not_isSome_iff_eq_none.mpr hnone (hblock.mpr hmem)
    exact ⟨Γ', hlaid, hoptions, hblocks.trans (if_neg hnot).symm⟩

/-- Compiling rules one after the other makes a block for each rule that occurs. -/
theorem Laid.compileRules (hs : s.Laid Γ) {done rules : List RuleId}
    (hdone : s.blocks.toList.map Block.rule = done.eraseDups)
    (h : s.compileRules rules = some (none, s')) :
    ∃ Γ', s'.Laid Γ' ∧ s'.options = s.options ∧
      s'.blocks.toList.map Block.rule = (done ++ rules).eraseDups := by
  induction rules generalizing s Γ done with
  | nil =>
    cases h
    exact ⟨Γ, hs, rfl, by rw [List.append_nil, hdone]⟩
  | cons rule rules ih =>
    unfold Session.compileRules at h
    split at h
    · cases h
    · cases h
    · rename_i s₁ hrule
      obtain ⟨Γ₁, hs₁, hoptions, hblocks⟩ := hs.compileRule hrule
      have hdone₁ : s₁.blocks.toList.map Block.rule = (done ++ [rule]).eraseDups := by
        rw [hblocks, hdone, List.eraseDups_append]
        simp only [List.mem_eraseDups]
        split
        · simp [List.removeAll, *]
        · simp [List.removeAll, List.eraseDups_cons, *]
      obtain ⟨Γ', hs', hoptions', hblocks'⟩ := ih hs₁ hdone₁ h
      refine ⟨Γ', hs', hoptions'.trans hoptions, ?_⟩
      rw [hblocks', List.append_assoc, List.singleton_append]

/-! ### Finished programs -/

/-- Where an instruction of the arena is in the finished program. -/
def moved (s : Session) : InstrId → InstrId :=
  Code.placeOf s.code.places

/-- The contexts of the instructions of the finished program. -/
def contexts (s : Session) (Γ : InstrId → Context) (n : InstrId) : Context :=
  match s.code.order[n]? with
  | some i => (Γ i).map (Bracket.moved s.moved)
  | none => []

variable {p : Program} {n : Nat}

/-- A placed instruction moves to its place. -/
theorem Laid.moved_eq (hs : s.Laid Γ) (hn : s.code.order[n]? = some i) : s.moved i = n :=
  Code.placeOf_places hs.nodup hn (hs.order_lt i (Array.mem_of_getElem? hn))

/-- The context at a place is that of the instruction, moved. -/
theorem Laid.contexts_moved (hs : s.Laid Γ) (hi : i ∈ s.code.order) :
    s.contexts Γ (s.moved i) = (Γ i).map (Bracket.moved s.moved) := by
  obtain ⟨n, hn⟩ := Array.mem_iff_getElem?.mp hi
  rw [contexts, hs.moved_eq hn, hn]

theorem Laid.moved_lt (hs : s.Laid Γ) (hi : i ∈ s.code.order) : s.moved i < s.code.order.size := by
  obtain ⟨n, hn⟩ := Array.mem_iff_getElem?.mp hi
  rw [hs.moved_eq hn]
  exact (Array.getElem?_eq_some_iff.mp hn).1

/-- An instruction of the finished program and the one of the arena from which it was made. -/
structure Moves (s : Session) (instr instr' : Instruction) : Prop where
  /-- The operation is linked and renumbered. -/
  op_eq : instr'.op = (instr.op.linked s.head?).mapTargets s.moved
  /-- The fallthrough is renumbered. -/
  next_eq : instr'.next = instr.next.map s.moved
  /-- The expression is the same. -/
  origin_eq : instr'.origin = instr.origin

/-- The program holds each placed instruction at its place. -/
theorem Laid.fetch (hs : s.Laid Γ) (hp : s.finish = .ok p) : p.size = s.code.order.size ∧
    ∀ (n : Nat) (i : InstrId) instr, s.code.order[n]? = some i → s.code.instrs[i]? = some instr →
      ∃ instr', p.code[n]? = some instr' ∧ s.Moves instr instr' := by
  obtain ⟨code, hlinked, hcode, -⟩ := finish_eq_ok hp
  obtain ⟨horder, hsize, hinstrs, -⟩ := linked_eq_ok hlinked
  have hlt : ∀ i ∈ code.order, i < code.instrs.size := by
    rw [horder, hsize]
    exact hs.order_lt
  have hplaces : Code.placeOf code.places = s.moved := by
    rw [moved, Code.places, Code.places, horder, hsize]
  refine ⟨?_, fun n i instr hn hinstr ↦ ?_⟩
  · rw [Program.size, hcode, Code.size_numbered hlt, horder]
  · obtain ⟨label, hget⟩ := Code.exists_label hlt (s.blocks.toList.map Block.head) n
    rw [horder, hn, Option.map_some, hinstrs i (Array.mem_of_getElem? hn), hinstr, hplaces] at hget
    rw [← hcode] at hget
    exact ⟨_, hget, rfl, rfl, rfl⟩

/-- Every instruction of the program was placed. -/
theorem Laid.exists_placed (hs : s.Laid Γ) (hp : s.finish = .ok p) {instr' : Instruction}
    (h : p.code[n]? = some instr') :
    ∃ i instr, s.code.order[n]? = some i ∧ s.code.instrs[i]? = some instr ∧
      s.Moves instr instr' := by
  obtain ⟨hsize, hfetch⟩ := hs.fetch hp
  have hlt : n < s.code.order.size := by
    rw [← hsize]
    exact (Array.getElem?_eq_some_iff.mp h).1
  have hn := Array.getElem?_eq_getElem hlt
  obtain ⟨instr, hinstr, -⟩ := hs.fits _ (hs.order_lt _ (Array.getElem_mem hlt))
  obtain ⟨instr'', hget, hrest⟩ := hfetch n _ instr hn hinstr
  rw [h] at hget
  cases hget
  exact ⟨_, instr, hn, hinstr, hrest⟩

/-- Calls go to the heads of blocks. -/
theorem Laid.head_of_head? (hs : s.Laid Γ) {rule : RuleId} {head : InstrId}
    (h : s.head? rule = some head) :
    ∃ block ∈ s.blocks, s.block? rule = some block ∧ block.head = head ∧ head ∈ s.code.order ∧
      Γ head = [] := by
  obtain ⟨block, hblock, rfl⟩ := Option.map_eq_some_iff.mp h
  have hmem := Array.mem_of_find?_eq_some hblock
  have hstretch := hs.stretch block hmem
  exact ⟨block, hmem, hblock, rfl, Array.mem_of_getElem? hstretch.head, hstretch.head_eq⟩

/-- The blocks of the program. -/
theorem blocks_of_finish (hp : s.finish = .ok p) :
    p.blocks = s.blocks.map (fun block ↦ { block with head := s.moved block.head }) ∧
      ∃ block, s.blocks[0]? = some block ∧ p.entry = s.moved block.head := by
  have hne : s.blocks.isEmpty = false := by
    rw [Bool.eq_false_iff]
    intro hempty
    rw [finish, if_pos hempty] at hp
    cases hp
  obtain ⟨code, hlinked, -, hblocks, -⟩ := finish_eq_ok hp
  obtain ⟨horder, hsize, -⟩ := linked_eq_ok hlinked
  have hplaces : Code.placeOf code.places = s.moved := by
    rw [moved, Code.places, Code.places, horder, hsize]
  rw [hplaces] at hblocks
  have hlt : 0 < s.blocks.size := by
    refine Nat.pos_of_ne_zero fun hzero ↦ ?_
    rw [Array.isEmpty, hzero] at hne
    cases hne
  have hfirst := Array.getElem?_eq_getElem hlt
  refine ⟨hblocks, _, hfirst, ?_⟩
  rw [Program.entry, hblocks, Array.getElem?_map, hfirst]
  rfl

/-- The jumps of an operation that is no call. -/
theorem branches_moved {op : Opcode} (hop : ∀ rule target, op ≠ .call rule target)
    (target : RuleId → Option InstrId) (place : InstrId → InstrId) :
    ((op.linked target).mapTargets place).branches = op.branches.map place := by
  cases op with
  | call rule old => exact absurd rfl (hop rule old)
  | _ => rfl

/-- An instruction that is no call leads to where it led in the arena. -/
theorem Moves.successors_eq {instr instr' : Instruction} (h : s.Moves instr instr')
    (hop : ∀ rule target, instr.op ≠ .call rule target) :
    instr'.successors = instr.successors.map s.moved := by
  rw [Instruction.successors, h.op_eq, h.next_eq, branches_moved hop, Instruction.successors,
    List.map_append]
  cases instr.next <;> rfl

/-- A call leads to where it returns to and to the head of the block of the rule. -/
theorem Moves.successors_call {instr instr' : Instruction} (h : s.Moves instr instr')
    {rule : RuleId} {target : Option InstrId} (hop : instr.op = .call rule target) :
    instr'.successors = (instr.next.toList ++ (s.head? rule).toList).map s.moved := by
  rw [Instruction.successors, h.op_eq, h.next_eq, hop, List.map_append]
  cases instr.next <;> cases hhead : s.head? rule <;> simp [Opcode.linked, Opcode.mapTargets,
    Opcode.branches, hhead]

/-- Before linking calls lead only to where they return to, and this stays so. -/
theorem Moves.mem_successors {instr instr' : Instruction} (h : s.Moves instr instr')
    (hcall : ∀ rule target, instr.op = .call rule target → target = none) {j : InstrId}
    (hj : j ∈ instr.successors) : s.moved j ∈ instr'.successors := by
  by_cases hop : ∃ rule target, instr.op = .call rule target
  · obtain ⟨rule, target, hop⟩ := hop
    obtain rfl := hcall rule target hop
    rw [Instruction.successors, hop] at hj
    rw [h.successors_call hop]
    exact List.mem_map_of_mem (List.mem_append_left _ (by simpa [Opcode.branches] using hj))
  · rw [h.successors_eq fun rule target h ↦ hop ⟨rule, target, h⟩]
    exact List.mem_map_of_mem hj

/-- What a placed instruction leads to is placed. -/
theorem Laid.mem_order (hs : s.Laid Γ) (hi : i ∈ s.code.order) {instr : Instruction}
    (hinstr : s.code.instrs[i]? = some instr) {j : InstrId} (hj : j ∈ instr.successors) :
    j ∈ s.code.order := by
  refine hs.closed i hi j ?_
  rwa [Code.successors, hinstr]

/-- Every instruction of the program fits. -/
theorem Laid.fits_of_finish (hs : s.Laid Γ) (hp : s.finish = .ok p) {instr' : Instruction}
    (h : p.code[n]? = some instr') :
    Fits s.options.tracing p.code (s.contexts Γ) n instr'.origin instr'.op instr'.next := by
  obtain ⟨-, hfetch⟩ := hs.fetch hp
  obtain ⟨i, instr, hn, hinstr, hmoves⟩ := hs.exists_placed hp h
  have hi := Array.mem_of_getElem? hn
  obtain ⟨_, hinstr', hfits, -⟩ := hs.fits i (hs.order_lt i hi)
  cases hinstr.symm.trans hinstr'
  rw [hmoves.op_eq, hmoves.next_eq, hmoves.origin_eq, ← hs.moved_eq hn]
  refine hfits.map _ _ (hs.contexts_moved hi)
    (fun j hj ↦ hs.contexts_moved (hs.mem_order hi hinstr hj))
    (fun rule t ht ↦ ?_) fun j hj instr₂ use child onHit onMemoFail hget hlookup ↦ ?_
  · obtain ⟨block, -, -, -, hmem, hnil⟩ := hs.head_of_head? ht
    rw [hs.contexts_moved hmem, hnil]
    rfl
  · obtain ⟨m, hm⟩ := Array.mem_iff_getElem?.mp
      (hs.mem_order hi hinstr (List.mem_append_right _ hj))
    obtain ⟨instr₂', hget', hmoves₂⟩ := hfetch m j instr₂ hm hget
    rw [hs.moved_eq hm]
    exact ⟨instr₂', hget', by rw [hmoves₂.op_eq, hlookup]; rfl⟩

/-- An instruction of the program leads to placed instructions, a call to the head of a block. -/
theorem Laid.exists_successor (hs : s.Laid Γ) (hp : s.finish = .ok p) {instr' : Instruction}
    (h : p.code[n]? = some instr') {j : InstrId} (hj : j ∈ instr'.successors) :
    ∃ x ∈ s.code.order, j = s.moved x := by
  obtain ⟨i, instr, hn, hinstr, hmoves⟩ := hs.exists_placed hp h
  have hi := Array.mem_of_getElem? hn
  by_cases hcall : ∃ rule target, instr.op = .call rule target
  · obtain ⟨rule, target, hcall⟩ := hcall
    rw [hmoves.successors_call hcall] at hj
    obtain ⟨x, hx, rfl⟩ := List.mem_map.mp hj
    refine ⟨x, (List.mem_append.mp hx).elim (fun hx ↦ ?_) fun hx ↦ ?_, rfl⟩
    · exact hs.mem_order hi hinstr (List.mem_append_left _ hx)
    · obtain ⟨-, -, -, -, hmem, -⟩ := hs.head_of_head? (Option.mem_toList.mp hx)
      exact hmem
  · rw [hmoves.successors_eq fun rule target h ↦ hcall ⟨rule, target, h⟩] at hj
    obtain ⟨x, hx, rfl⟩ := List.mem_map.mp hj
    exact ⟨x, hs.mem_order hi hinstr hx, rfl⟩

/-- Every call of the program is linked. -/
theorem Laid.linked_of_finish (hs : s.Laid Γ) (hp : s.finish = .ok p) {instr' : Instruction}
    (h : p.code[n]? = some instr') (rule : RuleId) : instr'.op ≠ .call rule none := by
  intro hop
  obtain ⟨code, hlinked, -⟩ := finish_eq_ok hp
  obtain ⟨-, -, -, hcalls⟩ := linked_eq_ok hlinked
  obtain ⟨i, instr, hn, hinstr, hmoves⟩ := hs.exists_placed hp h
  rw [hmoves.op_eq] at hop
  obtain ⟨op, next, origin, label⟩ := instr
  cases op with
  | call rule' old =>
    have hsome := hcalls i (Array.mem_of_getElem? hn) _ rule' old hinstr rfl
    simp only [Opcode.linked, Opcode.mapTargets, Opcode.call.injEq] at hop
    rw [Option.map_eq_none_iff.mp hop.2] at hsome
    cases hsome
  | _ => cases hop

/-- The finished program is typed. -/
theorem Laid.typed_of_finish (hs : s.Laid Γ) (hp : s.finish = .ok p) :
    Typed s.options.tracing p (s.contexts Γ) := by
  obtain ⟨hsize, -⟩ := hs.fetch hp
  obtain ⟨-, block, hblock, hentry⟩ := blocks_of_finish hp
  have hstretch := hs.stretch block (Array.mem_of_getElem? hblock)
  have hhead := Array.mem_of_getElem? hstretch.head
  refine ⟨fun n instr' h ↦ hs.fits_of_finish hp h, fun n instr' h j hj ↦ ?_,
    fun n instr' rule h ↦ hs.linked_of_finish hp h rule, ?_, ?_⟩
  · obtain ⟨x, hx, rfl⟩ := hs.exists_successor hp h hj
    rw [hsize]
    exact hs.moved_lt hx
  · rw [hentry, hsize]
    exact hs.moved_lt hhead
  · rw [hentry, hs.contexts_moved hhead, hstretch.head_eq]
    rfl

/-- The blocks of the program are those of the session. -/
theorem exists_block (hp : s.finish = .ok p) (hblock : block ∈ p.blocks) :
    ∃ old ∈ s.blocks, block = { old with head := s.moved old.head } := by
  rw [(blocks_of_finish hp).1] at hblock
  obtain ⟨old, hold, rfl⟩ := Array.mem_map.mp hblock
  exact ⟨old, hold, rfl⟩

/-- Places in a block stay in the block. -/
theorem Laid.moved_within (hs : s.Laid Γ) (hi : s.Within block i) :
    block.start ≤ s.moved i ∧ s.moved i < block.stop := by
  obtain ⟨n, hstart, hstop, hn⟩ := hi
  rw [hs.moved_eq hn]
  exact ⟨hstart, hstop⟩

theorem mem_order_of_within (hi : s.Within block i) : i ∈ s.code.order := by
  obtain ⟨n, -, -, hn⟩ := hi
  exact Array.mem_of_getElem? hn

/-- Brackets are opened in the block in which they are open. -/
theorem Laid.opened_of_finish (hs : s.Laid Γ) (hp : s.finish = .ok p) :
    Opened p (s.contexts Γ) := by
  obtain ⟨-, hfetch⟩ := hs.fetch hp
  intro block hblock n hstart hstop b hb
  obtain ⟨old, hold, rfl⟩ := exists_block hp hblock
  have hstretch := hs.stretch old hold
  have hlt := Nat.lt_of_lt_of_le hstop hstretch.stop_le
  have hn := Array.getElem?_eq_getElem hlt
  rw [contexts, hn] at hb
  obtain ⟨b', hb', rfl⟩ := List.mem_map.mp hb
  obtain ⟨hopener, j, hj, hΓj⟩ := hstretch.opened _ ⟨n, hstart, hstop, hn⟩ b' hb'
  obtain ⟨hstart', hstop'⟩ := hs.moved_within hopener
  refine ⟨hstart', hstop', ?_⟩
  obtain ⟨m, -, -, hm⟩ := id hopener
  obtain ⟨instr, hinstr, -, -, hcall⟩ := hs.fits _ (hs.order_lt _ (Array.mem_of_getElem? hm))
  obtain ⟨instr', hinstr', hmoves⟩ := hfetch m b'.opener instr hm hinstr
  rw [← hs.moved_eq hm] at hinstr'
  rw [Code.successors, hinstr] at hj
  refine ⟨instr', hinstr', s.moved j, hmoves.mem_successors hcall hj, ?_⟩
  have hj' := hstretch.closed _ hopener j (by rwa [Code.successors, hinstr])
  rw [hs.contexts_moved (mem_order_of_within hj'), hΓj, List.map_cons,
    ← hs.contexts_moved (mem_order_of_within hopener)]
  rfl

end Session

end ParsingMachine
