import ParsingMachine.Compile.Basic
import ParsingMachine.Proofs.Compile.Encode
import ParsingMachine.Proofs.Graph.Explore

/-!
# What a finished program holds

The program holds the placed instructions at their places, with linked calls and renumbered targets.

So the arena of a session and the program that is made of it hold the same code, seen through the
order in which instructions were placed. The order has no repetitions, so every placed instruction
has one place (`Code.getElem?_numbered`), and it is closed under what instructions lead to, so
renumbering finds a place for whatever is referred to.

Compiling rules keeps an invariant (`Session.Compiled`): the session is valid, the order is as
above, and the block of a rule holds placed code for its body. The last is said of all images that
include the session (`Session.Lays`), so it is not lost when more rules are compiled, and code that
was placed before may be shared. A rule is compiled in two steps. First its body is encoded, which
is a matter of encoders alone; then the code that was made is placed as the block of the rule
(`Session.addBlock`).

A session that is finished is an image: the program, the arena from which it was made, and the
places as the map between them (`Session.Compiled.image`). What is known of code in images then
holds of the program, and the machine halts on it with what the body of the first rule yields.

Nothing is said here of sessions that cannot be finished. When that happens is a question of which
rules are referred to.

## Main statements

* `Code.getElem?_numbered`: where a placed instruction stands.
* `Session.linked_eq_ok`: what linking changes.
* `Session.Compiled.compileRules`: every compiled rule has a block of code for its body, all of
  which is placed.
* `Session.Compiled.halts`: the finished program halts with what the body of its first rule yields.
-/

namespace ParsingMachine

open Machine

/-! ### Numbering -/

namespace Code

variable {c : Code} {i : InstrId}

/-- Numbering the instructions of an order one after the other. -/
theorem getElem?_foldl_zipIdx {order : List InstrId} (hnodup : order.Nodup) (k : Nat)
    {places : Array (Option InstrId)} (hlt : i < places.size) :
    ((order.zipIdx k).foldl (fun places (i, n) ↦ places.setIfInBounds i (some n)) places)[i]? =
      if i ∈ order then some (some (order.idxOf i + k)) else places[i]? := by
  induction order generalizing k places with
  | nil => rfl
  | cons x order ih =>
    obtain ⟨hx, hnodup⟩ := List.nodup_cons.mp hnodup
    rw [List.zipIdx_cons, List.foldl_cons, ih hnodup (k + 1) (by simpa using hlt)]
    by_cases hxi : x = i
    · subst hxi
      rw [if_neg hx, if_pos List.mem_cons_self, List.idxOf_cons_self, Nat.zero_add,
        Array.getElem?_setIfInBounds_self_of_lt hlt]
    · rw [List.idxOf_cons_ne _ hxi, Array.getElem?_setIfInBounds_ne hxi]
      simp only [List.mem_cons, Ne.symm hxi, false_or]
      split
      · rw [Nat.succ_add_eq_add_succ]
      · rfl

/-- An order without repetition gives every instruction its own place. -/
theorem getElem?_places (hnodup : c.order.toList.Nodup) {n : Nat} (hi : c.order[n]? = some i)
    (hlt : i < c.instrs.size) : c.places[i]? = some (some n) := by
  have hmem : c.order.toList[n]? = some i := by rwa [Array.getElem?_toList]
  obtain ⟨hn, hget⟩ := List.getElem?_eq_some_iff.mp hmem
  rw [places, ← Array.foldl_toList, Array.toList_zipIdx,
    getElem?_foldl_zipIdx hnodup 0 (by simpa using hlt), if_pos (List.mem_of_getElem? hmem), ← hget,
    hnodup.idxOf_getElem]
  rfl

/-- A placed instruction is found at its place. -/
theorem placeOf_places (hnodup : c.order.toList.Nodup) {n : Nat} (hi : c.order[n]? = some i)
    (hlt : i < c.instrs.size) : placeOf c.places i = n := by
  rw [placeOf, getElem?_places hnodup hi hlt]
  rfl

/-- The instruction at a place. -/
theorem exists_label (hlt : ∀ i ∈ c.order, i < c.instrs.size) (heads : List InstrId) (n : Nat) :
    ∃ label, (c.numbered heads)[n]? = c.order[n]?.map fun i ↦
      { (c.instrs[i]?.getD default).mapTargets (placeOf c.places) with label := label } := by
  have hfilter : c.order.filterMap (fun i ↦ c.instrs[i]?.map (·.mapTargets (placeOf c.places))) =
      c.order.map fun i ↦ (c.instrs[i]?.getD default).mapTargets (placeOf c.places) := by
    rw [← Array.toList_inj, Array.toList_filterMap, Array.toList_map, ← List.filterMap_eq_map]
    refine List.filterMap_congr fun j hj ↦ ?_
    rw [Function.comp, Array.getElem?_eq_getElem (hlt j (Array.mem_toList_iff.mp hj))]
    rfl
  have hget := getElem?_labelled (c.order.filterMap fun i ↦ c.instrs[i]?.map
    (·.mapTargets (placeOf c.places))) (heads.map (placeOf c.places)) n
  rw [hfilter, Array.getElem?_map, Option.map_map, ← hfilter] at hget
  exact ⟨_, hget⟩

/-- There are as many instructions as places. -/
theorem size_numbered (hlt : ∀ i ∈ c.order, i < c.instrs.size) (heads : List InstrId) :
    (c.numbered heads).size = c.order.size := by
  have hsome (n : Nat) : n < (c.numbered heads).size ↔ n < c.order.size := by
    obtain ⟨label, hlabel⟩ := exists_label hlt heads n
    have hnone := congrArg (· = none) hlabel
    simp only [Option.map_eq_none_iff, Array.getElem?_eq_none_iff, eq_iff_iff] at hnone
    omega
  have := hsome (c.numbered heads).size
  have := hsome c.order.size
  omega

/-- Where a placed instruction stands. -/
theorem getElem?_numbered (hnodup : c.order.toList.Nodup) (hlt : ∀ i ∈ c.order, i < c.instrs.size)
    (heads : List InstrId) (hi : i ∈ c.order) {instr : Instruction}
    (hinstr : c.instrs[i]? = some instr) :
    ∃ instr', (c.numbered heads)[placeOf c.places i]? = some instr' ∧
      instr'.op = instr.op.mapTargets (placeOf c.places) ∧
      instr'.next = instr.next.map (placeOf c.places) := by
  obtain ⟨n, hn⟩ := Array.mem_iff_getElem?.mp hi
  obtain ⟨label, hget⟩ := exists_label hlt heads n
  rw [hn, Option.map_some, hinstr] at hget
  rw [placeOf_places hnodup hn (hlt i hi)]
  exact ⟨_, hget, rfl, rfl⟩

end Code

/-! ### Linking -/

namespace Session

variable {s s' s₁ s₂ : Session}

/-- Where calls to a rule go, if it has a block. -/
def head? (s : Session) (rule : RuleId) : Option InstrId :=
  (s.block? rule).map Block.head

theorem head?_of_target {rule : RuleId} {head : InstrId} (h : s.target rule = .ok head) :
    s.head? rule = some head := by
  unfold target at h
  unfold head?
  split at h
  · rename_i block hblock
    cases h
    rw [hblock]
    rfl
  · cases h
  · cases h

/-- What linking makes of an instruction. -/
def link (s : Session) (instr : Instruction) : Instruction :=
  { instr with op := instr.op.linked s.head? }

/-- Linking again changes nothing. -/
theorem link_link (s : Session) (instr : Instruction) : s.link (s.link instr) = s.link instr := by
  obtain ⟨op, next, origin, label⟩ := instr
  cases op <;> rfl

/-- Linking one instruction. -/
theorem linkInstruction_eq_ok {c c' : Code} {i : InstrId} (h : s.linkInstruction c i = .ok c') :
    c'.order = c.order ∧
      (∀ j, c'.instrs[j]? = if i = j then c.instrs[j]?.map s.link else c.instrs[j]?) ∧
      ∀ instr rule target, c.instrs[i]? = some instr → instr.op = .call rule target →
        (s.head? rule).isSome := by
  unfold linkInstruction at h
  split at h
  · rename_i rule target next origin label hinstr
    rcases htarget : s.target rule with e | head
    · rw [htarget] at h
      cases h
    · rw [htarget] at h
      cases h
      have hhead := head?_of_target htarget
      refine ⟨rfl, fun j ↦ ?_, fun instr rule' target' hinstr' hop ↦ ?_⟩
      · simp only [Code.patchOp, Array.getElem?_modify]
        split
        · rename_i hij
          subst hij
          rw [hinstr, Option.map_some, Option.map_some, link, Opcode.linked, hhead]
        · rfl
      · rw [hinstr] at hinstr'
        cases hinstr'
        cases hop
        rw [hhead]
        rfl
  · rename_i hnot
    cases h
    refine ⟨rfl, fun j ↦ ?_, fun instr rule target hinstr hop ↦ ?_⟩
    · split
      · rename_i hij
        subst hij
        rcases hinstr : c.instrs[i]? with - | ⟨op, next, origin, label⟩
        · rfl
        · cases op with
          | call rule target => exact absurd hinstr (hnot rule target next origin label)
          | _ => rfl
      · rfl
    · obtain ⟨op, next, origin, label⟩ := instr
      subst hop
      exact absurd hinstr (hnot rule target next origin label)

/-- Linking some instructions, one after the other. -/
theorem foldlM_linkInstruction_eq_ok {order : List InstrId} {c c' : Code}
    (h : order.foldlM s.linkInstruction c = .ok c') :
    c'.order = c.order ∧
      (∀ j, c'.instrs[j]? = if j ∈ order then c.instrs[j]?.map s.link else c.instrs[j]?) ∧
      ∀ i ∈ order, ∀ instr rule target, c.instrs[i]? = some instr → instr.op = .call rule target →
        (s.head? rule).isSome := by
  induction order generalizing c with
  | nil =>
    cases h
    exact ⟨rfl, fun _ ↦ rfl, fun _ hi ↦ (nomatch hi)⟩
  | cons x order ih =>
    rw [List.foldlM_cons] at h
    rcases hstep : s.linkInstruction c x with e | c₁
    · rw [hstep] at h
      cases h
    · rw [hstep] at h
      obtain ⟨horder, hinstrs, hcalls⟩ := linkInstruction_eq_ok hstep
      obtain ⟨horder', hinstrs', hcalls'⟩ := ih h
      refine ⟨horder'.trans horder, fun j ↦ ?_, fun i hi instr rule target hinstr hop ↦ ?_⟩
      · rw [hinstrs', hinstrs]
        by_cases hjx : x = j
        · subst hjx
          rw [if_pos rfl, if_pos List.mem_cons_self, Option.map_map]
          -- an instruction that is linked once more stays as it is
          split
          · exact congrArg (Option.map · _) (funext s.link_link)
          · rfl
        · simp only [List.mem_cons, Ne.symm hjx, false_or, if_neg hjx]
      · by_cases hix : x = i
        · subst hix
          exact hcalls instr rule target hinstr hop
        · have hrest := (List.mem_cons.mp hi).resolve_left (Ne.symm hix)
          refine hcalls' i hrest instr rule target ?_ hop
          rw [hinstrs, if_neg hix, hinstr]

/-- What linking changes: each placed instruction is linked, and each placed call has a target. -/
theorem linked_eq_ok {c : Code} (h : s.linked = .ok c) :
    c.order = s.code.order ∧ c.instrs.size = s.code.instrs.size ∧
      (∀ i ∈ s.code.order, c.instrs[i]? = s.code.instrs[i]?.map s.link) ∧
      ∀ i ∈ s.code.order, ∀ instr rule target, s.code.instrs[i]? = some instr →
        instr.op = .call rule target → (s.head? rule).isSome := by
  rw [linked] at h
  obtain ⟨horder, hinstrs, hcalls⟩ := foldlM_linkInstruction_eq_ok h
  refine ⟨horder, ?_, fun i hi ↦ ?_, fun i hi ↦ hcalls i (Array.mem_toList_iff.mpr hi)⟩
  · -- nothing is said of sizes, so compare where the arrays end
    have hsome (j : Nat) : c.instrs[j]?.isSome = s.code.instrs[j]?.isSome := by
      rw [hinstrs j]
      split <;> simp
    refine Nat.le_antisymm (Nat.le_of_not_lt fun hlt ↦ ?_) (Nat.le_of_not_lt fun hlt ↦ ?_)
    · have := hsome s.code.instrs.size
      simp [hlt] at this
    · have := hsome c.instrs.size
      simp [hlt] at this
  · rw [hinstrs, if_pos (Array.mem_toList_iff.mpr hi)]

/-! ### Compiling a rule -/

/-- The session when the code from the head is placed as the block of a rule. -/
def addBlock (s : Session) (rule : RuleId) (head : InstrId) : Session where
  __ := s
  code := s.code.place head
  blocks := s.blocks.push ⟨rule, head, s.code.order.size, (s.code.place head).order.size⟩

/-- Encoding a body makes its return first, then the code that leads there, and places it. -/
theorem exists_of_encodeRule {rule : RuleId} {body : ExprId} {u : Unit}
    (h : Session.encodeRule rule body s = some (u, s')) :
    ∃ ret s₁ head s₂, Encoder.emitEnd .ret body s = some (ret, s₁) ∧
      Encoder.encode s₁.depth body ret s₁ = some (head, s₂) ∧ s' = s₂.addBlock rule head := by
  obtain ⟨ret, s₁, hret, h⟩ := Encoder.bind_eq_some h
  obtain ⟨depth, _, hdepth, h⟩ := Encoder.bind_eq_some h
  cases hdepth
  obtain ⟨head, s₂, hhead, h⟩ := Encoder.bind_eq_some h
  cases h
  exact ⟨ret, s₁, head, s₂, hret, hhead, rfl⟩

/-- A rule that has a block is left alone; the body of another one is encoded. -/
theorem exists_of_compileRule {rule : RuleId} (h : s.compileRule rule = some (.ok s')) :
    ((s.block? rule).isSome ∧ s' = s) ∨ (s.block? rule = none ∧
      ∃ body u, s.grammar.body? rule = some body ∧ encodeRule rule body s = some (u, s')) := by
  unfold compileRule at h
  split at h
  · rename_i hsome
    cases h
    exact .inl ⟨hsome, rfl⟩
  · rename_i hnone
    split at h
    · cases h
    · rename_i body hbody
      obtain ⟨⟨u, s₁⟩, hrule, heq⟩ := Option.map_eq_some_iff.mp h
      cases heq
      exact .inr ⟨Option.not_isSome_iff_eq_none.mp hnone, body, u, hbody, hrule⟩

/-- What compiling a rule keeps is kept by compiling rules, to the end or to an error. -/
theorem keeps_compileRules_of_step {P : Session → Prop}
    (hstep : ∀ rule s s', P s → s.compileRule rule = some (.ok s') → P s') {rules : List RuleId}
    {e : Option CompileError} (h : s.compileRules rules = some (e, s')) (hs : P s) : P s' := by
  induction rules generalizing s with
  | nil =>
    cases h
    exact hs
  | cons rule rules ih =>
    unfold compileRules at h
    split at h
    · cases h
    · cases h
      exact hs
    · rename_i s₁ hrule
      exact ih h (hstep rule s s₁ hs hrule)

/-! ### Blocks -/

/-- The block of a rule holds placed code for its body. -/
structure Lays (s : Session) (block : Block) : Prop where
  /-- Its code is placed. -/
  head_mem : block.head ∈ s.code.order
  /-- The rule is defined, and the code is code for its body in all that includes the session. -/
  code : ∃ body, s.grammar.body? block.rule = some body ∧
    ∀ W src, Image.Includes W { s with code := {} } s →
      ∃ ret, W.Holds ret .ret none ∧ W.Encodes src (.node body) block.head ret

/-- What compiling rules keeps. -/
structure Compiled (s : Session) : Prop where
  /-- Encoding may go on. -/
  valid : s.Valid
  /-- Nothing is placed twice. -/
  nodup : s.code.order.toList.Nodup
  /-- Instructions are placed. -/
  order_lt : ∀ i ∈ s.code.order, i < s.code.instrs.size
  /-- What follows a placed instruction is placed. -/
  closed : ∀ i ∈ s.code.order, ∀ j ∈ s.code.successors i, j ∈ s.code.order
  /-- Blocks hold the code of their rules. -/
  blocks : ∀ block ∈ s.blocks, s.Lays block

/-- A session and what compiling rules made of it. -/
structure Advances (s s' : Session) : Prop where
  /-- The grammar grows. -/
  grows : s.grammar.Grows s'.grammar
  /-- The jump tables stay. -/
  tables_eq : s'.grammar.tables = s.grammar.tables
  /-- The options stay. -/
  options_eq : s'.options = s.options
  /-- Blocks are only added. -/
  blocks : ∃ added, s'.blocks = s.blocks ++ added
  /-- The new session is fine. -/
  compiled : s'.Compiled

theorem Advances.refl (hs : s.Compiled) : s.Advances s :=
  ⟨.refl _, rfl, rfl, ⟨#[], Array.append_empty.symm⟩, hs⟩

theorem Advances.trans (h : s.Advances s₁) (h' : s₁.Advances s₂) : s.Advances s₂ := by
  obtain ⟨added, hadded⟩ := h.blocks
  obtain ⟨added', hadded'⟩ := h'.blocks
  exact ⟨h.grows.trans h'.grows, h'.tables_eq.trans h.tables_eq, h'.options_eq.trans h.options_eq,
    ⟨added ++ added', by rw [hadded', hadded, Array.append_assoc]⟩, h'.compiled⟩

theorem compiled_start {g : Grammar} (hg : g.WellFormed) (hs : g.SoundSimplified)
    (ht : g.SoundTables) (depth : Nat) (o : Options) : (start depth g o).Compiled where
  valid := ⟨hg, hs, ht, fun _ _ h ↦ by simp [start] at h, fun _ _ h ↦ by simp [start] at h⟩
  nodup := List.nodup_nil
  order_lt _ h := absurd h (Array.not_mem_empty _)
  closed _ h := absurd h (Array.not_mem_empty _)
  blocks _ h := absurd h (Array.not_mem_empty _)

theorem successors_of_size_le {c : Code} (i : InstrId) (hi : c.instrs.size ≤ i) :
    c.successors i = [] := by
  rw [Code.successors, Array.getElem?_eq_none hi]

/-- Placing lists the head and all that can be reached from it. -/
theorem explores_place (c : Code) (head : InstrId) :
    Graph.Explores c.successors [head] c.order (c.place head).order :=
  Graph.explores_explore successors_of_size_le [head] c.order

/-- The code that encoding a body made may be placed as the block of the rule. -/
theorem Compiled.addBlock (hs : s.Compiled) (hlead : s.Leads s₁) {head : InstrId}
    (hhead : head < s₁.code.instrs.size) {rule : RuleId} {body : ExprId}
    (hbody : s.grammar.body? rule = some body)
    (hcode : ∀ W src, Image.Includes W s s₁ →
      ∃ ret, W.Holds ret .ret none ∧ W.Encodes src (.node body) head ret) :
    s.Advances (s₁.addBlock rule head) := by
  have hplace := explores_place s₁.code head
  rw [hlead.order_eq] at hplace
  obtain ⟨added, hadded⟩ := hplace.append
  -- placing is an exploration, and all that has to be shown is known of explorations
  have hold (i : InstrId) (hi : i ∈ s.code.order) : i ∈ (s₁.code.place head).order := by
    rw [hadded]
    exact Array.mem_append_left _ hi
  refine ⟨hlead.grows, hlead.tables_eq, hlead.options_eq, ?_,
    ⟨⟨hlead.valid.wellFormed, hlead.valid.simplified, hlead.valid.tables, hlead.valid.successor_lt,
      hlead.valid.slots⟩, hplace.nodup hs.nodup, ?_, fun i hi j hj ↦ ?_, fun other hother ↦ ?_⟩⟩
  · rw [Session.addBlock, hlead.blocks_eq]
    exact ⟨_, Array.push_eq_append⟩
  · refine hplace.invariant (· < s₁.code.instrs.size)
      (fun i hi ↦ hlead.lt_instrs (hs.order_lt i hi))
      (fun i hi ↦ ?_) fun i _ j hj ↦ ?_
    · rw [List.mem_singleton.mp hi]
      exact hhead
    · unfold Code.successors at hj
      split at hj
      · rename_i instr hinstr
        exact hlead.valid.successor_lt i instr hinstr j hj
      · cases hj
  · rcases hplace.closed i hi with hi | hi
    · refine hold j (hs.closed i hi j ?_)
      rwa [Code.successors, ← hlead.instrs_eq i (hs.order_lt i hi)]
    · exact hi j hj
  · rw [Session.addBlock, hlead.blocks_eq] at hother
    rcases Array.mem_push.mp hother with hother | rfl
    · obtain ⟨hmem, body', hbody', hcode'⟩ := hs.blocks other hother
      refine ⟨hold _ hmem, body', (hlead.grows.body?_eq _).trans hbody', fun W src hW ↦
        hcode' W src ?_⟩
      -- an image of the new session is one of the old session
      have hW' : W.Includes { s with code := {} } s₁ := ⟨hW.grammar, hW.arena, hW.memo⟩
      exact hW'.left hlead
    · refine ⟨hplace.mem _ (List.mem_singleton_self _), body,
        (hlead.grows.body?_eq _).trans hbody, fun W src hW ↦ hcode W src ?_⟩
      exact ⟨hW.grammar, fun i _ ↦ hW.arena i (Nat.zero_le i), hW.memo⟩

/-- Encoding the body of a rule gives it a block. -/
theorem Compiled.encodeRule (hs : s.Compiled) {rule : RuleId} {body : ExprId}
    (hbody : s.grammar.body? rule = some body) {u : Unit}
    (h : Session.encodeRule rule body s = some (u, s')) :
    s.Advances s' ∧ ∃ block, s'.blocks = s.blocks.push block ∧ block.rule = rule := by
  obtain ⟨ret, s₁, head, s₂, hret, hhead, rfl⟩ := exists_of_encodeRule h
  obtain ⟨hlead, hret_lt, hholds⟩ :=
    Encoder.builds_emitEnd .ret hs.valid (fun j hj ↦ nomatch hj) _ _ hret
  have hlt := hlead.lt_size (hs.valid.wellFormed.body_lt rule body hbody)
  obtain ⟨hlead', hhead_lt, hencodes⟩ :=
    Encoder.sound_encode _ s₁ hlead.valid body hlt ret hret_lt _ _ hhead
  have hadvances := hs.addBlock (hlead.trans hlead') hhead_lt hbody
    fun W src hW ↦ ⟨ret, hholds W src (hW.left hlead'), hencodes W src (hW.right hlead)⟩
  exact ⟨hadvances, _, congrArg (Array.push · _) (hlead.trans hlead').blocks_eq, rfl⟩

/-- Compiling a rule. -/
theorem Compiled.compileRule (hs : s.Compiled) {rule : RuleId}
    (h : s.compileRule rule = some (.ok s')) :
    s.Advances s' ∧ (s.blocks = #[] → ∃ block, s'.blocks[0]? = some block ∧ block.rule = rule) := by
  rcases exists_of_compileRule h with ⟨hsome, rfl⟩ | ⟨-, body, u, hbody, hrule⟩
  · refine ⟨.refl hs, fun hempty ↦ ?_⟩
    rw [block?, hempty] at hsome
    cases hsome
  · obtain ⟨hadvances, block, hblocks, hblock⟩ := hs.encodeRule hbody hrule
    refine ⟨hadvances, fun hempty ↦ ⟨block, ?_, hblock⟩⟩
    rw [hblocks, hempty]
    rfl

/-- Compiling rules one after the other, to the end or to an error. -/
theorem Compiled.compileRules (hs : s.Compiled) {rules : List RuleId} {e : Option CompileError}
    (h : s.compileRules rules = some (e, s')) : s.Advances s' :=
  keeps_compileRules_of_step (fun _ _ _ hs hrule ↦ hs.trans (hs.compiled.compileRule hrule).1) h
    (.refl hs)

/-- The first rule of a list has the first block. -/
theorem Compiled.compileRules_cons (hs : s.Compiled) (hempty : s.blocks = #[]) {rule : RuleId}
    {rules : List RuleId} (h : s.compileRules (rule :: rules) = some (none, s')) :
    s.Advances s' ∧ ∃ block, s'.blocks[0]? = some block ∧ block.rule = rule := by
  refine ⟨hs.compileRules h, ?_⟩
  unfold Session.compileRules at h
  split at h
  · cases h
  · cases h
  · rename_i s₁ hrule
    obtain ⟨hadvances, hfirst⟩ := hs.compileRule hrule
    obtain ⟨block, hblock, hblock_rule⟩ := hfirst hempty
    obtain ⟨added, hadded⟩ := (hadvances.compiled.compileRules h).blocks
    obtain ⟨hlt, -⟩ := Array.getElem?_eq_some_iff.mp hblock
    exact ⟨block, by rw [hadded, Array.getElem?_append_left hlt, hblock], hblock_rule⟩

/-! ### Finished programs -/

/-- What a finished program consists of. -/
theorem finish_eq_ok {p : Program} (h : s.finish = .ok p) : ∃ code, s.linked = .ok code ∧
    p.code = code.numbered (s.blocks.toList.map Block.head) ∧
    p.blocks = s.blocks.map (fun block ↦
      { block with head := Code.placeOf code.places block.head }) ∧
    p.memoSlots = s.memo := by
  unfold finish at h
  split at h
  · cases h
  · rcases hlinked : s.linked with e | code
    · rw [hlinked] at h
      cases h
    · rw [hlinked] at h
      cases h
      exact ⟨code, rfl, rfl, rfl, rfl⟩

/-- Calls to the rule of the first block go there. -/
theorem head?_first {block : Block} (hblock : s.blocks[0]? = some block) :
    s.head? block.rule = some block.head := by
  obtain ⟨blocks, hblocks⟩ : ∃ blocks, s.blocks.toList = block :: blocks := by
    rw [← Array.getElem?_toList] at hblock
    cases hlist : s.blocks.toList with rw [hlist] at hblock
    | nil => cases hblock
    | cons first blocks =>
      cases hblock
      exact ⟨blocks, rfl⟩
  have hself : (block.rule == block.rule) = true := beq_self_eq_true _
  rw [head?, block?, ← Array.find?_toList, hblocks, List.find?_cons, hself]
  rfl

/-- Where calls go there is placed code for the body of the rule. -/
theorem Compiled.lays (hs : s.Compiled) {rule : RuleId} {head : InstrId}
    (h : s.head? rule = some head) :
    head ∈ s.code.order ∧ ∃ body, s.grammar.body? rule = some body ∧
      ∀ W src, Image.Includes W { s with code := {} } s →
        ∃ ret, W.Holds ret .ret none ∧ W.Encodes src (.node body) head ret := by
  obtain ⟨block, hblock, rfl⟩ := Option.map_eq_some_iff.mp h
  obtain rfl : block.rule = rule := by simpa using Array.find?_some hblock
  obtain ⟨hmem, hcode⟩ := hs.blocks block (Array.mem_of_find?_eq_some hblock)
  exact ⟨hmem, hcode⟩

/-- A finished program with the session that made it. -/
def Compiled.image {p : Program} (hs : s.Compiled) (hp : s.finish = .ok p)
    (hconsumes : ∀ e inner,
      s.grammar.op e = .star inner false ∨ s.grammar.op e = .plus inner false →
        s.grammar.Consumes inner)
    (hkeeps : ∀ (i : MemoId) slot, s.memo[i]? = some slot →
      s.grammar.Keeps slot.contextSensitive slot.expr) : Image where
  program := p
  grammar := s.grammar
  arena := s.code.instrs
  memo := s.memo
  place := Code.placeOf s.code.places
  target := s.head?
  live i := i ∈ s.code.order
  fetch i instr hi hinstr := by
    obtain ⟨code, hlinked, hcode, -⟩ := finish_eq_ok hp
    obtain ⟨horder, hsize, hinstrs, -⟩ := linked_eq_ok hlinked
    have hplaces : code.places = s.code.places := by
      rw [Code.places, Code.places, horder, hsize]
    have hlink : code.instrs[i]? = some (s.link instr) := by
      rw [hinstrs i hi, hinstr, Option.map_some]
    have hlt (j : InstrId) (hj : j ∈ code.order) : j < code.instrs.size := by
      rw [horder] at hj
      rw [hsize]
      exact hs.order_lt j hj
    rw [hcode, ← hplaces]
    exact Code.getElem?_numbered (by rw [horder]; exact hs.nodup) hlt _ (by rwa [horder]) hlink
  live_successor i instr hi hinstr j hj := by
    refine hs.closed i hi j ?_
    rwa [Code.successors, hinstr]
  live_target i instr rule hi hinstr hop := by
    obtain ⟨code, hlinked, -⟩ := finish_eq_ok hp
    obtain ⟨-, -, -, hcalls⟩ := linked_eq_ok hlinked
    obtain ⟨head, hhead⟩ := Option.isSome_iff_exists.mp (hcalls i hi instr rule none hinstr hop)
    obtain ⟨hmem, body, hbody, -⟩ := hs.lays hhead
    exact ⟨head, body, hhead, hmem, hbody⟩
  consumes := hconsumes
  keeps := hkeeps

/-- The finished program halts with what the body of its first rule yields. -/
theorem Compiled.halts {p : Program} (hs : s.Compiled) (hp : s.finish = .ok p)
    (hconsumes : ∀ e inner,
      s.grammar.op e = .star inner false ∨ s.grammar.op e = .plus inner false →
        s.grammar.Consumes inner)
    (hkeeps : ∀ (i : MemoId) slot, s.memo[i]? = some slot →
      s.grammar.Keeps slot.contextSensitive slot.expr)
    {block : Block} (hblock : s.blocks[0]? = some block) {body : ExprId}
    (hbody : s.grammar.body? block.rule = some body) {src : Resident} {d : Nat} {r : Match}
    (hyields : Yields s.grammar src d (.node body) 0 {} r) :
    (hs.image hp hconsumes hkeeps).Reaches src (.running (Machine.start p))
      (.halted r.outcome) := by
  have hencoded : (hs.image hp hconsumes hkeeps).Encoded src := by
    intro rule head body hhead hbody
    obtain ⟨-, body', hbody', hcode⟩ := hs.lays hhead
    obtain rfl := Option.some.inj (hbody.symm.trans hbody')
    exact hcode _ src ⟨.refl _, fun _ _ _ ↦ rfl, fun _ _ h ↦ h⟩
  have hhead := head?_first hblock
  have hentry : p.entry = Code.placeOf s.code.places block.head := by
    obtain ⟨code, hlinked, -, hblocks, -⟩ := finish_eq_ok hp
    obtain ⟨horder, hsize, -, -⟩ := linked_eq_ok hlinked
    rw [Program.entry, hblocks, Array.getElem?_map, hblock, Code.places, Code.places, horder, hsize]
    rfl
  exact Image.halts_of_encoded hencoded hhead (hs.lays hhead).1 hbody hentry hyields

end Session

end ParsingMachine
