import ParsingMachine.Compile.Encode
import ParsingMachine.Proofs.Compile.Session

/-!
# Encoding is right

`encode` makes code for the node that it is given (`Encoder.sound_encode`): in every image that
includes what it made, the code from its answer to the continuation is code for the node.

There is one lemma for each function of the encoder. Each is about an arbitrary way to encode other
nodes that is sound itself (`Encoder.Sound`), so the depth of the recursion plays no part in them.

What an encoder makes code for is a term and not always a node. The code of an option, for one, is
code for either its operand or nothing, whatever node it was made for; only at the end is a node
replaced by the term that its operator stands for. A term may also be exchanged for another that it
refines (`Encoder.Codes.refines`), which is where simplification, jump tables and factoring come in.
All that is used of these is that side tables are right.

That a terminal may be encoded in place of a node follows from what simplification answers. A test
of the next byte may also take the place of an operand, in the code of a repetition, an option or a
negation. That it does the same there is a fact about results (`refines_optional`, `refines_not`)
and not about code.

Code that was made stays code, as sessions only grow on the way. The exception is the switch of a
memoized path, which is patched once more when the path is complete. It was made within the same
call of the encoder, so nothing that is said of earlier code is affected.

## Main statements

* `codes_sequenceCode`: a sequence, by its items, its terminal or its dispatch form.
* `builds_entryCodes`, `codes_choiceCode`: a choice by its jump table or by its alternatives.
* `codes_factoredCode`: a choice with common beginnings factored out.
* `builds_memoizedCode`: a path that looks a result up and else computes it.
* `codes_nodeCode`: each operator is encoded as it should be.
* `sound_encode`: so is a node, within any depth.
-/

namespace ParsingMachine

/-- In a larger grammar an old node does what its operator does. -/
theorem Grammar.Extends.refines_of_op_eq {g h : Grammar} (hgh : g.Extends h) {e : ExprId}
    (he : e < g.size) {op : Operator} (hop : g.op e = op) (src : Resident) :
    Refines h src (.node e) (op.term src) := by
  rw [← hop, ← hgh.op_eq e he]
  exact refines_of_node h src e

namespace Encoder

open Machine

variable {s : Session} {e : ExprId} {next : InstrId}

/-- Other nodes are encoded as they should be. -/
def Sound (recur : ExprId → InstrId → Encoder InstrId) : Prop :=
  ∀ s : Session, s.Valid → ∀ e : ExprId, e < s.grammar.size → ∀ next : InstrId,
    next < s.code.instrs.size → Codes (recur e next) s (fun _ ↦ .node e) next

/-! ### Simplified operands -/

/-- What simplification answers is a node that stands for the one that was asked about. -/
theorem builds_simplify (hs : s.Valid) (he : e < s.grammar.size) :
    Builds (build (Grammar.simplify e)) s
      (fun other s' ↦ other < s'.grammar.size ∧ s'.grammar.Simplifies e other) fun _ _ _ ↦ True :=
  builds_build hs (Grammar.ensures_simplify hs.wellFormed hs.simplified he)

theorem builds_simplified (hs : s.Valid) (he : e < s.grammar.size) :
    Builds (simplified e) s
      (fun other s' ↦ other < s'.grammar.size ∧ s'.grammar.Simplifies e other)
      fun _ _ _ ↦ True := by
  refine Builds.options ?_
  split
  · exact builds_simplify hs he
  · exact .pure hs ⟨he, .self⟩ fun _ _ _ ↦ trivial

/-- A node that is simplified to a set of bytes consumes a byte of the set and does nothing else. -/
theorem builds_specializedSet? (hs : s.Valid) (he : e < s.grammar.size) :
    Builds (specializedSet? e) s (fun _ _ ↦ True) fun W src set? ↦ ∀ set, set? = some set →
      Refines W.grammar src (.node e) (.consumes src set.contains) := by
  refine Builds.options ?_
  split
  · refine (builds_simplify hs he).bind fun other s₁ hs₁ hother ↦ Builds.grammar ?_
    refine .pure hs₁.valid trivial fun W src hW _ set hset ↦ ?_
    exact hother.2.refines (Operator.test?_of_byteSet? hset) (hW.grammar.agrees e) src
  · exact .pure hs trivial fun _ _ _ _ h ↦ (nomatch h)

section

variable {recur : ExprId → InstrId → Encoder InstrId} (hrecur : Sound recur)

/-- A simplified form that is a terminal may be encoded in place of the expression. -/
theorem codes_terminal {other : ExprId} (hrecur : Sound recur) (hs : s.Valid)
    (hother : other < s.grammar.size) (hsimp : s.grammar.Simplifies e other)
    (hterminal : (s.grammar.op other).isTerminal) (hnext : next < s.code.instrs.size) :
    Codes (recur other next) s (fun _ ↦ .node e) next := by
  refine (hrecur s hs other hother next hnext).refines fun h hh src ↦ ?_
  obtain ⟨test, htest⟩ := Operator.test?_of_isTerminal hterminal
  have hnode := refines_node h src other
  rw [hh.op_eq other hother, Operator.term_of_test? htest] at hnode
  exact (hsimp.refines htest (hh.agrees e) src).trans hnode

/-! ### Sequences -/

include hrecur in
/-- Items, one after the other: each is followed by the code of the rest. -/
theorem codes_itemsCode (hs : s.Valid) (items : List ExprId)
    (hitems : ∀ x ∈ items, x < s.grammar.size) (hnext : next < s.code.instrs.size) :
    Codes (itemsCode recur items next) s (fun _ ↦ .all (items.map .node)) next := by
  induction items with
  | nil => exact .pure hs hnext fun _ _ _ ↦ .done next
  | cons item items ih =>
    rw [itemsCode, List.foldrM_cons]
    refine (ih fun x hx ↦ hitems x (List.mem_cons_of_mem _ hx)).bind fun mid s₁ hs₁ hmid ↦ ?_
    have hitem := hs₁.lt_size (hitems item List.mem_cons_self)
    refine (hrecur s₁ hs₁.valid item hitem mid hmid).imp_right
      fun W src pc _ hitem hrest ↦ ?_
    exact .both hitem hrest

/-- A jump that leaves out the look-ahead where it cannot matter. -/
theorem encodes_fast {W : Image} {src : Resident} {t : Term} {fast : ByteSet}
    {any start pc : InstrId}
    (hskips : W.grammar.Skips src e fast) (href : Refines W.grammar src (.node e) t)
    (hpc : W.Holds pc (.dispatch ((List.range slotCount).map fun slot ↦
      if Grammar.slotIn fast slot then any else start)) none)
    (hany : W.Holds any .anyByte (some next)) (hstart : W.Encodes src t start next) :
    W.Encodes src (.node e) pc next := by
  refine .dispatch (fun slot ↦
    if Grammar.slotIn fast slot then .consumes src fun _ ↦ true else t) ?_ ?_ ?_ hpc
  · rw [List.length_map, List.length_range]
  · rintro slot d pos s r rfl hyields
    split
    · rename_i hslot
      rw [Grammar.slotIn_slot] at hslot
      obtain ⟨b, hb, hcontains⟩ := (Option.any_eq_true _ _).mp hslot
      rw [Yields.consumes_iff, hb]
      exact hskips d pos s r b hb hcontains hyields
    · exact href d pos s r hyields
  · intro slot target htarget
    rw [List.getElem?_map] at htarget
    obtain ⟨i, hi, rfl⟩ := Option.map_eq_some_iff.mp htarget
    obtain ⟨hlt, rfl⟩ := List.getElem?_eq_some_iff.mp hi
    rw [List.getElem_range]
    split
    · exact .prim computes_anyByte hany
    · exact hstart

include hrecur in
/-- A sequence is code for all its items, also behind a dispatch that may leave some of them out. -/
theorem codes_sequenceCode (hs : s.Valid) (he : e < s.grammar.size) {items : List ExprId}
    (hterm : ∀ src, (s.grammar.op e).term src = .all (items.map .node))
    (hitems : ∀ x ∈ items, x < s.grammar.size) (hnext : next < s.code.instrs.size) :
    Codes (sequenceCode recur e items next) s (fun _ ↦ .node e) next := by
  have hnode (h : Grammar) (hh : s.grammar.Extends h) (src : Resident) :
      Refines h src (.node e) (.all (items.map .node)) := by
    rw [← hterm]
    exact hh.refines_of_op_eq he rfl src
  refine (builds_simplified hs he).bind fun other s₁ hs₁ hother ↦ Builds.grammar ?_
  obtain ⟨hlt, hsimp⟩ := hother
  split
  · rename_i h
    exact (codes_terminal hrecur hs₁.valid hlt hsimp h.2 (hs₁.lt_instrs hnext)).weaken
  · refine (codes_itemsCode hrecur hs₁.valid items (fun x hx ↦ hs₁.lt_size (hitems x hx))
      (hs₁.lt_instrs hnext)).bind fun start s₂ hs₂ hstart ↦ Builds.grammar ?_
    have hs₀₂ := hs₁.trans hs₂
    have hext := hs₀₂.grows.toExtends
    dsimp only
    split
    · rename_i fast hform
      split at hform
      · cases hform
      · rename_i hne
        have hskips := (hsimp.agrees (hs₂.grows.agrees e)).skips hne hform
        refine (builds_emit .anyByte hs₂.valid (hs₀₂.lt_instrs hnext) (List.forall_mem_nil _)).bind
          fun any s₃ hs₃ hany ↦ (builds_emitEnd (.dispatch _) hs₃.valid fun j hj ↦ ?_).imp_right
            fun W src pc hW hpc hany hstart _ ↦ ?_
        · obtain ⟨slot, -, rfl⟩ := List.mem_map.mp hj
          split
          · exact hany
          · exact hs₃.lt_instrs hstart
        · have hW' := hs₃.grows.toExtends.trans hW
          exact encodes_fast (hskips _ (hW'.agrees e) src) (hnode _ (hext.trans hW') src) hpc hany
            hstart
    · exact .pure hs₂.valid hstart fun W src hW hcode _ ↦
        .refines (hnode _ (hext.trans hW.grammar) src) hcode

/-! ### Choices -/

include hrecur in
/-- Alternatives in order, each of which goes back when it fails. -/
theorem codes_alternativesCode (hs : s.Valid) (alts : List ExprId)
    (halts : ∀ x ∈ alts, x < s.grammar.size) (hnext : next < s.code.instrs.size) :
    Codes (alternativesCode recur e next alts) s (fun _ ↦ .any (alts.map .node)) next := by
  induction alts with
  | nil =>
    exact (builds_emitEnd .fail hs (List.forall_mem_nil _)).imp_right fun _ _ _ _ h ↦ .fails next h
  | cons alt alts ih =>
    have halt := halts alt List.mem_cons_self
    cases alts with
    | nil =>
      exact (hrecur s hs alt halt next hnext).refines fun h _ src ↦ refines_of_either_fails _
    | cons alt' alts =>
      refine (ih fun x hx ↦ halts x (List.mem_cons_of_mem _ hx)).bind fun rest s₁ hs₁ hrest ↦ ?_
      refine (builds_emit .failPop hs₁.valid (hs₁.lt_instrs hnext) (List.forall_mem_nil _)).bind
        fun pop s₂ hs₂ hpop ↦ ?_
      refine (hrecur s₂ hs₂.valid alt ((hs₁.trans hs₂).lt_size halt) pop hpop).bind
        fun body s₃ hs₃ hbody ↦ ?_
      have hrest' := (hs₂.trans hs₃).lt_instrs hrest
      exact (builds_emit (.failPush rest) hs₃.valid hbody
        (List.forall_mem_singleton.mpr hrest')).imp_right
        fun W src pc _ hpush hcode hholds hcodes ↦ .either hcode hcodes hpush hholds

include hrecur in
/-- A choice as it stands, in this session or the one that factoring leaves. -/
theorem codes_unfactoredCode (hs : s.Valid) (he : e < s.grammar.size)
    (hnext : next < s.code.instrs.size) : Codes (do
      match (← Encoder.grammar).op e with
      | .choice alts => alternativesCode recur e next alts
      | _ => recur e next) s (fun _ ↦ .node e) next := by
  refine Builds.grammar ?_
  split
  · rename_i alts hop
    exact (codes_alternativesCode hrecur hs alts (fun x hx ↦
      Nat.lt_trans (hs.wellFormed.child_lt (by rw [hop]; exact hx)) he) hnext).refines
        fun h hh src ↦ hh.refines_of_op_eq he hop src
  · exact hrecur s hs e he next hnext

include hrecur in
/-- What factoring answers stands for the choice. -/
theorem codes_factoredCode (hs : s.Valid) (he : e < s.grammar.size)
    (hnext : next < s.code.instrs.size) :
    Codes (factoredCode recur e next) s (fun _ ↦ .node e) next := by
  refine Builds.options ?_
  split
  · have hfactor := Grammar.ensures_factorCommonHead hs.wellFormed e
    refine (builds_build (P := fun factored h ↦ ∀ x, factored = some x →
      x < h.size ∧ ∀ k, h.Extends k → ∀ src, Refines k src (.node e) (.node x)) hs
        (hfactor.imp fun factored h hh ↦
          ⟨hs.simplified.appends hh.1, fun x hx ↦ (hh.2 x hx).2⟩)).bind
            fun factored s₁ hs₁ hfactored ↦ ?_
    dsimp only
    split
    · rename_i x
      obtain ⟨hx, href⟩ := hfactored x rfl
      exact ((hrecur s₁ hs₁.valid x hx next (hs₁.lt_instrs hnext)).refines href).weaken
    · exact (codes_unfactoredCode hrecur hs₁.valid (hs₁.lt_size he) (hs₁.lt_instrs hnext)).weaken
  · exact codes_unfactoredCode hrecur hs he hnext

include hrecur in
theorem codes_entryCode (hs : s.Valid) (choice : Nat) {target : Nat} (ht : target < s.grammar.size)
    (hnext : next < s.code.instrs.size) :
    Codes (entryCode recur choice next target) s (fun _ ↦ .node target) next := by
  refine Builds.grammar ?_
  split
  · exact codes_factoredCode hrecur hs ht hnext
  · exact hrecur s hs target ht next hnext

include hrecur in
/-- Each entry of a jump table gets code of its own, or shares it with an equal entry before. -/
theorem builds_entryCodes (hs : s.Valid) (choice : Nat) (done : List (ExprId × InstrId))
    (table : JumpTable) (htable : ∀ x ∈ table, x < s.grammar.size)
    (hdone : ∀ p ∈ done, p.2 < s.code.instrs.size) (hnext : next < s.code.instrs.size) :
    Builds (entryCodes recur choice next done table) s
      (fun codes s' ↦ codes.length = table.length ∧ ∀ pc ∈ codes, pc < s'.code.instrs.size)
      fun W src codes ↦ (∀ p ∈ done, W.Encodes src (.node p.1) p.2 next) →
        ∀ (slot : Nat) target pc, table[slot]? = some target → codes[slot]? = some pc →
          W.Encodes src (.node target) pc next := by
  induction table generalizing s done with
  | nil => exact .pure hs ⟨rfl, fun _ h ↦ (nomatch h)⟩ fun _ _ _ _ _ _ _ h ↦ (nomatch h)
  | cons target table ih =>
    have hrest (x : ExprId) (hx : x ∈ table) := htable x (List.mem_cons_of_mem _ hx)
    rw [entryCodes]
    split
    · rename_i code hlookup
      -- an equal entry before has code already
      have hmem := mem_of_lookup_eq_some hlookup
      refine (ih hs done hrest hdone hnext).bind fun codes s₁ hs₁ hcodes ↦ ?_
      refine .pure hs₁.valid ⟨?_, fun pc hpc ↦ ?_⟩ fun W src hW hrest hdone slot x pc hx hpc ↦ ?_
      · rw [List.length_cons, List.length_cons, hcodes.1]
      · rcases List.mem_cons.mp hpc with rfl | hpc
        · exact hs₁.lt_instrs (hdone _ hmem)
        · exact hcodes.2 pc hpc
      · cases slot with
        | zero =>
          cases hx
          cases hpc
          exact hdone _ hmem
        | succ slot => exact hrest hdone slot x pc hx hpc
    · refine (codes_entryCode hrecur hs choice (htable target List.mem_cons_self) hnext).bind
        fun code s₁ hs₁ hcode ↦ ?_
      refine (ih hs₁.valid ((target, code) :: done) (fun x hx ↦ hs₁.lt_size (hrest x hx))
        (fun p hp ↦ ?_) (hs₁.lt_instrs hnext)).bind fun codes s₂ hs₂ hcodes ↦ ?_
      · rcases List.mem_cons.mp hp with rfl | hp
        · exact hcode
        · exact hs₁.lt_instrs (hdone p hp)
      refine .pure hs₂.valid ⟨?_, fun pc hpc ↦ ?_⟩
        fun W src hW hrest hfirst hdone slot x pc hx hpc ↦ ?_
      · rw [List.length_cons, List.length_cons, hcodes.1]
      · rcases List.mem_cons.mp hpc with rfl | hpc
        · exact hs₂.lt_instrs hcode
        · exact hcodes.2 pc hpc
      · cases slot with
        | zero =>
          cases hx
          cases hpc
          exact hfirst
        | succ slot =>
          refine hrest (fun p hp ↦ ?_) slot x pc hx hpc
          rcases List.mem_cons.mp hp with rfl | hp
          · exact hfirst
          · exact hdone p hp

include hrecur in
/-- A jump by the next byte is code for the choice, as the table is right. -/
theorem codes_tableCode (hs : s.Valid) {table : JumpTable}
    (htable : s.grammar.table? e = some table) (hnext : next < s.code.instrs.size) :
    Codes (do emitEnd (.dispatch (← entryCodes recur e next [] table)) e) s (fun _ ↦ .node e)
      next := by
  have hsound := hs.tables e table htable
  have hentry (x : ExprId) (hx : x ∈ table) : x < s.grammar.size := by
    obtain ⟨slot, hentry⟩ := hsound.exists_entry hx
    exact hentry.lt
  refine (builds_entryCodes hrecur hs e [] table hentry (List.forall_mem_nil _) hnext).bind
    fun codes s₁ hs₁ hcodes ↦ ?_
  refine (builds_emitEnd (.dispatch codes) hs₁.valid hcodes.2).imp_right
    fun W src pc hW hpc hcode ↦ ?_
  have hlength : codes.length = slotCount := hcodes.1.trans hsound.length_eq
  -- a table has an entry for every slot, so the default is never used
  have htarget (slot : Nat) (hslot : slot < slotCount) :
      table[slot]? = some (table.getD slot 0) := by
    have hlt : slot < table.length := by rwa [hsound.length_eq]
    simp [List.getElem?_eq_getElem hlt]
  refine .dispatch (fun slot ↦ .node (table.getD slot 0)) hlength
    (fun slot d pos s r hslot h ↦ ?_) (fun slot pc hpc ↦ ?_) hpc
  · have hlt : slot < slotCount := by
      rw [← hslot]
      exact src.slot_lt pos
    exact (hsound.entry slot _ (htarget slot hlt)).yields W.grammar
      ((hs₁.grows.toExtends.trans hW).agrees e) src d pos s r hslot h
  · obtain ⟨hlt, -⟩ := List.getElem?_eq_some_iff.mp hpc
    rw [hlength] at hlt
    exact hcode (List.forall_mem_nil _) slot _ pc (htarget slot hlt) hpc

include hrecur in
/-- A choice that is no terminal: by its table, if it has one. -/
theorem codes_branchingCode (hs : s.Valid) (he : e < s.grammar.size) {alts : List ExprId}
    (hop : s.grammar.op e = .choice alts) (hnext : next < s.code.instrs.size) : Codes (do
      match (← Encoder.grammar).table? e with
      | some table => emitEnd (.dispatch (← entryCodes recur e next [] table)) e
      | none => alternativesCode recur e next alts) s (fun _ ↦ .node e) next := by
  refine Builds.grammar ?_
  split
  · rename_i table htable
    exact codes_tableCode hrecur hs htable hnext
  · exact (codes_alternativesCode hrecur hs alts (fun x hx ↦
      Nat.lt_trans (hs.wellFormed.child_lt (by rw [hop]; exact hx)) he) hnext).refines
        fun h hh src ↦ hh.refines_of_op_eq he hop src

include hrecur in
/-- A choice by its byte class, its table or its alternatives. -/
theorem codes_choiceCode (hs : s.Valid) (he : e < s.grammar.size) {alts : List ExprId}
    (hop : s.grammar.op e = .choice alts) (hnext : next < s.code.instrs.size) :
    Codes (choiceCode recur e alts next) s (fun _ ↦ .node e) next := by
  refine (builds_simplified hs he).bind fun other s₁ hs₁ hother ↦ Builds.grammar ?_
  obtain ⟨hlt, hsimp⟩ := hother
  have hop₁ : s₁.grammar.op e = .choice alts := (hs₁.grows.op_eq e he).trans hop
  have hnext₁ := hs₁.lt_instrs hnext
  split
  · rename_i set hset
    have hterminal : (s₁.grammar.op other).isTerminal := by
      rw [hset]
      rfl
    exact (codes_terminal hrecur hs₁.valid hlt hsimp hterminal hnext₁).weaken
  · exact (codes_branchingCode hrecur hs₁.valid (hs₁.lt_size he) hop₁ hnext₁).weaken

/-! ### Operators with one operand -/

include hrecur in
/-- A loop over the operand, or a test in one instruction. -/
theorem codes_starCode (hs : s.Valid) {inner : ExprId} {nullable : Bool}
    (hop : s.grammar.op e = .star inner nullable ∨ s.grammar.op e = .plus inner nullable)
    (he : e < s.grammar.size) (hinner : inner < s.grammar.size)
    (hnext : next < s.code.instrs.size) :
    Codes (starCode recur e inner nullable next) s (fun _ ↦ .loop inner) next := by
  refine (builds_specializedSet? hs hinner).bind fun set? s₁ hs₁ _ ↦ ?_
  have hop₁ : s₁.grammar.op e = .star inner nullable ∨ s₁.grammar.op e = .plus inner nullable := by
    rwa [hs₁.grows.op_eq e he]
  rcases set? with - | set
  · intro pc s₄ h
    obtain ⟨skip, s₂, h₂, h⟩ := bind_eq_some h
    obtain ⟨start, s₃, h₃, h⟩ := bind_eq_some h
    obtain ⟨_, s', hpatch, h⟩ := bind_eq_some h
    cases hpatch
    obtain ⟨hs₂, ⟨hskip, rfl, hinstr⟩, -⟩ :=
      builds_emitWith (.failSkip nullable) none e hs₁.valid (List.forall_mem_nil _) skip s₂ h₂
    obtain ⟨hs₃, hstart, hcode⟩ :=
      hrecur s₂ hs₂.valid inner ((hs₁.trans hs₂).lt_size hinner) _ hskip start s₃ h₃
    -- the instruction at the end of a round was made first, and is now told where the round starts
    have hpatch := (hs₂.trans hs₃).modify (Nat.le_refl _) ({ · with next := some start })
      fun instr hinstr' j hj ↦ by
        rw [hs₃.instrs_eq _ hskip, hinstr] at hinstr'
        cases hinstr'
        rw [List.mem_singleton.mp hj]
        exact hstart
    obtain ⟨hs₄, hpc, hpush⟩ := builds_emit (.failPush next) hpatch.valid (by simpa using hstart)
      (List.forall_mem_singleton.mpr (hpatch.lt_instrs (hs₁.lt_instrs hnext))) pc s₄ h
    refine ⟨hpatch.trans hs₄, hpc, fun W src hW _ ↦ ?_⟩
    have hW₃ := hW.left hs₄
    have hop' : W.grammar.op e = .star inner nullable ∨ W.grammar.op e = .plus inner nullable := by
      rwa [(hpatch.trans hs₄ |>.grows.toExtends.trans hW.grammar).op_eq e (hs₁.lt_size he)]
    refine .loop (hcode W src (hW₃.of_modify hs₂ hskip)) (hpush W src (hW.right hpatch))
      ⟨_, hW₃.arena_modify (Nat.le_refl _) ((hs₃.instrs_eq _ hskip).trans hinstr), rfl, rfl⟩ ?_
    rintro rfl
    exact W.consumes e inner hop'
  · refine (codes_emit (.skipClass set) hs₁.valid (hs₁.lt_instrs hnext) rfl fun src ↦
      computes_skipClass set).imp_right fun W src pc _ h hset ↦ .refines ?_ h
    intro d pos s r hyields
    rw [Yields.prim_iff]
    exact eq_of_loop (hset set rfl) _ (Nat.le_refl _) hyields

/-- A test of the next byte that may fail. -/
theorem refines_optional (g : Grammar) {src : Resident} {test : UInt8 → Bool}
    (h : Refines g src (.node e) (.consumes src test)) :
    Refines g src (.either (.node e) .done)
      (.prim fun pos s ↦ if src.text[pos]?.any test then some (pos + 1, s) else some (pos, s)) := by
  intro d pos s r hyields
  rw [Yields.prim_iff]
  rcases Yields.either_iff.mp hyields with ⟨hr, h₁⟩ | ⟨h₁, h₂⟩
  · have hr' := Yields.consumes_iff.mp (h _ _ _ _ h₁)
    split at hr'
    · rw [hr', if_pos ‹_›]
    · rw [hr'] at hr
      cases hr
  · have hnone := Yields.consumes_iff.mp (h _ _ _ _ h₁)
    split at hnone
    · cases hnone
    · rw [Yields.done_iff.mp h₂, if_neg ‹_›]

include hrecur in
/-- Either the operand or nothing. -/
theorem codes_optionalCode (hs : s.Valid) {inner : ExprId} (hinner : inner < s.grammar.size)
    (hnext : next < s.code.instrs.size) :
    Codes (optionalCode recur e inner next) s (fun _ ↦ .either (.node inner) .done) next := by
  have hplain (s₁ : Session) (hs₁ : s.Leads s₁) : Codes (do
      let pop ← emit .failPop next e
      let body ← recur inner pop
      emit (.failPush next) body e) s₁ (fun _ ↦ .either (.node inner) .done) next := by
    have hnext₁ := hs₁.lt_instrs hnext
    refine (builds_emit .failPop hs₁.valid hnext₁ (List.forall_mem_nil _)).bind
      fun pop s₂ hs₂ hpop ↦ ?_
    refine (hrecur s₂ hs₂.valid inner ((hs₁.trans hs₂).lt_size hinner) pop hpop).bind
      fun body s₃ hs₃ hbody ↦ ?_
    exact (builds_emit (.failPush next) hs₃.valid hbody
      (List.forall_mem_singleton.mpr ((hs₂.trans hs₃).lt_instrs hnext₁))).imp_right
        fun W src pc _ hpush hcode hholds ↦ .either hcode (.done next) hpush hholds
  have hfast (s₁ : Session) (hs₁ : s.Leads s₁) (op : Opcode) (test : UInt8 → Bool)
      (hbranches : op.branches = []) (hop : ∀ src, Computes src op fun pos s ↦
        if src.text[pos]?.any test then some (pos + 1, s) else some (pos, s))
      (href : ∀ h, s₁.grammar.Extends h → ∀ src, Refines h src (.node inner) (.consumes src test)) :
      Codes (emit op next e) s₁ (fun _ ↦ .either (.node inner) .done) next :=
    (codes_emit op hs₁.valid (hs₁.lt_instrs hnext) hbranches hop).refines fun h hh src ↦
      refines_optional h (href h hh src)
  refine Builds.options ?_
  dsimp only
  split
  · refine (builds_simplify hs hinner).bind fun other s₁ hs₁ hother ↦ Builds.grammar ?_
    obtain ⟨-, hsimp⟩ := hother
    split
    · rename_i b hop
      have htest : (s₁.grammar.op other).test? = some (· == b) := by
        rw [hop, ← funext (ByteSet.contains_singleton b)]
        rfl
      exact Builds.pure_bind ((hfast s₁ hs₁ (.byte b true) _ rfl (fun src ↦
        computes_optional (fun _ _ ↦ rfl) fun _ _ ↦ rfl) fun h hh src ↦
          hsimp.refines htest (hh.agrees inner) src).weaken)
    · rename_i set hop
      have htest : (s₁.grammar.op other).test? = some set.contains := by
        rw [hop]
        rfl
      exact Builds.pure_bind ((hfast s₁ hs₁ (.byteClass set true) _ rfl (fun src ↦
        computes_optional (fun _ _ ↦ rfl) fun _ _ ↦ rfl) fun h hh src ↦
          hsimp.refines htest (hh.agrees inner) src).weaken)
    · exact Builds.pure_bind (hplain s₁ hs₁).weaken
  · exact Builds.pure_bind (hplain s (.refl hs))

include hrecur in
/-- A block is closed on both ways out. -/
theorem codes_blockCode (hs : s.Valid) {inner : ExprId} (hinner : inner < s.grammar.size)
    (hnext : next < s.code.instrs.size) :
    Codes (blockCode recur e inner next) s (fun _ ↦ .around ParseState.openScope (.node inner)
      fun _ _ r ↦ r.map fun (stop, s) ↦ (stop, s.closeScope)) next := by
  refine (builds_emitEnd .fail hs (List.forall_mem_nil _)).bind fun fail s₁ h₁ hfail ↦ ?_
  refine (builds_emit .tablePop h₁.valid hfail (List.forall_mem_nil _)).bind
    fun failed s₂ h₂ hfailed ↦ ?_
  have h₀₂ := h₁.trans h₂
  refine (builds_emit .tablePop h₂.valid (h₀₂.lt_instrs hnext) (List.forall_mem_nil _)).bind
    fun popTable s₃ h₃ hpopTable ↦ ?_
  refine (builds_emit .failPop h₃.valid hpopTable (List.forall_mem_nil _)).bind
    fun pop s₄ h₄ hpop ↦ ?_
  have h₂₄ := h₃.trans h₄
  refine (hrecur s₄ h₄.valid inner ((h₀₂.trans h₂₄).lt_size hinner) pop hpop).bind
    fun body s₅ h₅ hbody ↦ ?_
  refine (builds_emit (.failPush failed) h₅.valid hbody
    (List.forall_mem_singleton.mpr ((h₂₄.trans h₅).lt_instrs hfailed))).bind
      fun push s₆ h₆ hpush ↦ ?_
  exact (builds_emit .tablePush h₆.valid hpush (List.forall_mem_nil _)).imp_right
    fun W src pc _ hpc hpush hbody hpop hpopTable hfailed hfail ↦
      .block hbody hpc hpush hpop hpopTable hfailed hfail

include hrecur in
/-- An operation on what the operand has matched gets the position at which that began. -/
theorem codes_spannedCode (hs : s.Valid) {inner : ExprId} (hinner : inner < s.grammar.size)
    {op : Opcode} {leave : Resident → Nat → ParseState → Match → Match}
    (hbranches : op.branches = [])
    (hop : ∀ src, Closes src op (leave src)) (hnext : next < s.code.instrs.size) :
    Codes (spannedCode recur e inner op next) s
      (fun src ↦ .around id (.node inner) (leave src)) next := by
  refine (builds_emit op hs hnext fun j hj ↦ ?_).bind fun done s₁ h₁ hdone ↦ ?_
  · rw [hbranches] at hj
    cases hj
  refine (hrecur s₁ h₁.valid inner (h₁.lt_size hinner) done hdone).bind fun body s₂ h₂ hbody ↦ ?_
  exact (builds_emit .posPush h₂.valid hbody (List.forall_mem_nil _)).imp_right
    fun W src pc _ hpc hcode hdone ↦ .spanned hcode (hop src) hpc hdone

/-! ### Negative look-ahead -/

/-- Negative look-ahead by a test of the input. -/
theorem refines_not (g : Grammar) {src : Resident} {next : Nat → Bool}
    (h : ∀ d pos s r, Yields g src d (.node e) pos s r → r.isSome = next pos) :
    Refines g src (.around id (.node e) fun pos s r ↦ if r.isSome then none else some (pos, s))
      (.prim fun pos s ↦ if next pos then none else some (pos, s)) := by
  intro d pos s r hyields
  obtain ⟨x, hx, rfl⟩ := Yields.around_iff.mp hyields
  rw [Yields.prim_iff, h d pos s x hx]

include hrecur in
/-- Negative look-ahead: success goes back and fails, failure goes on. -/
theorem codes_notCode (hs : s.Valid) {inner : ExprId} (hinner : inner < s.grammar.size)
    (hnext : next < s.code.instrs.size) :
    Codes (notCode recur e inner next) s (fun _ ↦ .around id (.node inner)
      fun pos s r ↦ if r.isSome then none else some (pos, s)) next := by
  have hplain (s₁ : Session) (hs₁ : s.Leads s₁) : Codes (do
      let fail ← emitEnd .fail e
      let pop ← emit .failPop fail e
      let body ← recur inner pop
      emit (.failPush next) body e) s₁ (fun _ ↦ .around id (.node inner)
        fun pos s r ↦ if r.isSome then none else some (pos, s)) next := by
    refine (builds_emitEnd .fail hs₁.valid (List.forall_mem_nil _)).bind fun fail s₂ h₂ hfail ↦ ?_
    refine (builds_emit .failPop h₂.valid hfail (List.forall_mem_nil _)).bind
      fun pop s₃ h₃ hpop ↦ ?_
    have h₁₃ := h₂.trans h₃
    refine (hrecur s₃ h₃.valid inner ((hs₁.trans h₁₃).lt_size hinner) pop hpop).bind
      fun body s₄ h₄ hbody ↦ ?_
    exact (builds_emit (.failPush next) h₄.valid hbody (List.forall_mem_singleton.mpr
      ((hs₁.trans (h₁₃.trans h₄)).lt_instrs hnext))).imp_right
        fun W src pc _ hpush hcode hpop hfail ↦ .not hcode hpush hpop hfail
  have hfast (s₁ : Session) (hs₁ : s.Leads s₁) (op : Opcode) (starts : Resident → Nat → Bool)
      (hbranches : op.branches = []) (hop : ∀ src, Computes src op fun pos s ↦
        if starts src pos then none else some (pos, s))
      (hinner : ∀ h, s₁.grammar.Extends h → ∀ src d pos s r,
        Yields h src d (.node inner) pos s r → r.isSome = starts src pos) :
      Codes (emit op next e) s₁ (fun _ ↦ .around id (.node inner)
        fun pos s r ↦ if r.isSome then none else some (pos, s)) next :=
    (codes_emit op hs₁.valid (hs₁.lt_instrs hnext) hbranches hop).refines fun h hh src ↦
      refines_not h (hinner h hh src)
  refine Builds.options ?_
  dsimp only
  split
  · refine (builds_simplify hs hinner).bind fun other s₁ hs₁ hother ↦ Builds.grammar ?_
    obtain ⟨-, hsimp⟩ := hother
    split
    · rename_i set hset
      refine Builds.pure_bind ((hfast s₁ hs₁ (.notClass set) (fun src pos ↦
        src.text[pos]?.any set.contains) rfl (fun src ↦ computes_notClass set)
          fun h hh src d pos s r hyields ↦ ?_).weaken)
      have htest := hsimp.refines (Operator.test?_of_byteSet? hset) (hh.agrees inner) src
      rw [Yields.consumes_iff.mp (htest d pos s r hyields)]
      split <;> simp [*]
    · rename_i bytes hset hbytes
      refine Builds.pure_bind ((hfast s₁ hs₁ (.notLiteral bytes) (fun src pos ↦
        src.matchesAt pos bytes) rfl (fun src ↦ computes_notLiteral bytes)
          fun h hh src d pos s r hyields ↦ ?_).weaken)
      rw [hsimp.eq_of_literalBytes? hbytes] at hbytes
      exact Grammar.isSome_of_literal (hh.agrees inner) hbytes hyields
    · exact Builds.pure_bind (hplain s₁ hs₁).weaken
  · exact Builds.pure_bind (hplain s (.refl hs))

/-! ### Memoized results -/

/-- The path that looks a result up and else computes it. -/
def memoPath (e : ExprId) (use : MemoUse) (child : Option Int) (inside : InstrId → Encoder InstrId)
    (next : InstrId) : Encoder InstrId := do
  let memoize ← emit (.memoize use child) next e
  let inside ← inside memoize
  let memoFail ← emitEnd (.memoizeFail use) e
  emit (.lookup use child next memoFail) inside e

theorem memoizedCode_eq (e : ExprId) (slot : MemoSlot) (child : Option Int)
    (plain : Encoder InstrId)
    (inside : InstrId → Encoder InstrId) (next : InstrId) :
    memoizedCode e slot child plain inside next = (do
      let monitor ← monitorCode e plain
      let lookup ← memoPath e { memo := slot.id, key := slot.key, monitor } child inside next
      activate monitor lookup) := by
  simp only [memoizedCode, memoPath, bind_assoc]

/-- The path is code for a term that does what the expression of the slot does. -/
theorem builds_memoPath (hs : s.Valid) {use : MemoUse} {slot : MemoSlot} {child : Option Int}
    {inside : InstrId → Encoder InstrId} {t : Resident → Term} (hkey : use.key = slot.key)
    (href : ∀ h, s.grammar.Extends h → ∀ src, Refines h src (t src) (.node slot.expr))
    (hinside : ∀ s₁, s.Leads s₁ → ∀ mid : InstrId, mid < s₁.code.instrs.size →
      Codes (inside mid) s₁ t mid)
    (hnext : next < s.code.instrs.size) :
    Builds (memoPath e use child inside next) s (fun pc s' ↦ pc < s'.code.instrs.size)
      fun W src pc ↦ W.memo[use.memo]? = some slot → W.Encodes src (t src) pc next := by
  refine (builds_emit (.memoize use child) hs hnext (List.forall_mem_nil _)).bind
    fun memoize s₁ h₁ hmemoize ↦ ?_
  refine (hinside s₁ h₁ memoize hmemoize).bind fun mid s₂ h₂ hmid ↦ ?_
  refine (builds_emitEnd (.memoizeFail use) h₂.valid (List.forall_mem_nil _)).bind
    fun memoFail s₃ h₃ hmemoFail ↦ ?_
  have h₀₃ := h₁.trans (h₂.trans h₃)
  have hbranches : ∀ j ∈ [next, memoFail], j < s₃.code.instrs.size := by
    intro j hj
    rcases List.mem_cons.mp hj with rfl | hj
    · exact h₀₃.lt_instrs hnext
    · rwa [List.mem_singleton.mp hj]
  exact (builds_emit (.lookup use child next memoFail) h₃.valid
    (h₃.lt_instrs hmid) hbranches).imp_right
    fun W src pc hW hpc hfail hcode hholds hslot ↦
      .memoized hcode hslot hkey (href _ (h₀₃.grows.toExtends.trans hW) src) hpc hholds hfail

/-- The switch, when there is one, was made here. -/
theorem builds_monitorCode (hs : s.Valid) {plain : Encoder InstrId} {t : Resident → Term}
    (hplain : Codes plain s t next) :
    Builds (monitorCode e plain) s (fun monitor s' ↦ ∀ switch, monitor = some switch →
      s.code.instrs.size ≤ switch ∧ ∃ start, start < s'.code.instrs.size ∧
        s'.code.instrs[switch]? = some ⟨.monitoredSwitch start, some start, e, false⟩)
      fun _ _ _ ↦ True := by
  refine Builds.options ?_
  split
  · refine hplain.bind fun start s₁ h₁ hstart ↦ Builds.map ?_
    refine (builds_emitWith (.monitoredSwitch start) (some start) e h₁.valid fun j hj ↦ ?_).imp
      (fun switch s₂ h₂ hswitch other hother ↦ ?_) fun _ _ _ _ _ _ ↦ trivial
    · rcases List.mem_cons.mp hj with rfl | hj
      · exact hstart
      · rwa [List.mem_singleton.mp hj]
    · cases hother
      obtain ⟨-, rfl, hinstr⟩ := hswitch
      exact ⟨h₁.size_le, start, h₂.lt_instrs hstart, hinstr⟩
  · exact .pure hs (fun _ h ↦ (nomatch h)) fun _ _ _ ↦ trivial

/-- With a switch or without one, the code is right whichever path it leads to. -/
theorem builds_memoizedCode (hs : s.Valid) {slot : MemoSlot} {child : Option Int}
    {plain : Encoder InstrId} {inside : InstrId → Encoder InstrId} {t : Resident → Term}
    (href : ∀ h, s.grammar.Extends h → ∀ src, Refines h src (t src) (.node slot.expr))
    (hplain : Codes plain s t next)
    (hinside : ∀ s₁, s.Leads s₁ → ∀ mid : InstrId, mid < s₁.code.instrs.size →
      Codes (inside mid) s₁ t mid)
    (hnext : next < s.code.instrs.size) :
    Builds (memoizedCode e slot child plain inside next) s (fun pc s' ↦ pc < s'.code.instrs.size)
      fun W src pc ↦ W.memo[slot.id]? = some slot → W.Encodes src (t src) pc next := by
  rw [memoizedCode_eq]
  intro pc s₃ h
  obtain ⟨monitor, s₁, h₁, h⟩ := bind_eq_some h
  obtain ⟨lookup, s₂, h₂, h⟩ := bind_eq_some h
  obtain ⟨hs₁, hmonitor, -⟩ := builds_monitorCode hs hplain monitor s₁ h₁
  obtain ⟨hs₂, hlookup, hcode⟩ := builds_memoPath hs₁.valid (by rfl) (fun k hk ↦ href k
    (hs₁.grows.toExtends.trans hk)) (fun s' hs' ↦ hinside s' (hs₁.trans hs')) (hs₁.lt_instrs hnext)
    lookup s₂ h₂
  rcases monitor with - | switch
  · cases h
    exact ⟨hs₁.trans hs₂, hlookup, fun W src hW ↦ hcode W src (hW.right hs₁)⟩
  · obtain ⟨_, s', hpatch, h⟩ := bind_eq_some h
    cases hpatch
    cases h
    obtain ⟨hle, start, hstart, hinstr⟩ := hmonitor pc rfl
    obtain ⟨hlt, -⟩ := Array.getElem?_eq_some_iff.mp hinstr
    have hinstr₂ := (hs₂.instrs_eq _ hlt).trans hinstr
    -- the switch went to the plain path on both sides until the other path was made
    have hlead := (hs₁.trans hs₂).modify hle ({ · with op := .monitoredSwitch lookup })
      fun instr hinstr' j hj ↦ by
        rw [hinstr₂] at hinstr'
        cases hinstr'
        rcases List.mem_cons.mp hj with rfl | hj
        · exact hs₂.lt_instrs hstart
        · rwa [List.mem_singleton.mp hj]
    refine ⟨hlead, ?_, fun W src hW hslot ↦ ?_⟩
    · show pc < (s₂.code.instrs.modify pc _).size
      rw [Array.size_modify]
      exact hs₂.lt_instrs hlt
    · exact .switch (hcode W src (hW.of_modify hs₁ hlt) hslot)
        ⟨_, hW.arena_modify hle hinstr₂, rfl, rfl⟩

/-! ### References and links -/

include hrecur in
theorem codes_referenceCode (hs : s.Valid) (he : e < s.grammar.size) {rule : RuleId}
    (hop : s.grammar.op e = .reference rule) (hnext : next < s.code.instrs.size) :
    Codes (referenceCode recur e rule next) s (fun _ ↦ .node e) next := by
  refine (builds_simplified hs he).bind fun other s₁ hs₁ hother ↦ Builds.grammar ?_
  obtain ⟨hlt, hsimp⟩ := hother
  have hnext₁ := hs₁.lt_instrs hnext
  have hop₁ : s₁.grammar.op e = .reference rule := (hs₁.grows.op_eq e he).trans hop
  have hcall (s₂ : Session) (hs₂ : s₁.Leads s₂) (mid : InstrId) (hmid : mid < s₂.code.instrs.size) :
      Codes (emit (.call rule none) mid e) s₂ (fun _ ↦ .call rule) mid :=
    (builds_emit (.call rule none) hs₂.valid hmid (List.forall_mem_nil _)).imp_right
      fun W src pc _ h ↦ .call h
  have hnode {m : Encoder InstrId} (hm : Codes m s₁ (fun _ ↦ .call rule) next) :
      Codes m s₁ (fun _ ↦ .node e) next :=
    hm.refines fun h hh src ↦ hh.refines_of_op_eq (hs₁.lt_size he) hop₁ src
  split
  · rename_i h
    exact (codes_terminal hrecur hs₁.valid hlt hsimp h.2 hnext₁).weaken
  · refine Builds.options ?_
    have hplain := hcall s₁ (.refl hs₁.valid) next hnext₁
    dsimp only
    split
    · rename_i body hbody
      split
      · rename_i hmemo
        have hbody' := hs₁.valid.wellFormed.body_lt rule body hbody
        have hreach : s₁.grammar.Reach e (s₁.grammar.resolve body) :=
          .head (by simp [Grammar.successors, hop₁, hbody]) (Grammar.reach_resolve _ body)
        refine (builds_issue e hs₁.valid (Bool.and_eq_true_iff.mp hmemo).1
          (Grammar.resolve_lt hs₁.valid.wellFormed hbody') (by rw [hop₁]; rfl) hreach).bind
            fun slot s₂ hs₂ hslot ↦ ?_
        refine (builds_memoizedCode hs₂.valid (t := fun _ ↦ .call rule) (fun h hh src ↦ ?_)
          (hcall s₂ hs₂ next (hs₂.lt_instrs hnext₁)) (fun s₃ hs₃ ↦ hcall s₃ (hs₂.trans hs₃))
          (hs₂.lt_instrs hnext₁)).imp_right fun W src pc hW h hslot _ ↦ ?_
        · have hh' := hs₂.grows.toExtends.trans hh
          rw [hslot]
          exact (refines_body ((hh'.body?_eq rule).trans hbody)).trans
            (Grammar.refines_resolve hh' body)
        · exact .refines ((hs₂.grows.toExtends.trans hW).refines_of_op_eq (hs₁.lt_size he) hop₁ src)
            (h hslot)
      · exact (hnode hplain).weaken
    · exact (hnode hplain).weaken

include hrecur in
theorem codes_treeNodeCode (hs : s.Valid) {inner : ExprId} {index : Int}
    (hinner : inner < s.grammar.size) (hnext : next < s.code.instrs.size) :
    Codes (treeNodeCode recur e inner index next) s (fun _ ↦ .node inner) next := by
  refine (builds_emit (.nodeStore index) hs hnext (List.forall_mem_nil _)).bind
    fun store s₁ h₁ hstore ↦ ?_
  refine (hrecur s₁ h₁.valid inner (h₁.lt_size hinner) store hstore).bind fun body s₂ h₂ hbody ↦ ?_
  refine (builds_emit .nodePush h₂.valid hbody (List.forall_mem_nil _)).imp_right
    fun W src pc _ hpush hcode hstore ↦ ?_
  have hmark (op : Opcode) (hop : Computes src op fun pos s ↦ some (pos, s)) {pc next : InstrId}
      (h : W.Holds pc op (some next)) : W.Encodes src .done pc next := .prim hop h
  have hpush' := hmark .nodePush ⟨fun _ _ ↦ rfl, fun _ _ ↦ rfl⟩ hpush
  have hstore' := hmark (.nodeStore index) ⟨fun _ _ ↦ rfl, fun _ _ ↦ rfl⟩ hstore
  exact .refines ((refines_both_done _).trans (refines_done_both _))
    (.both hpush' (.both hcode hstore'))

include hrecur in
/-- A link is code for its operand, as trees do not matter for what is matched. -/
theorem codes_linkCode (hs : s.Valid) (he : e < s.grammar.size) {inner : ExprId} {index : Int}
    (hop : s.grammar.op e = .link inner index) (hnext : next < s.code.instrs.size) :
    Codes (linkCode recur e inner index next) s (fun _ ↦ .node inner) next := by
  have hinner : inner < e := hs.wellFormed.child_lt (by rw [hop]; exact List.mem_singleton_self _)
  have hinner' := Nat.lt_trans hinner he
  refine Builds.options ?_
  split
  · exact hrecur s hs inner hinner' next hnext
  · split
    · exact codes_treeNodeCode hrecur hs hinner' hnext
    · rename_i hpackrat
      refine Builds.grammar ?_
      have hreach : s.grammar.Reach e (s.grammar.resolve inner) :=
        .head (by simp [Grammar.successors, hop, Operator.children])
          (Grammar.reach_resolve _ inner)
      refine (builds_issue e hs (by simpa using hpackrat) (Grammar.resolve_lt hs.wellFormed hinner')
        (by rw [hop]; rfl) hreach).bind fun slot s₁ hs₁ hslot ↦ ?_
      have hnext₁ := hs₁.lt_instrs hnext
      refine (builds_memoizedCode hs₁.valid (t := fun _ ↦ .node inner) (fun h hh src ↦ ?_)
        (codes_treeNodeCode hrecur hs₁.valid (hs₁.lt_size hinner') hnext₁)
        (fun s₂ hs₂ mid hmid ↦ hrecur s₂ hs₂.valid inner ((hs₁.trans hs₂).lt_size hinner') mid hmid)
        hnext₁).imp_right fun W src pc _ h hslot ↦ h hslot
      rw [hslot]
      exact Grammar.refines_resolve (hs₁.grows.toExtends.trans hh) inner

/-! ### Nodes -/

theorem codes_mark (hs : s.Valid) (m : TreeMark) (hnext : next < s.code.instrs.size) :
    Codes (emit (.mark m) next e) s (fun _ ↦ .done) next :=
  codes_emit (.mark m) hs hnext rfl fun _ ↦ ⟨fun _ _ ↦ rfl, fun _ _ ↦ rfl⟩

theorem codes_construct (hrecur : Sound recur) (hs : s.Valid) (he : e < s.grammar.size)
    {body : List ExprId} {left : Bool} (hop : s.grammar.op e = .construct body left)
    (hnext : next < s.code.instrs.size) :
    Codes (do
      let capture ← emit (.mark .capture) next e
      let body ← sequenceCode recur e body capture
      emit (.mark (.new left)) body e) s (fun _ ↦ .node e) next := by
  have hbody (x : ExprId) (hx : x ∈ body) : x < s.grammar.size :=
    Nat.lt_trans (hs.wellFormed.child_lt (by rw [hop]; exact hx)) he
  refine (codes_mark hs .capture hnext).bind fun capture s₁ h₁ hcapture ↦ ?_
  have hterm (src : Resident) : (s₁.grammar.op e).term src = .all (body.map .node) := by
    rw [h₁.grows.op_eq e he, hop]
    rfl
  refine (codes_sequenceCode hrecur h₁.valid (h₁.lt_size he) hterm
    (fun x hx ↦ h₁.lt_size (hbody x hx)) hcapture).bind fun start s₂ h₂ hstart ↦ ?_
  exact (codes_mark h₂.valid (.new left) hstart).imp_right fun W src pc _ hnew hcode hcapture ↦
    .refines ((refines_both_done _).trans (refines_done_both _)) (.both hnew (.both hcode hcapture))

/-- Each operator is encoded as it should be. -/
theorem codes_nodeCode (hrecur : Sound recur) (hs : s.Valid) (he : e < s.grammar.size)
    (hnext : next < s.code.instrs.size) :
    Codes (nodeCode recur e next) s (fun _ ↦ .node e) next := by
  have hchild (child : ExprId) (hc : child ∈ (s.grammar.op e).children) : child < s.grammar.size :=
    Nat.lt_trans (hs.wellFormed.child_lt hc) he
  have hsequence {items : List ExprId}
      (hterm : ∀ src, (s.grammar.op e).term src = .all (items.map .node))
      (hitems : ∀ x ∈ items, x ∈ (s.grammar.op e).children) :=
    codes_sequenceCode hrecur hs he hterm (fun x hx ↦ hchild x (hitems x hx)) hnext
  -- what is made is code for the term of the operator
  have hnode {m : Encoder InstrId} (hm : Codes m s (s.grammar.op e).term next) :
      Codes m s (fun _ ↦ .node e) next :=
    hm.refines fun h hh src ↦ hh.refines_of_op_eq he rfl src
  refine Builds.options (Builds.grammar ?_)
  cases hop : s.grammar.op e with rw [hop] at hchild hsequence hnode
  | empty => exact hnode (.pure hs hnext fun _ _ _ ↦ .done next)
  | fail =>
    exact hnode ((builds_emitEnd .fail hs (List.forall_mem_nil _)).imp_right
      fun _ _ _ _ h ↦ .fails next h)
  | anyByte => exact hnode (codes_emit .anyByte hs hnext rfl fun _ ↦ computes_anyByte)
  | byte b =>
    exact hnode (codes_emit (.byte b false) hs hnext rfl fun _ ↦
      computes_consume (fun _ _ ↦ rfl) fun _ _ ↦ rfl)
  | byteClass set =>
    exact hnode (codes_emit (.byteClass set false) hs hnext rfl fun _ ↦
      computes_consume (fun _ _ ↦ rfl) fun _ _ ↦ rfl)
  | sequence items => exact hsequence (fun _ ↦ rfl) fun _ h ↦ h
  | choice alts => exact codes_choiceCode hrecur hs he hop hnext
  | star inner nullable =>
    have hinner := hchild inner (List.mem_singleton_self _)
    exact hnode (codes_starCode hrecur hs (.inl hop) he hinner hnext)
  | plus inner nullable =>
    have hinner := hchild inner (List.mem_singleton_self _)
    refine hnode ((codes_starCode hrecur hs (.inr hop) he hinner hnext).bind
      fun rest s₁ hs₁ hrest ↦ ?_)
    exact (hrecur s₁ hs₁.valid inner (hs₁.lt_size hinner) rest hrest).imp_right
      fun _ _ _ _ h hrest ↦ .both h hrest
  | optional inner =>
    exact hnode (codes_optionalCode hrecur hs (hchild inner (List.mem_singleton_self _)) hnext)
  | and inner =>
    exact hnode (codes_spannedCode hrecur hs (hchild inner (List.mem_singleton_self _)) rfl
      (fun _ ↦ closes_posBack) hnext)
  | not inner =>
    exact hnode (codes_notCode hrecur hs (hchild inner (List.mem_singleton_self _)) hnext)
  | reference rule => exact codes_referenceCode hrecur hs he hop hnext
  | construct body left =>
    dsimp only
    split
    · exact codes_construct hrecur hs he hop hnext
    · exact hsequence (fun _ ↦ rfl) fun _ h ↦ h
  | mark m =>
    dsimp only
    split
    · exact hnode (codes_mark hs m hnext)
    · exact hnode (.pure hs hnext fun _ _ _ ↦ .done next)
  | link inner index => exact hnode (codes_linkCode hrecur hs he hop hnext)
  | block inner =>
    exact hnode (codes_blockCode hrecur hs (hchild inner (List.mem_singleton_self _)) hnext)
  | defSymbol table inner =>
    exact hnode (codes_spannedCode hrecur hs (hchild inner (List.mem_singleton_self _)) rfl
      (fun _ ↦ closes_defSymbol table) hnext)
  | isSymbol table inner lastOnly =>
    exact hnode (codes_spannedCode hrecur hs (hchild inner (List.mem_singleton_self _)) rfl
      (fun _ ↦ closes_isSymbol table lastOnly) hnext)
  | defIndent => exact hnode (codes_emit .defIndent hs hnext rfl fun _ ↦ computes_defIndent)
  | isIndent => exact hnode (codes_emit .isIndent hs hnext rfl fun _ ↦ computes_isIndent)

end

/-- Encoding within a depth is sound: when it answers, the answer is code for the node. -/
theorem sound_encode (depth : Nat) : Sound (encode depth) := by
  induction depth with
  | zero => exact fun s _ e _ next _ pc s' h ↦ (nomatch h)
  | succ depth ih => exact fun s hs e he next hnext ↦ codes_nodeCode ih hs he hnext

end Encoder

end ParsingMachine
