import ParsingMachine.Compile.Session
import ParsingMachine.Proofs.Grammar.Factor
import ParsingMachine.Proofs.Grammar.JumpTable
import ParsingMachine.Proofs.Grammar.Simplify
import ParsingMachine.Proofs.Machine.Encoding

/-!
# What encoding does to a session

Encoding makes a session larger (`Session.Leads`): the grammar grows, instructions are appended and
the old ones stay as they are, and the session stays valid (`Session.Valid`).

What a piece of an encoder makes is said by what holds of every image that includes it
(`Machine.Image.Includes`). `Encoder.Builds` joins both; it composes (`Encoder.Builds.bind`), and
there is one lemma for each primitive of the encoder.

Images are what makes this compose. A piece of code refers to code that was made before and is
referred to by code that comes later, and the arena in which all of it will stand is known only at
the end. So a piece is not said to be right in the session that it leaves, but in everything that
holds the instructions between two sessions; whatever includes a whole includes its parts
(`Includes.left`, `Includes.right`), and no lemma has to speak of code outside of what it made.

An instruction that was made in between may be replaced, which happens to loops and to switches. It
is outside the instructions that were made after it, so nothing changes for them
(`Includes.of_modify`).

`Builds` has a part for the session and a part for images. The first is there for what comes next in
the encoder, which may rely on the answer being a node or an instruction; the second for what the
code is meant to do. Code for a term is a case of it (`Encoder.Codes`).

A valid session is one whose side tables are right, in which instructions lead to instructions, and
whose slots belong to what is matched for a reference or a link.

## Main statements

* `Session.Leads.trans`, `Session.Leads.modify`: what encoding makes of a session.
* `Builds.bind`: pieces of an encoder, one after the other.
* `Codes.refines`: code for a term is code for every term that refines it.
* `builds_emitWith`, `builds_build`, `builds_issue`: the primitives.
-/

namespace ParsingMachine

/-- What a lookup finds is in the list. -/
theorem mem_of_lookup_eq_some {done : List (ExprId × InstrId)} {target : ExprId} {code : InstrId}
    (h : done.lookup target = some code) : (target, code) ∈ done := by
  obtain ⟨before, after, hsplit, -⟩ := List.lookup_eq_some_iff.mp h
  rw [hsplit]
  exact List.mem_append_right _ List.mem_cons_self

/-- What is in an array stays there when something is appended. -/
theorem getElem?_push_of_eq_some {α : Type} {xs : Array α} {i : Nat} {x : α} (h : xs[i]? = some x)
    (y : α) : (xs.push y)[i]? = some x := by
  obtain ⟨hlt, -⟩ := Array.getElem?_eq_some_iff.mp h
  rwa [Array.getElem?_push_lt hlt, ← Array.getElem?_eq_getElem hlt]

/-! ### Valid sessions -/

/-- The side tables of a grammar in which operands come before their nodes are right. -/
structure Grammar.Sound (g : Grammar) : Prop where
  /-- Operands come before their nodes, and the bodies of rules are nodes. -/
  wellFormed : g.WellFormed
  /-- The recorded simpler nodes are right. -/
  simplified : g.SoundSimplified
  /-- The jump tables are right. -/
  tables : g.SoundTables

/-- Side tables stay right when right answers are recorded in a grammar that grows. -/
theorem Grammar.Sound.records {g h : Grammar} (hg : g.Sound) (hgh : g.Records h) : h.Sound where
  wellFormed := hgh.toGrows.wellFormed hg.wellFormed
  simplified := hgh.sound
  tables := hg.tables.extends hgh.toExtends hgh.tables_eq

/-- What is known of the expression of a memo slot. -/
structure MemoSlot.Serves (slot : MemoSlot) (g : Grammar) : Prop where
  /-- It is a node. -/
  lt : slot.expr < g.size
  /-- It takes part in matching a reference or a link. -/
  root : ∃ root, (g.op root).isMemoized ∧ g.Reach root slot.expr
  /-- What does not depend on the parse state reaches no query of it. -/
  isStateQuery_eq : slot.contextSensitive = false →
    ∀ x, g.Reach slot.expr x → (g.op x).isStateQuery = false

/-- What is known of the expression of a slot stays true in a larger grammar. -/
theorem MemoSlot.Serves.extends {slot : MemoSlot} {g h : Grammar} (hs : slot.Serves g)
    (hgh : g.Extends h) (hg : g.WellFormed) : slot.Serves h where
  lt := Nat.lt_of_lt_of_le hs.lt hgh.size_le
  root := by
    obtain ⟨root, hop, hreach⟩ := hs.root
    have hne : g.op root ≠ .fail := fun hfail ↦ by simp [hfail, Operator.isMemoized] at hop
    refine ⟨root, ?_, (hgh.reach_iff hg (Grammar.lt_size_of_op_ne hne)).mpr hreach⟩
    rwa [hgh.op_eq_of_ne hne]
  isStateQuery_eq hsensitive x hx := by
    rw [hgh.reach_iff hg hs.lt] at hx
    rw [hgh.op_eq x (Grammar.reach_lt hg hs.lt hx)]
    exact hs.isStateQuery_eq hsensitive x hx

namespace Session

/-- What encoding relies on and keeps. -/
structure Valid (s : Session) : Prop where
  /-- Operands come before their nodes. -/
  wellFormed : s.grammar.WellFormed
  /-- The recorded simpler nodes are right. -/
  simplified : s.grammar.SoundSimplified
  /-- The jump tables are right. -/
  tables : s.grammar.SoundTables
  /-- Instructions lead to instructions. -/
  successor_lt : ∀ (i : InstrId) instr, s.code.instrs[i]? = some instr →
    ∀ j ∈ instr.successors, j < s.code.instrs.size
  /-- Memo slots are numbered, and are made only when results are kept. -/
  slots : ∀ (i : MemoId) slot, s.memo[i]? = some slot →
    slot.id = i ∧ s.options.packrat ∧ slot.Serves s.grammar

/-- A session and what encoding made of it. -/
structure Leads (s s' : Session) : Prop where
  /-- The grammar grows. -/
  grows : s.grammar.Grows s'.grammar
  /-- The jump tables stay. -/
  tables_eq : s'.grammar.tables = s.grammar.tables
  /-- Instructions are only added. -/
  size_le : s.code.instrs.size ≤ s'.code.instrs.size
  /-- Old instructions stay as they are. -/
  instrs_eq : ∀ i < s.code.instrs.size, s'.code.instrs[i]? = s.code.instrs[i]?
  /-- Nothing is placed. -/
  order_eq : s'.code.order = s.code.order
  /-- No block is finished. -/
  blocks_eq : s'.blocks = s.blocks
  /-- The options stay. -/
  options_eq : s'.options = s.options
  /-- The depth stays. -/
  depth_eq : s'.depth = s.depth
  /-- Slots stay where they are. -/
  memo : ∀ (i : MemoId) slot, s.memo[i]? = some slot → s'.memo[i]? = some slot
  /-- The new session is valid. -/
  valid : s'.Valid

namespace Leads

variable {s s₁ s₂ : Session}

theorem refl (hs : s.Valid) : s.Leads s :=
  ⟨.refl _, rfl, Nat.le_refl _, fun _ _ ↦ rfl, rfl, rfl, rfl, rfl, fun _ _ h ↦ h, hs⟩

theorem trans (h : s.Leads s₁) (h' : s₁.Leads s₂) : s.Leads s₂ where
  grows := h.grows.trans h'.grows
  tables_eq := h'.tables_eq.trans h.tables_eq
  size_le := Nat.le_trans h.size_le h'.size_le
  instrs_eq i hi := by
    rw [h'.instrs_eq i (Nat.lt_of_lt_of_le hi h.size_le), h.instrs_eq i hi]
  order_eq := h'.order_eq.trans h.order_eq
  blocks_eq := h'.blocks_eq.trans h.blocks_eq
  options_eq := h'.options_eq.trans h.options_eq
  depth_eq := h'.depth_eq.trans h.depth_eq
  memo i slot hslot := h'.memo i slot (h.memo i slot hslot)
  valid := h'.valid

/-- An instruction made on the way may be replaced. -/
theorem modify (h : s.Leads s₁) {i : InstrId} (hi : s.code.instrs.size ≤ i)
    (f : Instruction → Instruction) (hf : ∀ instr, s₁.code.instrs[i]? = some instr →
      ∀ j ∈ (f instr).successors, j < s₁.code.instrs.size) :
    s.Leads { s₁ with code := { s₁.code with instrs := s₁.code.instrs.modify i f } } where
  grows := h.grows
  tables_eq := h.tables_eq
  size_le := by simpa using h.size_le
  instrs_eq j hj := by
    rw [Array.getElem?_modify, if_neg (Nat.ne_of_gt (Nat.lt_of_lt_of_le hj hi))]
    exact h.instrs_eq j hj
  order_eq := h.order_eq
  blocks_eq := h.blocks_eq
  options_eq := h.options_eq
  depth_eq := h.depth_eq
  memo := h.memo
  valid := by
    refine ⟨h.valid.wellFormed, h.valid.simplified, h.valid.tables, fun j instr hinstr x hx ↦ ?_,
      h.valid.slots⟩
    dsimp only at hinstr ⊢
    rw [Array.getElem?_modify] at hinstr
    rw [Array.size_modify]
    split at hinstr
    · rename_i heq
      subst heq
      obtain ⟨old, hold, rfl⟩ := Option.map_eq_some_iff.mp hinstr
      exact hf old hold x hx
    · exact h.valid.successor_lt j instr hinstr x hx

/-- Nodes stay nodes. -/
theorem lt_size (h : s.Leads s₁) {e : ExprId} (he : e < s.grammar.size) : e < s₁.grammar.size :=
  Nat.lt_of_lt_of_le he h.grows.size_le

/-- Instructions stay instructions. -/
theorem lt_instrs (h : s.Leads s₁) {i : InstrId} (hi : i < s.code.instrs.size) :
    i < s₁.code.instrs.size :=
  Nat.lt_of_lt_of_le hi h.size_le

end Leads

end Session

/-! ### Images of what was encoded -/

/-- The image holds what was made on the way from one session to another. -/
structure Machine.Image.Includes (W : Image) (s s' : Session) : Prop where
  /-- The grammar may have grown since. -/
  grammar : s'.grammar.Extends W.grammar
  /-- The new instructions are in the arena. -/
  arena : ∀ i, s.code.instrs.size ≤ i → i < s'.code.instrs.size → W.arena[i]? = s'.code.instrs[i]?
  /-- The slots are there. -/
  memo : ∀ (i : MemoId) slot, s'.memo[i]? = some slot → W.memo[i]? = some slot

namespace Machine.Image.Includes

variable {W : Image} {s s₁ s₂ : Session}

/-- What includes the whole includes what was made first. -/
theorem left (h : W.Includes s s₂) (h₂ : s₁.Leads s₂) : W.Includes s s₁ where
  grammar := h₂.grows.toExtends.trans h.grammar
  arena i hi hlt := by
    rw [h.arena i hi (h₂.lt_instrs hlt), h₂.instrs_eq i hlt]
  memo i slot hslot := h.memo i slot (h₂.memo i slot hslot)

/-- And what was made then. -/
theorem right (h : W.Includes s s₂) (h₁ : s.Leads s₁) : W.Includes s₁ s₂ where
  grammar := h.grammar
  arena i hi hlt := h.arena i (Nat.le_trans h₁.size_le hi) hlt
  memo := h.memo

section

variable {i : InstrId} {f : Instruction → Instruction}
  (h : W.Includes s { s₂ with code := { s₂.code with instrs := s₂.code.instrs.modify i f } })

include h in
/-- What was made after an instruction is not touched when that is replaced. -/
theorem of_modify (h₁ : s.Leads s₁) (hi : i < s₁.code.instrs.size) : W.Includes s₁ s₂ where
  grammar := h.grammar
  arena j hj hlt := by
    have harena := h.arena j (Nat.le_trans h₁.size_le hj) (by simpa using hlt)
    rwa [Array.getElem?_modify, if_neg (Nat.ne_of_lt (Nat.lt_of_lt_of_le hi hj))] at harena
  memo := h.memo

include h in
theorem arena_modify (hi : s.code.instrs.size ≤ i) {instr : Instruction}
    (hinstr : s₂.code.instrs[i]? = some instr) : W.arena[i]? = some (f instr) := by
  obtain ⟨hlt, -⟩ := Array.getElem?_eq_some_iff.mp hinstr
  rw [h.arena i hi (by simpa using hlt), Array.getElem?_modify, if_pos rfl, hinstr]
  rfl

end

end Machine.Image.Includes

/-! ### Encoders -/

namespace Encoder

open Machine

variable {α β : Type} {s : Session}

/-- What holds of the answer of an encoder, of the session it leaves, and of every image that
includes what it made. -/
def Builds (m : Encoder α) (s : Session) (R : α → Session → Prop)
    (Q : Image → Resident → α → Prop) : Prop :=
  ∀ a s', m s = some (a, s') → s.Leads s' ∧ R a s' ∧ ∀ W src, W.Includes s s' → Q W src a

theorem Builds.pure {R : α → Session → Prop} {Q : Image → Resident → α → Prop} {a : α}
    (hs : s.Valid) (hR : R a s) (hQ : ∀ W src, W.Includes s s → Q W src a) :
    Builds (Pure.pure a) s R Q := by
  intro b s' h
  cases h
  exact ⟨.refl hs, hR, hQ⟩

theorem bind_eq_some {m : Encoder α} {f : α → Encoder β} {b : β} {s₂ : Session}
    (h : (m >>= f) s = some (b, s₂)) : ∃ a s₁, m s = some (a, s₁) ∧ f a s₁ = some (b, s₂) := by
  change (m s).bind (fun x ↦ f x.1 x.2) = _ at h
  obtain ⟨⟨a, s₁⟩, hm, hf⟩ := Option.bind_eq_some_iff.mp h
  exact ⟨a, s₁, hm, hf⟩

/-- The second of two encoders may rely on what the first has left. -/
theorem Builds.bind {m : Encoder α} {f : α → Encoder β} {R : α → Session → Prop}
    {Q : Image → Resident → α → Prop} {R' : β → Session → Prop} {Q' : Image → Resident → β → Prop}
    (hm : Builds m s R Q) (hf : ∀ a s₁, s.Leads s₁ → R a s₁ →
      Builds (f a) s₁ R' fun W src b ↦ Q W src a → Q' W src b) :
    Builds (m >>= f) s R' Q' := by
  intro b s₂ h
  obtain ⟨a, s₁, h₁, h₂⟩ := bind_eq_some h
  obtain ⟨hlead, hR, hQ⟩ := hm a s₁ h₁
  obtain ⟨hlead', hR', hQ'⟩ := hf a s₁ hlead hR b s₂ h₂
  exact ⟨hlead.trans hlead', hR', fun W src hW ↦
    hQ' W src (hW.right hlead) (hQ W src (hW.left hlead'))⟩

theorem Builds.imp {m : Encoder α} {R R' : α → Session → Prop} {Q Q' : Image → Resident → α → Prop}
    (hm : Builds m s R Q) (hR : ∀ a s', s.Leads s' → R a s' → R' a s')
    (hQ : ∀ W src a, s.grammar.Extends W.grammar → Q W src a → Q' W src a) : Builds m s R' Q' := by
  intro a s' h
  obtain ⟨hlead, hRa, hQa⟩ := hm a s' h
  exact ⟨hlead, hR a s' hlead hRa, fun W src hW ↦
    hQ W src a (hlead.grows.toExtends.trans hW.grammar) (hQa W src hW)⟩

/-- What holds of the images is enough for something else. -/
theorem Builds.imp_right {m : Encoder α} {R : α → Session → Prop}
    {Q Q' : Image → Resident → α → Prop}
    (hm : Builds m s R Q) (hQ : ∀ W src a, s.grammar.Extends W.grammar → Q W src a → Q' W src a) :
    Builds m s R Q' :=
  hm.imp (fun _ _ _ h ↦ h) hQ

/-- What holds of the images holds under an assumption. -/
theorem Builds.weaken {m : Encoder α} {R : α → Session → Prop} {Q A : Image → Resident → α → Prop}
    (hm : Builds m s R Q) : Builds m s R fun W src a ↦ A W src a → Q W src a :=
  hm.imp_right fun _ _ _ _ h _ ↦ h

theorem Builds.map {m : Encoder α} {f : α → β} {R : β → Session → Prop}
    {Q : Image → Resident → β → Prop}
    (hm : Builds m s (fun a s' ↦ R (f a) s') fun W src a ↦ Q W src (f a)) :
    Builds (f <$> m) s R Q := by
  intro b s' h
  change (m s).bind (fun x ↦ some (f x.1, x.2)) = _ at h
  obtain ⟨⟨a, s₁⟩, ha, hb⟩ := Option.bind_eq_some_iff.mp h
  cases hb
  exact hm a s₁ ha

/-- A given value. -/
theorem Builds.pure_bind {a : α} {f : α → Encoder β} {R : β → Session → Prop}
    {Q : Image → Resident → β → Prop} (hf : Builds (f a) s R Q) :
    Builds (Pure.pure a >>= f) s R Q :=
  hf

/-- Reading the options. -/
theorem Builds.options {f : Options → Encoder β} {R : β → Session → Prop}
    {Q : Image → Resident → β → Prop} (hf : Builds (f s.options) s R Q) :
    Builds (Encoder.options >>= f) s R Q :=
  hf

/-- Reading the grammar. -/
theorem Builds.grammar {f : Grammar → Encoder β} {R : β → Session → Prop}
    {Q : Image → Resident → β → Prop} (hf : Builds (f s.grammar) s R Q) :
    Builds (Encoder.grammar >>= f) s R Q :=
  hf

/-- The encoder makes code for a term. -/
def Codes (m : Encoder InstrId) (s : Session) (t : Resident → Term) (next : InstrId) : Prop :=
  Builds m s (fun pc s' ↦ pc < s'.code.instrs.size) fun W src pc ↦ W.Encodes src (t src) pc next

theorem Codes.refines {m : Encoder InstrId} {t u : Resident → Term} {next : InstrId}
    (hm : Codes m s u next)
    (href : ∀ h, s.grammar.Extends h → ∀ src, Refines h src (t src) (u src)) : Codes m s t next :=
  Builds.imp_right hm fun W src _ hW h ↦ .refines (href W.grammar hW src) h

/-! ### Primitives -/

/-- An instruction is appended, and whatever includes it holds it. -/
theorem builds_emitWith (op : Opcode) (next : Option InstrId) (origin : ExprId) (hs : s.Valid)
    (htargets : ∀ j ∈ next.toList ++ op.branches, j < s.code.instrs.size) :
    Builds (emitWith op next origin) s
      (fun i s' ↦ i < s'.code.instrs.size ∧ i = s.code.instrs.size ∧
        s'.code.instrs[i]? = some { op, next, origin })
      fun W _ i ↦ W.Holds i op next := by
  intro i s' h
  cases h
  have hnew : (s.code.push op next origin).instrs[s.code.instrs.size]? =
      some { op, next, origin } := by simp [Code.push]
  have hold (j : Nat) (hj : j < s.code.instrs.size) :
      (s.code.push op next origin).instrs[j]? = s.code.instrs[j]? := by
    have hne : j ≠ s.code.instrs.size := Nat.ne_of_lt hj
    simp [Code.push, Array.getElem?_push, hne]
  have hsize : (s.code.push op next origin).instrs.size = s.code.instrs.size + 1 := by
    simp [Code.push]
  have hlt : s.code.instrs.size < (s.code.push op next origin).instrs.size := by
    rw [hsize]
    exact Nat.lt_succ_self _
  refine ⟨⟨.refl _, rfl, Nat.le_of_lt hlt, hold, rfl, rfl, rfl, rfl, fun _ _ h ↦ h, hs.wellFormed,
    hs.simplified, hs.tables, fun j instr hinstr x hx ↦ ?_, hs.slots⟩, ⟨hlt, rfl, hnew⟩,
    fun W _ hW ↦ ?_⟩
  · refine Nat.lt_trans ?_ hlt
    by_cases hj : j < s.code.instrs.size
    · exact hs.successor_lt j instr ((hold j hj).symm.trans hinstr) x hx
    · obtain ⟨hbound, -⟩ := Array.getElem?_eq_some_iff.mp hinstr
      have hj' : j = s.code.instrs.size := by
        change j < (s.code.push op next origin).instrs.size at hbound
        rw [hsize] at hbound
        exact Nat.le_antisymm (Nat.le_of_lt_succ hbound) (Nat.le_of_not_lt hj)
      subst hj'
      obtain rfl := Option.some.inj (hnew.symm.trans hinstr)
      exact htargets x hx
  · exact ⟨_, (hW.arena _ (Nat.le_refl _) hlt).trans hnew, rfl, rfl⟩

/-- An instruction that falls through. -/
theorem builds_emit (op : Opcode) {next : InstrId} {origin : ExprId} (hs : s.Valid)
    (hnext : next < s.code.instrs.size) (hbranches : ∀ j ∈ op.branches, j < s.code.instrs.size) :
    Builds (emit op next origin) s (fun i s' ↦ i < s'.code.instrs.size)
      fun W _ i ↦ W.Holds i op (some next) := by
  refine (builds_emitWith op (some next) origin hs fun j hj ↦ ?_).imp (fun _ _ _ h ↦ h.1)
    fun _ _ _ _ h ↦ h
  rcases List.mem_cons.mp hj with rfl | hj
  · exact hnext
  · exact hbranches j hj

/-- An instruction that does not fall through. -/
theorem builds_emitEnd (op : Opcode) {origin : ExprId} (hs : s.Valid)
    (hbranches : ∀ j ∈ op.branches, j < s.code.instrs.size) :
    Builds (emitEnd op origin) s (fun i s' ↦ i < s'.code.instrs.size)
      fun W _ i ↦ W.Holds i op none :=
  (builds_emitWith op none origin hs hbranches).imp (fun _ _ _ h ↦ h.1) fun _ _ _ _ h ↦ h

/-- An operation that only computes. -/
theorem codes_emit (op : Opcode) {f : Resident → Nat → ParseState → Match} {next : InstrId}
    {origin : ExprId} (hs : s.Valid) (hnext : next < s.code.instrs.size)
    (hbranches : op.branches = []) (hop : ∀ src, Computes src op (f src)) :
    Codes (emit op next origin) s (fun src ↦ .prim (f src)) next := by
  refine (builds_emit op hs hnext fun j hj ↦ ?_).imp_right fun W src _ _ h ↦
    .prim (hop src) h
  rw [hbranches] at hj
  cases hj

/-- Extending the grammar. -/
theorem builds_build {b : Builder α} {P : α → Grammar → Prop} (hs : s.Valid)
    (hb : Builder.Ensures b s.grammar fun a h ↦ s.grammar.Records h ∧ P a h) :
    Builds (build b) s (fun a s' ↦ P a s'.grammar) fun _ _ _ ↦ True := by
  intro a s' h
  cases h
  obtain ⟨hrec, hP⟩ := hb
  have hext := hrec.toExtends
  refine ⟨⟨hrec.toGrows, hrec.tables_eq, Nat.le_refl _, fun _ _ ↦ rfl, rfl, rfl, rfl, rfl,
    fun _ _ h ↦ h,
    hrec.toGrows.wellFormed hs.wellFormed, hrec.sound, hs.tables.extends hext hrec.tables_eq,
    hs.successor_lt, fun i slot hslot ↦ ?_⟩, hP, fun _ _ _ ↦ trivial⟩
  obtain ⟨hid, hpackrat, hserves⟩ := hs.slots i slot hslot
  exact ⟨hid, hpackrat, hserves.extends hext hs.wellFormed⟩

/-- A slot is one of those there are, or a new one for an expression that has none. -/
theorem issue_eq_some {label : String} {expr : ExprId} {node : Bool} {slot : MemoSlot}
    {s' : Session} (h : issue label expr node s = some (slot, s')) :
    (s' = s ∧ slot ∈ s.memo ∧ slot.expr = expr ∧ slot.node = node) ∨
      ((∀ old ∈ s.memo, ¬(old.expr = expr ∧ old.node = node)) ∧
        s' = { s with memo := s.memo.push slot } ∧ ∃ contextSensitive,
          s.grammar.find? Operator.isStateQuery [] expr = some contextSensitive ∧
          slot = { id := s.memo.size, label, expr, node, contextSensitive }) := by
  obtain ⟨⟨slot, memo⟩, hissue, heq⟩ := Option.map_eq_some_iff.mp h
  cases heq
  unfold issueMemo at hissue
  split at hissue
  · rename_i old hfind
    cases hissue
    have hold := Array.find?_some hfind
    simp only [Bool.and_eq_true, beq_iff_eq] at hold
    exact .inl ⟨rfl, Array.mem_of_find?_eq_some hfind, hold⟩
  · rename_i hfind
    obtain ⟨contextSensitive, hsearch, hnew⟩ := Option.bind_eq_some_iff.mp hissue
    cases hnew
    refine .inr ⟨fun old hold hsame ↦ ?_, rfl, contextSensitive, hsearch, rfl⟩
    simp only [Array.find?_eq_none, Bool.and_eq_true, beq_iff_eq] at hfind
    exact hfind old hold hsame

/-- There is a slot for every node. -/
theorem exists_issue (hg : s.grammar.WellFormed) (label : String) {expr : ExprId} (node : Bool)
    (hexpr : expr < s.grammar.size) :
    ∃ slot memo, issue label expr node s = some (slot, { s with memo }) := by
  unfold issue issueMemo
  split
  · exact ⟨_, _, rfl⟩
  · rw [Grammar.find?_eq_some hg _ hexpr]
    exact ⟨_, _, rfl⟩

/-- The slot of an expression that takes part in matching a reference or a link. -/
theorem builds_issue {label : String} {expr : ExprId} {node : Bool} (root : ExprId) (hs : s.Valid)
    (hpackrat : s.options.packrat) (hexpr : expr < s.grammar.size)
    (hroot : (s.grammar.op root).isMemoized) (hreach : s.grammar.Reach root expr) :
    Builds (issue label expr node) s (fun slot _ ↦ slot.expr = expr)
      fun W _ slot ↦ W.memo[slot.id]? = some slot := by
  intro slot s' h
  rcases issue_eq_some h with ⟨rfl, hmem, hslot, -⟩ | ⟨-, rfl, contextSensitive, hsearch, hslot⟩
  · obtain ⟨i, hi⟩ := Array.mem_iff_getElem?.mp hmem
    obtain ⟨rfl, -, -⟩ := hs.slots i slot hi
    exact ⟨.refl hs, hslot, fun W _ hW ↦ hW.memo _ slot hi⟩
  · have hold (i : MemoId) (old : MemoSlot) (h : s.memo[i]? = some old) :
        (s.memo.push slot)[i]? = some old := getElem?_push_of_eq_some h slot
    subst hslot
    refine ⟨⟨.refl _, rfl, Nat.le_refl _, fun _ _ ↦ rfl, rfl, rfl, rfl, rfl, hold, hs.wellFormed,
      hs.simplified, hs.tables, hs.successor_lt, fun i slot hslot ↦ ?_⟩, rfl, fun W _ hW ↦ ?_⟩
    · rw [Array.getElem?_push] at hslot
      split at hslot
      · rename_i hi
        cases hslot
        refine ⟨hi.symm, hpackrat, hexpr, ⟨root, hroot, hreach⟩, fun hsensitive x hx ↦ ?_⟩
        rw [show contextSensitive = false from hsensitive] at hsearch
        refine Bool.eq_false_iff.mpr fun hquery ↦ ?_
        cases (Grammar.iff_of_find?_eq_some (fun _ ↦ rfl) (List.forall_mem_nil _) hsearch
          (.refl _)).mpr ⟨x, hx, hquery⟩
      · exact hs.slots i slot hslot
    · exact hW.memo _ _ Array.getElem?_push_size

end Encoder

end ParsingMachine
