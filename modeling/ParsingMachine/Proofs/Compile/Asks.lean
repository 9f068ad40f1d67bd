import ParsingMachine.Compile.Encode
import ParsingMachine.Proofs.Compile.Session
import ParsingMachine.Proofs.Semantics.Settled
import ParsingMachine.Proofs.Semantics.Steady

/-!
# What encoding asks for

To encode a node is to ask for the code of other nodes. `Grammar.demands` says which: the operands
of the node, or the entries of its jump table, of which narrower choices are asked for in factored
form.

An encoder asks for a list of demands (`Encoder.Asks`) when it ends as soon as these end, and when
it ends only if each of them ended. It may leave out what is settled (`Grammar.Settled`): a node
from which no node takes part in matching itself, such as one that is simplified to a terminal.
There is one lemma for each function of the encoder, up to `Encoder.asks_nodeCode`.

The two directions serve an exact condition for encoding to end. If all demands of a node can be
met, so can the node; and if the node was encoded, its demands were, so a demand that leads back to
itself is never met.

Demands are those of the grammar at the start, although the grammar grows while they are met. A
larger grammar asks for the same to encode an old node (`Grammar.Records.demands_eq`), and what was
recorded in between is right, so this is the only thing to be known about what happens in between
(`Session.Widens`).

Leaving out settled demands is needed because of specialization: the encoder does not come to the
operands of a node when it can test a set of bytes instead. Whether it does depends on the options
and on what is recorded, and the list of demands does not. So a demand that was not asked for is
said to be settled, and settled demands can always be met.

## Main statements

* `Grammar.demands`: what is asked for to encode a node.
* `Asks.bind`: what two encoders ask for, one after the other.
* `Asks.cut`: settled demands may be left out.
* `asks_factoredCode`, `factoredCode_eq_of_factored?`: a factored form asks for the alternatives or
  for the factored choice.
* `asks_nodeCode`: to encode a node its demands are asked for.
-/

namespace ParsingMachine

/-! ### Demands -/

/-- What encoding asks for on its way down. -/
inductive Demand where
  /-- The code of a node. -/
  | node (e : ExprId)
  /-- The code of a choice with its common beginnings factored out. -/
  | factored (choice : ExprId)
  deriving DecidableEq

namespace Demand

/-- The node that is asked about. -/
def root : Demand → ExprId
  | node e | factored e => e

/-- How a demand is met. -/
def code (recur : ExprId → InstrId → Encoder InstrId) : Demand → InstrId → Encoder InstrId
  | node e, next => recur e next
  | factored choice, next => Encoder.factoredCode recur choice next

/-- The demand is about a node, and a factored form is asked of a choice only. -/
structure Suits (demand : Demand) (g : Grammar) : Prop where
  /-- There is such a node. -/
  root_lt : demand.root < g.size
  /-- Only choices are factored. -/
  choice : ∀ e, demand = factored e → ∃ alts, g.op e = .choice alts

end Demand

namespace Grammar

variable {g h : Grammar} {e x : ExprId}

/-- What is asked for an entry of a jump table. -/
def entryDemand (g : Grammar) (target : ExprId) : Demand :=
  if (g.op target).isChoice then .factored target else .node target

/-- What is asked for to encode a node: the entries of its jump table, or else its operands. -/
def demands (g : Grammar) (e : ExprId) : List Demand :=
  match g.table? e with
  | some table => table.map g.entryDemand
  | none => (g.op e).children.map .node

theorem exists_choice_of_isChoice {op : Operator} (h : op.isChoice) :
    ∃ alts, op = .choice alts := by
  cases op with
  | choice alts => exact ⟨alts, rfl⟩
  | _ => cases h

/-- Only choices have tables, so another node asks for its operands. -/
theorem demands_eq_children (ht : g.SoundTables) (hchoice : ∀ alts, g.op e ≠ .choice alts) :
    g.demands e = (g.op e).children.map .node := by
  unfold demands
  split
  · rename_i table htable
    obtain ⟨alts, hop⟩ := (ht e table htable).exists_choice
    exact absurd hop (hchoice alts)
  · rfl

/-- The choice that is encoded in place of another one, if its alternatives have a common
beginning. -/
def factored? (g : Grammar) (o : Options) (choice : ExprId) : Option ExprId :=
  if o.commonHead then (factorCommonHead choice g).1 else none

/-! ### Settled nodes -/

/-- With a node all that is asked for to encode it is settled. -/
theorem Settled.demand (ht : g.SoundTables) (he : g.Settled e) {demand : Demand}
    (hdemand : demand ∈ g.demands e) : g.Settled demand.root := by
  unfold demands at hdemand
  split at hdemand
  · rename_i table htable
    obtain ⟨target, htarget, rfl⟩ := List.mem_map.mp hdemand
    have hroot : (g.entryDemand target).root = target := by
      unfold entryDemand
      split <;> rfl
    rw [hroot]
    obtain ⟨slot, hentry⟩ := (ht e table htable).exists_entry htarget
    obtain ⟨alts, hop, hshape⟩ := hentry.shape
    have halts (alt : ExprId) (halt : alt ∈ alts) : g.Settled alt :=
      he.inv (by rwa [successors, hop])
    rcases hshape with rfl | halt | hfail | ⟨subset, hsubset, hsub⟩
    · exact he
    · exact halts target halt
    · exact settled_of_children_eq_nil (by rw [hfail]; rfl) (by simp [hfail])
    · refine .intro target fun x hx ↦ halts x (hsub.subset ?_)
      rwa [successors, hsubset] at hx
  · obtain ⟨child, hchild, rfl⟩ := List.mem_map.mp hdemand
    exact he.inv (mem_successors_of_mem_children hchild)

/-- An entry that is a choice stays one. -/
theorem Records.entryDemand_eq (hgh : g.Records h) (he : e < g.size) :
    h.entryDemand e = g.entryDemand e := by
  rw [entryDemand, entryDemand, hgh.op_eq e he]

/-- In a larger grammar the same is asked for to encode an old node. -/
theorem Records.demands_eq (hgh : g.Records h) (ht : g.SoundTables) (he : e < g.size) :
    h.demands e = g.demands e := by
  unfold demands table?
  rw [hgh.tables_eq, hgh.op_eq e he]
  split
  · rename_i table htable
    refine List.map_congr_left fun target htarget ↦ hgh.entryDemand_eq ?_
    obtain ⟨slot, hentry⟩ := (ht e table htable).exists_entry htarget
    exact hentry.lt
  · rfl

end Grammar

/-! ### Sessions -/

namespace Session

variable {s s₁ s₂ : Session}

/-- A session and what encoding made of it, as far as this matters for what is asked for. -/
structure Widens (s s' : Session) : Prop where
  /-- The grammar grows, and what is recorded in it is right. -/
  records : s.grammar.Records s'.grammar
  /-- The options stay. -/
  options_eq : s'.options = s.options
  /-- The depth stays. -/
  depth_eq : s'.depth = s.depth
  /-- No block is finished. -/
  blocks_eq : s'.blocks = s.blocks

namespace Widens

theorem refl (hs : s.grammar.Sound) : s.Widens s :=
  ⟨.refl hs.simplified, rfl, rfl, rfl⟩

theorem trans (h : s.Widens s₁) (h' : s₁.Widens s₂) : s.Widens s₂ :=
  ⟨h.records.trans h'.records, h'.options_eq.trans h.options_eq, h'.depth_eq.trans h.depth_eq,
    h'.blocks_eq.trans h.blocks_eq⟩

/-- What is recorded stays right. -/
theorem sound (h : s.Widens s₁) (hs : s.grammar.Sound) : s₁.grammar.Sound :=
  hs.records h.records

theorem lt_size (h : s.Widens s₁) {e : ExprId} (he : e < s.grammar.size) : e < s₁.grammar.size :=
  Nat.lt_of_lt_of_le he h.records.size_le

theorem op_eq (h : s.Widens s₁) {e : ExprId} (he : e < s.grammar.size) :
    s₁.grammar.op e = s.grammar.op e :=
  h.records.op_eq e he

end Widens

end Session

namespace Encoder

variable {α β : Type} {s : Session}

theorem options_bind (f : Options → Encoder α) (s : Session) :
    (Encoder.options >>= f) s = f s.options s :=
  rfl

theorem grammar_bind (f : Grammar → Encoder α) (s : Session) :
    (Encoder.grammar >>= f) s = f s.grammar s :=
  rfl

/-- How other nodes are encoded. -/
abbrev Recur := ExprId → InstrId → Encoder InstrId

/-- Encoding other nodes keeps sessions sound. -/
def Widening (recur : Recur) : Prop :=
  ∀ s : Session, s.grammar.Sound → ∀ e : ExprId, e < s.grammar.size → ∀ next pc s',
    recur e next s = some (pc, s') → s.Widens s'

/-- What an encoder asks for, and what holds of its answer and of the grammar it leaves. -/
structure Asks (m : Recur → Encoder α) (s : Session) (demands : List Demand)
    (P : α → Grammar → Prop) : Prop where
  /-- It ends if all that it asks for and the code of terminals does. -/
  ends : ∀ recur, Widening recur →
    (∀ s', s.Widens s' → ∀ demand ∈ demands, ∀ next, (demand.code recur next s').isSome) →
    (∀ s', s.Widens s' → ∀ e : ExprId, (s'.grammar.op e).isTerminal →
      ∀ next, (recur e next s').isSome) →
    (m recur s).isSome
  /-- It keeps sessions sound. -/
  widens : ∀ recur, Widening recur → ∀ a s', m recur s = some (a, s') → s.Widens s' ∧ P a s'.grammar
  /-- When it ended, all that it asks for did, except what is settled. -/
  ended : ∀ recur, Widening recur → (m recur s).isSome → ∀ demand ∈ demands, ∃ s', s.Widens s' ∧
    (s'.grammar.Settled demand.root ∨ ∃ next, (demand.code recur next s').isSome)

namespace Asks

variable {m : Recur → Encoder α} {X Y : List Demand} {P : α → Grammar → Prop}
    {Q : β → Grammar → Prop}

/-- An encoder that asks for nothing. -/
theorem of_eq {m : Encoder α} (a : α) (s' : Session) (hs : s.Widens s') (ha : P a s'.grammar)
    (h : m s = some (a, s')) : Asks (fun _ ↦ m) s [] P where
  ends _ _ _ _ := Option.isSome_of_eq_some h
  widens _ _ b s₁ hb := by
    cases h.symm.trans hb
    exact ⟨hs, ha⟩
  ended _ _ _ demand hdemand := nomatch hdemand

theorem pure {a : α} (hs : s.grammar.Sound) (ha : P a s.grammar) :
    Asks (fun _ ↦ Pure.pure a) s [] P :=
  of_eq a s (.refl hs) ha rfl

theorem congr {m' : Recur → Encoder α} (hm : Asks m' s X P)
    (h : ∀ recur, m recur s = m' recur s) : Asks m s X P where
  ends recur hrecur hX hterminal := by
    rw [h]
    exact hm.ends recur hrecur hX hterminal
  widens recur hrecur a s' ha := hm.widens recur hrecur a s' ((h recur).symm.trans ha)
  ended recur hrecur hsome := hm.ended recur hrecur (by rwa [← h])

/-- Settled demands may be left out. -/
theorem cut (hm : Asks m s X P) (hs : s.grammar.Sound) (hsub : ∀ x ∈ X, x ∈ Y)
    (hcut : ∀ y ∈ Y, y ∈ X ∨ s.grammar.Settled y.root) : Asks m s Y P where
  ends recur hrecur hY := hm.ends recur hrecur fun s' hs' x hx ↦ hY s' hs' x (hsub x hx)
  widens := hm.widens
  ended recur hrecur hsome y hy := by
    rcases hcut y hy with hx | hsettled
    · exact hm.ended recur hrecur hsome y hx
    · exact ⟨s, .refl hs, .inl hsettled⟩

/-- The same demands in another list. -/
theorem of_iff (hm : Asks m s X P) (hs : s.grammar.Sound) (h : ∀ x, x ∈ X ↔ x ∈ Y) : Asks m s Y P :=
  hm.cut hs (fun x ↦ (h x).mp) fun y hy ↦ .inl ((h y).mpr hy)

/-- Of two encoders, one after the other, each asks for its demands. -/
theorem bind {f : Recur → α → Encoder β} (hm : Asks m s X P)
    (hf : ∀ a s₁, s.Widens s₁ → P a s₁.grammar → Asks (fun recur ↦ f recur a) s₁ Y Q) :
    Asks (fun recur ↦ m recur >>= f recur) s (X ++ Y) Q where
  ends recur hrecur hXY hterminal := by
    have hsome := hm.ends recur hrecur
      (fun s' hs' x hx ↦ hXY s' hs' x (List.mem_append_left _ hx)) hterminal
    obtain ⟨⟨a, s₁⟩, h⟩ := Option.isSome_iff_exists.mp hsome
    obtain ⟨hs₁, ha⟩ := hm.widens recur hrecur a s₁ h
    have hsome' := (hf a s₁ hs₁ ha).ends recur hrecur
      (fun s' hs' y hy ↦ hXY s' (hs₁.trans hs') y (List.mem_append_right _ hy))
      fun s' hs' ↦ hterminal s' (hs₁.trans hs')
    show ((m recur s).bind fun x ↦ f recur x.1 x.2).isSome
    rwa [h]
  widens recur hrecur b s₂ h := by
    obtain ⟨a, s₁, h₁, h₂⟩ := bind_eq_some h
    obtain ⟨hs₁, ha⟩ := hm.widens recur hrecur a s₁ h₁
    obtain ⟨hs₂, hb⟩ := (hf a s₁ hs₁ ha).widens recur hrecur b s₂ h₂
    exact ⟨hs₁.trans hs₂, hb⟩
  ended recur hrecur hsome demand hdemand := by
    obtain ⟨⟨b, s₂⟩, h⟩ := Option.isSome_iff_exists.mp hsome
    obtain ⟨a, s₁, h₁, h₂⟩ := bind_eq_some h
    obtain ⟨hs₁, ha⟩ := hm.widens recur hrecur a s₁ h₁
    rcases List.mem_append.mp hdemand with hX | hY
    · exact hm.ended recur hrecur (Option.isSome_of_eq_some h₁) demand hX
    · obtain ⟨s', hs', hended⟩ :=
        (hf a s₁ hs₁ ha).ended recur hrecur (Option.isSome_of_eq_some h₂) demand hY
      exact ⟨s', hs₁.trans hs', hended⟩

/-- Reading the options. -/
theorem options {f : Recur → Options → Encoder β}
    (hf : Asks (fun recur ↦ f recur s.options) s X Q) :
    Asks (fun recur ↦ Encoder.options >>= f recur) s X Q :=
  hf.congr fun recur ↦ options_bind (f recur) s

/-- Reading the grammar. -/
theorem grammar {f : Recur → Grammar → Encoder β}
    (hf : Asks (fun recur ↦ f recur s.grammar) s X Q) :
    Asks (fun recur ↦ Encoder.grammar >>= f recur) s X Q :=
  hf.congr fun recur ↦ grammar_bind (f recur) s

theorem ite {m' : Recur → Encoder α} {c : Prop} [Decidable c] (h : c → Asks m s X P)
    (h' : ¬c → Asks m' s X P) : Asks (fun recur ↦ if c then m recur else m' recur) s X P := by
  by_cases hc : c
  · simp only [if_pos hc]
    exact h hc
  · simp only [if_neg hc]
    exact h' hc

end Asks

/-! ### Primitives -/

section

variable {e : ExprId} {next : InstrId} (hs : s.grammar.Sound)

include hs in
theorem asks_emitWith (op : Opcode) (next : Option InstrId) :
    Asks (fun _ ↦ emitWith op next e) s [] fun _ _ ↦ True :=
  .of_eq s.code.instrs.size { s with code := s.code.push op next e }
    ⟨.refl hs.simplified, rfl, rfl, rfl⟩ trivial rfl

include hs in
/-- Making an instruction asks for nothing. -/
theorem asks_emit (op : Opcode) : Asks (fun _ ↦ emit op next e) s [] fun _ _ ↦ True :=
  asks_emitWith hs op (some next)

include hs in
theorem asks_emitEnd (op : Opcode) : Asks (fun _ ↦ emitEnd op e) s [] fun _ _ ↦ True :=
  asks_emitWith hs op none

include hs in
theorem asks_patchNext (i : InstrId) : Asks (fun _ ↦ patchNext i next) s [] fun _ _ ↦ True :=
  .of_eq () { s with code := s.code.patchNext i next }
    ⟨.refl hs.simplified, rfl, rfl, rfl⟩ trivial rfl

include hs in
theorem asks_patchOp (i : InstrId) (op : Opcode) :
    Asks (fun _ ↦ patchOp i op) s [] fun _ _ ↦ True :=
  .of_eq () { s with code := s.code.patchOp i op } ⟨.refl hs.simplified, rfl, rfl, rfl⟩ trivial rfl

include hs in
/-- Neither does issuing a slot, if there is such an expression. -/
theorem asks_issue (label : String) {expr : ExprId} (node : Bool) (hexpr : expr < s.grammar.size) :
    Asks (fun _ ↦ issue label expr node) s [] fun _ _ ↦ True := by
  obtain ⟨slot, memo, hissue⟩ := exists_issue hs.wellFormed label node hexpr
  exact .of_eq slot { s with memo } ⟨.refl hs.simplified, rfl, rfl, rfl⟩ trivial hissue

/-- Extending the grammar. -/
theorem asks_build {b : Builder α} {P : α → Grammar → Prop}
    (hb : Builder.Ensures b s.grammar fun a h ↦ s.grammar.Records h ∧ P a h) :
    Asks (fun _ ↦ build b) s [] P :=
  .of_eq (b s.grammar).1 { s with grammar := (b s.grammar).2 } ⟨hb.1, rfl, rfl, rfl⟩ hb.2 rfl

include hs in
/-- Another node. -/
theorem asks_node (he : e < s.grammar.size) :
    Asks (fun recur ↦ recur e next) s [.node e] fun _ _ ↦ True where
  ends _ _ hdemand _ := hdemand s (.refl hs) _ (List.mem_singleton_self _) next
  widens recur hrecur pc s' h := ⟨hrecur s hs e he next pc s' h, trivial⟩
  ended recur _ hsome demand hdemand := by
    rw [List.mem_singleton.mp hdemand]
    exact ⟨s, .refl hs, .inr ⟨next, hsome⟩⟩

include hs in
/-- A terminal. -/
theorem asks_terminal (he : e < s.grammar.size) (hterminal : (s.grammar.op e).isTerminal) :
    Asks (fun recur ↦ recur e next) s [] fun _ _ ↦ True where
  ends _ _ _ h := h s (.refl hs) e hterminal next
  widens _ hrecur pc s' h := ⟨hrecur s hs e he next pc s' h, trivial⟩
  ended _ _ _ _ hdemand := nomatch hdemand

include hs in
theorem asks_simplify (he : e < s.grammar.size) : Asks (fun _ ↦ build (Grammar.simplify e)) s []
    fun other h ↦ other < h.size ∧ h.Simplifies e other :=
  asks_build (Grammar.ensures_simplify hs.wellFormed hs.simplified he)

include hs in
/-- Simplifying a node asks for nothing, and what it answers stands for the node. -/
theorem asks_simplified (he : e < s.grammar.size) :
    Asks (fun _ ↦ simplified e) s [] fun other h ↦ other < h.size ∧ h.Simplifies e other :=
  .options (.ite (fun _ ↦ asks_simplify hs he) fun _ ↦ .pure hs ⟨he, .self⟩)

include hs in
/-- A node that is simplified to a test is settled. -/
theorem asks_specializedSet? (he : e < s.grammar.size) :
    Asks (fun _ ↦ specializedSet? e) s [] fun set? h ↦ set?.isSome → h.Settled e := by
  refine .options (.ite (fun _ ↦ ?_) fun _ ↦ .pure hs fun h ↦ nomatch h)
  refine (asks_simplify hs he).bind fun other s₁ h₁ hother ↦
    .grammar (.pure (h₁.sound hs) fun hset ↦ ?_)
  obtain ⟨set, hset⟩ := Option.isSome_iff_exists.mp hset
  exact (hother.2.collapses (Operator.test?_of_byteSet? hset)).settled

/-! ### Sequences -/

include hs in
/-- Items are asked for one by one. -/
theorem asks_itemsCode (items : List ExprId) (hitems : ∀ x ∈ items, x < s.grammar.size) :
    Asks (fun recur ↦ itemsCode recur items next) s (items.map .node) fun _ _ ↦ True := by
  induction items with
  | nil => exact .pure hs trivial
  | cons item items ih =>
    have hrest := ih fun x hx ↦ hitems x (List.mem_cons_of_mem _ hx)
    have hall := hrest.bind (f := fun recur ↦ recur item) fun mid s₁ h₁ _ ↦
      asks_node (h₁.sound hs) (h₁.lt_size (hitems item List.mem_cons_self))
    refine (hall.of_iff hs fun x ↦ ?_).congr fun recur ↦ ?_
    · rw [List.mem_append, List.mem_singleton, List.map_cons, List.mem_cons, or_comm]
    · rw [itemsCode, List.foldrM_cons]
      rfl

include hs in
/-- A terminal in place of a node leaves out what is settled with the node. -/
theorem asks_simplifiedTerminal {other : ExprId} (hother : other < s.grammar.size)
    (hsimp : s.grammar.Simplifies e other) (hterminal : (s.grammar.op other).isTerminal)
    {demands : List Demand}
    (hdemands : s.grammar.Settled e → ∀ x ∈ demands, s.grammar.Settled x.root) :
    Asks (fun recur ↦ recur other next) s demands fun _ _ ↦ True := by
  obtain ⟨test, htest⟩ := Operator.test?_of_isTerminal hterminal
  have hsettled := hdemands (hsimp.collapses htest).settled
  exact (asks_terminal hs hother hterminal).cut hs (fun _ hx ↦ nomatch hx) fun x hx ↦
    .inr (hsettled x hx)

include hs in
/-- A sequence asks for its items, unless it is simplified to a terminal and so settled. -/
theorem asks_sequenceCode (he : e < s.grammar.size) {items : List ExprId}
    (hitems : ∀ x ∈ items, x ∈ s.grammar.successors e) :
    Asks (fun recur ↦ sequenceCode recur e items next) s (items.map .node) fun _ _ ↦ True := by
  refine (asks_simplified hs he).bind fun other s₁ h₁ hother ↦ .grammar ?_
  obtain ⟨hlt, hsimp⟩ := hother
  have hs₁ := h₁.sound hs
  have hitems' (x : ExprId) (hx : x ∈ items) : x ∈ s₁.grammar.successors e := by
    rw [h₁.records.toExtends.successors_eq he]
    exact hitems x hx
  refine .ite (fun h ↦ ?_) fun _ ↦ ?_
  · refine asks_simplifiedTerminal hs₁ hlt hsimp h.2 fun hsettled x hx ↦ ?_
    obtain ⟨item, hitem, rfl⟩ := List.mem_map.mp hx
    exact hsettled.inv (hitems' item hitem)
  · have hcode : Asks (fun recur ↦ itemsCode recur items next) s₁ _ _ :=
      asks_itemsCode hs₁ items fun x hx ↦
        Grammar.successors_lt hs₁.wellFormed (h₁.lt_size he) (hitems' x hx)
    rw [← List.append_nil (items.map _)]
    refine hcode.bind fun start s₂ h₂ _ ↦ .grammar ?_
    have hs₂ := h₂.sound hs₁
    dsimp only
    split
    · exact (asks_emit hs₂ .anyByte).bind fun any s₃ h₃ _ ↦ asks_emitEnd (h₃.sound hs₂) _
    · exact .pure hs₂ trivial

/-! ### Choices -/

include hs in
/-- Alternatives are asked for one by one. -/
theorem asks_alternativesCode (alts : List ExprId) (halts : ∀ x ∈ alts, x < s.grammar.size) :
    Asks (fun recur ↦ alternativesCode recur e next alts) s (alts.map .node) fun _ _ ↦ True := by
  induction alts with
  | nil => exact asks_emitEnd hs .fail
  | cons alt alts ih =>
    have halt := halts alt List.mem_cons_self
    cases alts with
    | nil => exact asks_node hs halt
    | cons alt' alts =>
      have hrest := ih fun x hx ↦ halts x (List.mem_cons_of_mem _ hx)
      refine (hrest.bind (Y := [.node alt]) fun rest s₁ h₁ _ ↦ ?_).of_iff hs fun x ↦ ?_
      · have hs₁ := h₁.sound hs
        refine (asks_emit hs₁ .failPop).bind fun pop s₂ h₂ _ ↦ ?_
        have hs₂ := h₂.sound hs₁
        refine (asks_node hs₂ ((h₁.trans h₂).lt_size halt)).bind fun body s₃ h₃ _ ↦ ?_
        exact asks_emit (h₃.sound hs₂) _
      · rw [List.mem_append, List.mem_singleton, List.map_cons (a := alt), List.mem_cons, or_comm]

/-- Factoring a choice keeps the session sound, and its answer is a node. -/
theorem widens_of_factored? {choice factored : ExprId} (hs : s.grammar.Sound)
    (h : s.grammar.factored? s.options choice = some factored) :
    s.Widens { s with grammar := (Grammar.factorCommonHead choice s.grammar).2 } ∧
      factored < (Grammar.factorCommonHead choice s.grammar).2.size := by
  obtain ⟨happends, hmakes⟩ := Grammar.ensures_factorCommonHead hs.wellFormed choice
  unfold Grammar.factored? at h
  split at h
  · exact ⟨⟨hs.simplified.appends happends, rfl, rfl, rfl⟩, (hmakes factored h).2.1⟩
  · cases h

theorem build_bind {α β : Type} (b : Builder α) (f : α → Encoder β) :
    (build b >>= f) s = f (b s.grammar).1 { s with grammar := (b s.grammar).2 } :=
  rfl

/-- A factored choice is encoded in the grammar in which it was made. -/
theorem factoredCode_eq_of_factored? {recur : Recur} {choice factored : ExprId}
    (h : s.grammar.factored? s.options choice = some factored) : factoredCode recur choice next s =
      recur factored next { s with grammar := (Grammar.factorCommonHead choice s.grammar).2 } := by
  unfold Grammar.factored? at h
  split at h
  · rename_i ho
    unfold factoredCode
    -- the steps up to `recur` are computed, and what factoring answers is known
    show (if s.options.commonHead then build (Grammar.factorCommonHead choice) >>= _ else _) s = _
    rw [if_pos ho, build_bind, h]
  · cases h

include hs in
/-- A choice that is not factored asks for its alternatives. -/
theorem asks_unfactoredCode {alts : List ExprId} (hop : s.grammar.op e = .choice alts) :
    Asks (fun recur ↦ do
      match (← Encoder.grammar).op e with
      | .choice alts => alternativesCode recur e next alts
      | _ => recur e next) s (alts.map .node) fun _ _ ↦ True := by
  have he : e < s.grammar.size := Grammar.lt_size_of_op_ne (by simp [hop])
  refine .grammar ?_
  simp only [hop]
  exact asks_alternativesCode hs alts fun x hx ↦
    Nat.lt_trans (hs.wellFormed.child_lt (by rw [hop]; exact hx)) he

include hs in
/-- A choice without common beginnings asks for its alternatives. -/
theorem asks_factoredCode {alts : List ExprId} (hop : s.grammar.op e = .choice alts)
    (hnone : s.grammar.factored? s.options e = none) :
    Asks (fun recur ↦ factoredCode recur e next) s (alts.map .node) fun _ _ ↦ True := by
  have he : e < s.grammar.size := Grammar.lt_size_of_op_ne (by simp [hop])
  unfold Grammar.factored? at hnone
  refine .options (.ite (fun ho ↦ ?_) fun _ ↦ asks_unfactoredCode hs hop)
  rw [if_pos ho] at hnone
  have happends := (Grammar.ensures_factorCommonHead hs.wellFormed e).1
  refine (asks_build (P := fun factored _ ↦ factored = none)
    ⟨hs.simplified.appends happends, hnone⟩).bind fun factored s₁ h₁ hfactored ↦ ?_
  subst hfactored
  exact asks_unfactoredCode (h₁.sound hs) ((h₁.op_eq he).trans hop)

include hs in
/-- A demand, whatever it is. -/
theorem asks_demand {demand : Demand} (hsuits : demand.Suits s.grammar) :
    Asks (fun recur ↦ demand.code recur next) s [demand] fun _ _ ↦ True where
  ends _ _ hdemand _ := hdemand s (.refl hs) _ (List.mem_singleton_self _) next
  widens recur hrecur pc s' h := by
    refine ⟨?_, trivial⟩
    cases demand with
    | node e => exact hrecur s hs e hsuits.root_lt next pc s' h
    | factored e =>
      obtain ⟨alts, hop⟩ := hsuits.choice e rfl
      rcases hfactored : s.grammar.factored? s.options e with - | factored
      · exact ((asks_factoredCode hs hop hfactored).widens recur hrecur pc s' h).1
      · obtain ⟨hwidens, hlt⟩ := widens_of_factored? hs hfactored
        rw [Demand.code, factoredCode_eq_of_factored? hfactored] at h
        exact hwidens.trans (hrecur _ (hwidens.sound hs) factored hlt next pc s' h)
  ended recur _ hsome other hother := by
    rw [List.mem_singleton.mp hother]
    exact ⟨s, .refl hs, .inr ⟨next, hsome⟩⟩

/-! ### Jump tables -/

include hs in
/-- An entry is asked for in factored form if it is a choice; the choice itself is one. -/
theorem asks_entryCode {choice target : ExprId} {alts : List ExprId}
    (hop : s.grammar.op choice = .choice alts) (ht : target < s.grammar.size) :
    Asks (fun recur ↦ entryCode recur choice next target) s [s.grammar.entryDemand target]
      fun _ _ ↦ True := by
  refine .grammar ?_
  unfold Grammar.entryDemand
  by_cases hchoice : (s.grammar.op target).isChoice
  · simp only [hchoice, or_true, if_true]
    have hsuits : (Demand.factored target).Suits s.grammar := by
      refine ⟨ht, fun e he ↦ ?_⟩
      cases he
      exact Grammar.exists_choice_of_isChoice hchoice
    exact asks_demand hs hsuits
  · have hne : target ≠ choice := by
      rintro rfl
      exact hchoice (by rw [hop]; rfl)
    simp only [hchoice, hne]
    exact asks_node hs ht

/-- Entries that have code already are not asked for again. -/
theorem asks_entryCodes (hs : s.grammar.Sound) {choice : ExprId} {alts : List ExprId}
    (hop : s.grammar.op choice = .choice alts) (done : List (ExprId × InstrId))
    (targets : List ExprId)
    (ht : ∀ x ∈ targets, x < s.grammar.size) :
    Asks (fun recur ↦ entryCodes recur choice next done targets) s
      ((targets.filter (· ∉ done.map Prod.fst)).map s.grammar.entryDemand) fun _ _ ↦ True := by
  induction targets generalizing s done with
  | nil => exact .pure hs trivial
  | cons target targets ih =>
    have hrest (x : ExprId) (hx : x ∈ targets) := ht x (List.mem_cons_of_mem _ hx)
    have htarget := ht target List.mem_cons_self
    simp only [entryCodes]
    cases hlookup : done.lookup target with
    | some code =>
      have hmem : target ∈ done.map Prod.fst :=
        List.mem_map_of_mem (mem_of_lookup_eq_some hlookup)
      rw [List.filter_cons_of_neg (by simpa using hmem), ← List.append_nil (List.map _ _)]
      exact (ih hs hop done hrest).bind fun codes s₁ h₁ _ ↦ .pure (h₁.sound hs) trivial
    | none =>
      have hmem : target ∉ done.map Prod.fst := fun hmem ↦ by
        obtain ⟨p, hp, rfl⟩ := List.mem_map.mp hmem
        simpa using List.lookup_eq_none_iff.mp hlookup p hp
      refine ((asks_entryCode hs hop htarget).bind (Y := (targets.filter
        (· ∉ target :: done.map Prod.fst)).map s.grammar.entryDemand)
          fun code s₁ h₁ _ ↦ ?_).of_iff hs fun x ↦ ?_
      · have hs₁ := h₁.sound hs
        have hcodes := ih hs₁ ((h₁.op_eq (Grammar.lt_size_of_op_ne (by simp [hop]))).trans hop)
          ((target, code) :: done) fun x hx ↦ h₁.lt_size (hrest x hx)
        rw [List.map_congr_left fun x hx ↦
          h₁.records.entryDemand_eq (hrest x (List.mem_filter.mp hx).1)] at hcodes
        rw [← List.append_nil (List.map _ _)]
        exact hcodes.bind fun codes s₂ h₂ _ ↦ .pure (h₂.sound hs₁) trivial
      · rw [List.filter_cons_of_pos (by simpa using hmem), List.mem_append, List.mem_singleton,
          List.map_cons, List.mem_cons]
        -- an equal entry further on has the code that was just made
        refine or_congr_right' fun hne ↦ ?_
        simp only [List.mem_map (f := s.grammar.entryDemand), List.mem_filter]
        refine exists_congr fun y ↦ and_congr_left fun hy ↦ and_congr_right fun _ ↦ ?_
        have hyt : y ≠ target := by
          rintro rfl
          exact hne hy.symm
        simp [hyt]

include hs in
/-- A choice asks for the entries of its table or for its alternatives. -/
theorem asks_choiceCode {alts : List ExprId} (hop : s.grammar.op e = .choice alts) :
    Asks (fun recur ↦ choiceCode recur e alts next) s (s.grammar.demands e) fun _ _ ↦ True := by
  have he : e < s.grammar.size := Grammar.lt_size_of_op_ne (by simp [hop])
  refine (asks_simplified hs he).bind (Y := s.grammar.demands e) fun other s₁ h₁ hother ↦
    .grammar ?_
  obtain ⟨hlt, hsimp⟩ := hother
  have hs₁ := h₁.sound hs
  have hop₁ : s₁.grammar.op e = .choice alts := (h₁.op_eq he).trans hop
  rw [← h₁.records.demands_eq hs.tables he]
  have hplain : Asks (fun recur ↦ do
      match (← Encoder.grammar).table? e with
      | some table => emitEnd (.dispatch (← entryCodes recur e next [] table)) e
      | none => alternativesCode recur e next alts) s₁ (s₁.grammar.demands e) fun _ _ ↦ True := by
    refine .grammar ?_
    unfold Grammar.demands
    cases htable : s₁.grammar.table? e with
    | some table =>
      have hentry (x : ExprId) (hx : x ∈ table) : x < s₁.grammar.size := by
        obtain ⟨slot, hentry⟩ := (hs₁.tables e table htable).exists_entry hx
        exact hentry.lt
      have hcodes : Asks (fun recur ↦ entryCodes recur e next [] table) s₁ _ _ :=
        asks_entryCodes hs₁ hop₁ [] table hentry
      rw [List.filter_eq_self.mpr (by simp)] at hcodes
      have hdispatch := hcodes.bind (f := fun _ codes ↦ emitEnd (.dispatch codes) e)
        fun codes s₂ h₂ _ ↦ asks_emitEnd (h₂.sound hs₁) _
      rwa [List.append_nil] at hdispatch
    | none =>
      rw [hop₁]
      exact asks_alternativesCode hs₁ alts fun x hx ↦
        h₁.lt_size (Nat.lt_trans (hs.wellFormed.child_lt (by rw [hop]; exact hx)) he)
  cases hsame : other == e with
  | true => exact hplain
  | false =>
    cases hother : s₁.grammar.op other with
    | byteClass set =>
      exact asks_simplifiedTerminal hs₁ hlt hsimp (by rw [hother]; rfl) fun hsettled x hx ↦
        hsettled.demand hs₁.tables hx
    | _ => exact hplain

/-! ### Operators with one operand -/

include hs in
/-- A repetition asks for its operand, unless that is simplified to a set of bytes. -/
theorem asks_starCode {inner : ExprId} (hinner : inner < s.grammar.size) (nullable : Bool) :
    Asks (fun recur ↦ starCode recur e inner nullable next) s [.node inner] fun _ _ ↦ True := by
  refine (asks_specializedSet? hs hinner).bind fun set? s₁ h₁ hset ↦ ?_
  have hs₁ := h₁.sound hs
  cases set? with
  | some set =>
    refine (asks_emit hs₁ (.skipClass set)).cut hs₁ (fun _ hx ↦ nomatch hx) fun x hx ↦ .inr ?_
    rw [List.mem_singleton.mp hx]
    exact hset rfl
  | none =>
    refine (asks_emitEnd hs₁ (.failSkip nullable)).bind fun skip s₂ h₂ _ ↦ ?_
    have hs₂ := h₂.sound hs₁
    refine (asks_node hs₂ ((h₁.trans h₂).lt_size hinner)).bind fun start s₃ h₃ _ ↦ ?_
    have hs₃ := h₃.sound hs₂
    exact (asks_patchNext hs₃ skip).bind fun _ s₄ h₄ _ ↦ asks_emit (h₄.sound hs₃) (.failPush next)

include hs in
/-- So does an option. -/
theorem asks_optionalCode {inner : ExprId} (hinner : inner < s.grammar.size) :
    Asks (fun recur ↦ optionalCode recur e inner next) s [.node inner] fun _ _ ↦ True := by
  have hplain (s₁ : Session) (h₁ : s.Widens s₁) : Asks (fun recur ↦ do
      let pop ← emit .failPop next e
      let body ← recur inner pop
      emit (.failPush next) body e) s₁ [.node inner] fun _ _ ↦ True := by
    have hs₁ := h₁.sound hs
    refine (asks_emit hs₁ .failPop).bind fun pop s₂ h₂ _ ↦ ?_
    have hs₂ := h₂.sound hs₁
    refine (asks_node hs₂ ((h₁.trans h₂).lt_size hinner)).bind fun body s₃ h₃ _ ↦ ?_
    exact asks_emit (h₃.sound hs₂) (.failPush next)
  refine .options (.ite (fun _ ↦ ?_) fun _ ↦ hplain s (.refl hs))
  refine (asks_simplify hs hinner).bind fun other s₁ h₁ hother ↦ .grammar ?_
  have hs₁ := h₁.sound hs
  have hfast {set : ByteSet} (hset : (s₁.grammar.op other).byteSet? = some set) (op : Opcode) :
      Asks (fun _ ↦ emit op next e) s₁ [.node inner] fun _ _ ↦ True := by
    refine (asks_emit hs₁ op).cut hs₁ (fun _ hx ↦ nomatch hx) fun x hx ↦ .inr ?_
    rw [List.mem_singleton.mp hx]
    exact (hother.2.collapses (Operator.test?_of_byteSet? hset)).settled
  cases hop : s₁.grammar.op other with
  | byte b => exact hfast (by rw [hop]; rfl) (.byte b true)
  | byteClass set => exact hfast (by rw [hop]; rfl) (.byteClass set true)
  | _ => exact hplain s₁ h₁

include hs in
/-- So does a negation, unless its operand is simplified to a set or is a literal. -/
theorem asks_notCode {inner : ExprId} (hinner : inner < s.grammar.size) :
    Asks (fun recur ↦ notCode recur e inner next) s [.node inner] fun _ _ ↦ True := by
  have hplain (s₁ : Session) (h₁ : s.Widens s₁) : Asks (fun recur ↦ do
      let fail ← emitEnd .fail e
      let pop ← emit .failPop fail e
      let body ← recur inner pop
      emit (.failPush next) body e) s₁ [.node inner] fun _ _ ↦ True := by
    have hs₁ := h₁.sound hs
    refine (asks_emitEnd hs₁ .fail).bind fun fail s₂ h₂ _ ↦ ?_
    have hs₂ := h₂.sound hs₁
    refine (asks_emit hs₂ .failPop).bind fun pop s₃ h₃ _ ↦ ?_
    have hs₃ := h₃.sound hs₂
    refine (asks_node hs₃ ((h₁.trans (h₂.trans h₃)).lt_size hinner)).bind fun body s₄ h₄ _ ↦ ?_
    exact asks_emit (h₄.sound hs₃) (.failPush next)
  refine .options (.ite (fun _ ↦ ?_) fun _ ↦ hplain s (.refl hs))
  refine (asks_simplify hs hinner).bind fun other s₁ h₁ hother ↦ .grammar ?_
  have hs₁ := h₁.sound hs
  have hfast (hsettled : s₁.grammar.Settled inner) (op : Opcode) :
      Asks (fun _ ↦ emit op next e) s₁ [.node inner] fun _ _ ↦ True := by
    refine (asks_emit hs₁ op).cut hs₁ (fun _ hx ↦ nomatch hx) fun x hx ↦ .inr ?_
    rw [List.mem_singleton.mp hx]
    exact hsettled
  cases hset : (s₁.grammar.op other).byteSet? with
  | some set =>
    exact hfast (hother.2.collapses (Operator.test?_of_byteSet? hset)).settled (.notClass set)
  | none =>
    cases hbytes : s₁.grammar.literalBytes? other with
    | some bytes =>
      -- a literal is never the simplified form of another node
      have hsame := hother.2.eq_of_literalBytes? hbytes
      subst hsame
      exact hfast (Grammar.settled_of_literalBytes? hbytes) (.notLiteral bytes)
    | none => exact hplain s₁ h₁

include hs in
theorem asks_blockCode {inner : ExprId} (hinner : inner < s.grammar.size) :
    Asks (fun recur ↦ blockCode recur e inner next) s [.node inner] fun _ _ ↦ True := by
  refine (asks_emitEnd hs .fail).bind fun fail s₁ h₁ _ ↦ ?_
  have hs₁ := h₁.sound hs
  refine (asks_emit hs₁ .tablePop).bind fun failed s₂ h₂ _ ↦ ?_
  have hs₂ := h₂.sound hs₁
  refine (asks_emit hs₂ .tablePop).bind fun popTable s₃ h₃ _ ↦ ?_
  have hs₃ := h₃.sound hs₂
  refine (asks_emit hs₃ .failPop).bind fun pop s₄ h₄ _ ↦ ?_
  have hs₄ := h₄.sound hs₃
  have h₀₄ := h₁.trans (h₂.trans (h₃.trans h₄))
  refine (asks_node hs₄ (h₀₄.lt_size hinner)).bind fun body s₅ h₅ _ ↦ ?_
  have hs₅ := h₅.sound hs₄
  exact (asks_emit hs₅ (.failPush failed)).bind fun push s₆ h₆ _ ↦
    asks_emit (h₆.sound hs₅) .tablePush

include hs in
/-- A look-ahead, a definition or a query asks for its operand. -/
theorem asks_spannedCode {inner : ExprId} (hinner : inner < s.grammar.size) (op : Opcode) :
    Asks (fun recur ↦ spannedCode recur e inner op next) s [.node inner] fun _ _ ↦ True := by
  refine (asks_emit hs op).bind fun done s₁ h₁ _ ↦ ?_
  have hs₁ := h₁.sound hs
  refine (asks_node hs₁ (h₁.lt_size hinner)).bind fun body s₂ h₂ _ ↦ ?_
  exact asks_emit (h₂.sound hs₁) .posPush

/-! ### Memoized results -/

section

variable {demands : List Demand} {slot : MemoSlot} {child : Option Int}
    {plain : Recur → Encoder InstrId}
  {inside : Recur → InstrId → Encoder InstrId}
  (hplain : Asks plain s demands fun _ _ ↦ True)
  (hinside : ∀ s₁, s.Widens s₁ → ∀ mid,
    Asks (fun recur ↦ inside recur mid) s₁ demands fun _ _ ↦ True)

include hs hinside in
/-- After the switch the memoized path asks for what it computes. -/
theorem asks_memoPath (monitor : Option InstrId) (s₁ : Session) (h₁ : s.Widens s₁) :
    Asks (fun recur ↦ do
      let use : MemoUse := { memo := slot.id, key := slot.key, monitor }
      let memoize ← emit (.memoize use child) next e
      let inside ← inside recur memoize
      let memoFail ← emitEnd (.memoizeFail use) e
      let lookup ← emit (.lookup use child next memoFail) inside e
      activate monitor lookup) s₁ demands fun _ _ ↦ True := by
  have hs₁ := h₁.sound hs
  refine (asks_emit hs₁ _).bind (Y := demands) fun memoize s₂ h₂ _ ↦ ?_
  have hs₂ := h₂.sound hs₁
  rw [← List.append_nil demands]
  refine (hinside s₂ (h₁.trans h₂) memoize).bind fun mid s₃ h₃ _ ↦ ?_
  have hs₃ := h₃.sound hs₂
  refine (asks_emitEnd hs₃ _).bind fun memoFail s₄ h₄ _ ↦ ?_
  have hs₄ := h₄.sound hs₃
  refine (asks_emit hs₄ _).bind fun lookup s₅ h₅ _ ↦ ?_
  have hs₅ := h₅.sound hs₄
  cases monitor with
  | some switch =>
    exact (asks_patchOp hs₅ switch (.monitoredSwitch lookup)).bind fun _ s₆ h₆ _ ↦
      .pure (h₆.sound hs₅) trivial
  | none => exact .pure hs₅ trivial

include hs hplain hinside in
/-- A plain path that asks for the same as the memoized one may come first. -/
theorem asks_memoizedCode :
    Asks (fun recur ↦ memoizedCode e slot child (plain recur) (inside recur) next) s demands
      fun _ _ ↦ True := by
  -- with tracing the plain path is encoded before, and asks for the same once more
  by_cases ho : s.options.tracing
  · have hmonitor : Asks (fun recur ↦ monitorCode e (plain recur)) s demands fun _ _ ↦ True := by
      refine .options (.ite (fun _ ↦ ?_) fun h ↦ absurd ho h)
      rw [← List.append_nil demands]
      refine hplain.bind fun start s₁ h₁ _ ↦ ?_
      exact ((asks_emit (h₁.sound hs) (.monitoredSwitch start)).bind
        (f := fun _ i ↦ Pure.pure (some i))
        fun i s₂ h₂ _ ↦ .pure (h₂.sound (h₁.sound hs)) trivial).congr fun _ ↦ rfl
    exact (hmonitor.bind fun monitor s₁ h₁ _ ↦ asks_memoPath hs hinside monitor s₁ h₁).of_iff hs
      fun x ↦ by
      rw [List.mem_append, or_self]
  · have hmonitor : Asks (fun recur ↦ monitorCode e (plain recur)) s [] fun _ _ ↦ True :=
      .options (.ite (fun h ↦ absurd h ho) fun _ ↦ .pure hs trivial)
    exact hmonitor.bind fun monitor s₁ h₁ _ ↦ asks_memoPath hs hinside monitor s₁ h₁

end

/-! ### References and links -/

include hs in
/-- A reference asks for nothing: its rule has code of its own. -/
theorem asks_referenceCode (he : e < s.grammar.size) (rule : RuleId) :
    Asks (fun recur ↦ referenceCode recur e rule next) s [] fun _ _ ↦ True := by
  refine (asks_simplified hs he).bind fun other s₁ h₁ hother ↦
    .grammar (.ite (fun h ↦ ?_) fun _ ↦ ?_)
  · exact asks_terminal (h₁.sound hs) hother.1 h.2
  · have hs₁ := h₁.sound hs
    have hcall (s₂ : Session) (h₂ : s₁.Widens s₂) (mid : InstrId) :
        Asks (fun _ ↦ emit (.call rule none) mid e) s₂ [] fun _ _ ↦ True :=
      asks_emit (h₂.sound hs₁) _
    refine .options ?_
    cases hbody : s₁.grammar.body? rule with
    | some body =>
      refine .ite (fun _ ↦ ?_) fun _ ↦ hcall s₁ (.refl hs₁) next
      have hlt := Grammar.resolve_lt hs₁.wellFormed (hs₁.wellFormed.body_lt rule body hbody)
      refine (asks_issue hs₁ _ false hlt).bind fun slot s₂ h₂ _ ↦ ?_
      exact asks_memoizedCode (h₂.sound hs₁) (hcall s₂ h₂ next) fun s₃ h₃ ↦ hcall s₃ (h₂.trans h₃)
    | none => exact hcall s₁ (.refl hs₁) next

include hs in
theorem asks_treeNodeCode {inner : ExprId} (hinner : inner < s.grammar.size) (index : Int) :
    Asks (fun recur ↦ treeNodeCode recur e inner index next) s [.node inner] fun _ _ ↦ True := by
  refine (asks_emit hs (.nodeStore index)).bind fun store s₁ h₁ _ ↦ ?_
  have hs₁ := h₁.sound hs
  refine (asks_node hs₁ (h₁.lt_size hinner)).bind fun body s₂ h₂ _ ↦ ?_
  exact asks_emit (h₂.sound hs₁) .nodePush

include hs in
/-- A link asks for its operand, whether its results are kept or not. -/
theorem asks_linkCode {inner : ExprId} (hinner : inner < s.grammar.size) (index : Int) :
    Asks (fun recur ↦ linkCode recur e inner index next) s [.node inner] fun _ _ ↦ True := by
  refine .options (.ite (fun _ ↦ asks_node hs hinner) fun _ ↦ .ite (fun _ ↦ ?_) fun _ ↦ .grammar ?_)
  · exact asks_treeNodeCode hs hinner index
  · have hlt := Grammar.resolve_lt hs.wellFormed hinner
    refine (asks_issue hs _ true hlt).bind fun slot s₁ h₁ _ ↦ ?_
    have hs₁ := h₁.sound hs
    exact asks_memoizedCode hs₁ (asks_treeNodeCode hs₁ (h₁.lt_size hinner) index) fun s₂ h₂ mid ↦
      asks_node (h₂.sound hs₁) ((h₁.trans h₂).lt_size hinner)

/-! ### Nodes -/

include hs in
/-- To encode a node its demands are asked for. -/
theorem asks_nodeCode (he : e < s.grammar.size) :
    Asks (fun recur ↦ nodeCode recur e next) s (s.grammar.demands e) fun _ _ ↦ True := by
  have hchild (child : ExprId) (hc : child ∈ (s.grammar.op e).children) : child < s.grammar.size :=
    Nat.lt_trans (hs.wellFormed.child_lt hc) he
  have hitems (next : InstrId) (s₁ : Session) (h₁ : s.Widens s₁) {items : List ExprId}
      (h : (s.grammar.op e).children = items) :
      Asks (fun recur ↦ sequenceCode recur e items next) s₁ (items.map .node) fun _ _ ↦ True := by
    refine asks_sequenceCode (h₁.sound hs) (h₁.lt_size he) fun x hx ↦ ?_
    exact Grammar.mem_successors_of_mem_children (by rwa [h₁.op_eq he, h])
  refine .options (.grammar ?_)
  by_cases hchoice : ∃ alts, s.grammar.op e = .choice alts
  · obtain ⟨alts, hop⟩ := hchoice
    simp only [hop]
    exact asks_choiceCode hs hop
  · rw [Grammar.demands_eq_children hs.tables fun alts hop ↦ hchoice ⟨alts, hop⟩]
    cases hop : s.grammar.op e with rw [hop] at hchild
    | empty => exact .pure hs trivial
    | fail => exact asks_emitEnd hs .fail
    | anyByte => exact asks_emit hs .anyByte
    | byte b => exact asks_emit hs (.byte b false)
    | byteClass set => exact asks_emit hs (.byteClass set false)
    | sequence items => exact hitems next s (.refl hs) (by rw [hop]; rfl)
    | choice alts => exact absurd ⟨alts, hop⟩ hchoice
    | star inner nullable =>
      exact asks_starCode hs (hchild inner (List.mem_singleton_self _)) nullable
    | plus inner nullable =>
      have hinner := hchild inner (List.mem_singleton_self _)
      have hrest : Asks (fun recur ↦ starCode recur e inner nullable next) s [.node inner]
          fun _ _ ↦ True :=
        asks_starCode hs hinner nullable
      have hboth := hrest.bind (f := fun recur ↦ recur inner) fun rest s₁ h₁ _ ↦
          asks_node (h₁.sound hs) (h₁.lt_size hinner)
      exact hboth.of_iff hs fun x ↦ by rw [List.mem_append, or_self]; rfl
    | optional inner => exact asks_optionalCode hs (hchild inner (List.mem_singleton_self _))
    | and inner => exact asks_spannedCode hs (hchild inner (List.mem_singleton_self _)) .posBack
    | not inner => exact asks_notCode hs (hchild inner (List.mem_singleton_self _))
    | reference rule => exact asks_referenceCode hs he rule
    | construct body left =>
      have hbody : (s.grammar.op e).children = body := by
        rw [hop]
        rfl
      refine .ite (fun _ ↦ ?_) fun _ ↦ hitems next s (.refl hs) hbody
      -- only trees need the marks around the items
      refine (asks_emit hs (.mark .capture)).bind (Y := body.map .node) fun capture s₁ h₁ _ ↦ ?_
      rw [← List.append_nil (List.map _ _)]
      exact (hitems capture s₁ h₁ hbody).bind fun start s₂ h₂ _ ↦
        asks_emit (h₂.sound (h₁.sound hs)) (.mark (.new left))
    | mark m => exact .ite (fun _ ↦ asks_emit hs (.mark m)) fun _ ↦ .pure hs trivial
    | link inner index => exact asks_linkCode hs (hchild inner (List.mem_singleton_self _)) index
    | block inner => exact asks_blockCode hs (hchild inner (List.mem_singleton_self _))
    | defSymbol table inner =>
      exact asks_spannedCode hs (hchild inner (List.mem_singleton_self _)) (.defSymbol table)
    | isSymbol table inner lastOnly =>
      exact asks_spannedCode hs (hchild inner (List.mem_singleton_self _))
        (.isSymbol table lastOnly)
    | defIndent => exact asks_emit hs .defIndent
    | isIndent => exact asks_emit hs .isIndent

end

end Encoder

end ParsingMachine
