import ParsingMachine.Proofs.Compile.Brackets
import ParsingMachine.Proofs.Machine.Confinement

/-!
# For which nodes instructions are made

Every instruction records the node for which it was made. From the nodes of a kind that has no
references, encoding comes to nodes of that kind only, and makes instructions for these and for what
they are simplified to (`Grammar.Confines`). None of the instructions is a call.

A kind is a property of nodes that may depend on the grammar, as the grammar grows while its nodes
are encoded. What it is asked for is what encoding does with a node: it goes on to operands and to
the entries of jump tables, it simplifies the node and goes on if that gives a terminal, and it goes
on to a factored choice. The two passes make new nodes, so the nodes that are to be encoded later
have to stay of the kind across them; this is the part of the invariant that concerns the grammar,
and the part that concerns the code is that instructions from some place on have the property
(`Session.Attributes`).

The place is arbitrary. A caller chooses the length of the code before it begins, and learns about
the instructions that are made after that and about no others.

There is one lemma for each function of the encoder. In each the sessions that come later are those
of the functions called before, so the lemmas have the same shape as the functions, and the
recursion is taken up once, at the end.

## Main statements

* `Session.Attributes`: what encoding nodes of a kind keeps.
* `Encoder.attributes_nodeCode`: one node, if other nodes are encoded that way.
* `Encoder.attributes_encode`: encoding a node of the kind makes instructions for nodes with the
  property.
-/

namespace ParsingMachine

/-- A kind of nodes that encoding does not leave, without references, and the nodes for which it
makes instructions. -/
structure Grammar.Confines (P : Grammar → ExprId → Prop) (Q : ExprId → Prop) : Prop where
  /-- Instructions may be made for nodes of the kind. -/
  own : ∀ {g e}, P g e → Q e
  /-- They are no references. -/
  noReference : ∀ {g e rule}, P g e → g.op e ≠ .reference rule
  /-- Operands are of the kind. -/
  child : ∀ {g e c}, P g e → c ∈ (g.op e).children → P g c
  /-- Entries of the jump table are of the kind. -/
  entry : ∀ {g e table target}, P g e → g.table? e = some table → target ∈ table → P g target
  /-- Simplifying a node of the kind leaves nodes of the kind as they are. -/
  simplify : ∀ {g e x}, P g e → P g x → P (Grammar.simplify e g).2 x
  /-- Instructions may be made for what a node of the kind is simplified to. -/
  simplified : ∀ {g e}, P g e → (g.op e).isTerminal = false → Q (Grammar.simplify e g).1
  /-- If that is a terminal, it is of the kind. -/
  terminal : ∀ {g e}, P g e → (g.op e).isTerminal = false →
    ((Grammar.simplify e g).2.op (Grammar.simplify e g).1).isTerminal →
      P (Grammar.simplify e g).2 (Grammar.simplify e g).1
  /-- Factoring a node of the kind leaves nodes of the kind as they are. -/
  factor : ∀ {g e x}, P g e → P g x → P (factorCommonHead e g).2 x
  /-- What factoring answers is of the kind. -/
  factored : ∀ {g e x}, P g e → (factorCommonHead e g).1 = some x → P (factorCommonHead e g).2 x

/-! ### Sessions -/

namespace Session

variable {P : Grammar → ExprId → Prop} {Q : ExprId → Prop} {s s₁ s₂ : Session} {e : ExprId}

/-- The instructions from a place on were made for nodes with a property, and none is a call. -/
def MadeFor (Q : ExprId → Prop) (bot : Nat) (s : Session) : Prop :=
  ∀ (i : InstrId) instr, bot ≤ i → s.code.instrs[i]? = some instr →
    Q instr.origin ∧ instr.op.isCall = false

/-- What encoding nodes of a kind keeps. -/
structure Attributes (P : Grammar → ExprId → Prop) (Q : ExprId → Prop) (s s' : Session) : Prop where
  /-- Nodes stay of their kind. -/
  kind : ∀ x, P s.grammar x → P s'.grammar x
  /-- New instructions are made for nodes with the property. -/
  madeFor : ∀ bot, s.MadeFor Q bot → s'.MadeFor Q bot

namespace Attributes

theorem refl (s : Session) : s.Attributes P Q s :=
  ⟨fun _ h ↦ h, fun _ h ↦ h⟩

theorem trans (h : s.Attributes P Q s₁) (h' : s₁.Attributes P Q s₂) : s.Attributes P Q s₂ :=
  ⟨fun x hx ↦ h'.kind x (h.kind x hx), fun bot hs ↦ h'.madeFor bot (h.madeFor bot hs)⟩

/-- An instruction is appended. -/
theorem push (s : Session) {op : Opcode} (next : Option InstrId) (he : Q e)
    (hop : op.isCall = false) : s.Attributes P Q { s with code := s.code.push op next e } where
  kind _ h := h
  madeFor bot hs i instr hi hinstr := by
    rw [Code.push, Array.getElem?_push] at hinstr
    split at hinstr
    · cases hinstr
      exact ⟨he, hop⟩
    · exact hs i instr hi hinstr

/-- An instruction is changed, but not the node for which it was made. -/
theorem modify (s : Session) {f : Instruction → Instruction} (i : InstrId)
    (hf : ∀ instr, (f instr).origin = instr.origin ∧
      (instr.op.isCall = false → (f instr).op.isCall = false)) :
    s.Attributes P Q { s with code := { s.code with instrs := s.code.instrs.modify i f } } where
  kind _ h := h
  madeFor bot hs j instr hj hinstr := by
    dsimp only at hinstr
    rw [Array.getElem?_modify] at hinstr
    split at hinstr
    · obtain ⟨old, hold, rfl⟩ := Option.map_eq_some_iff.mp hinstr
      obtain ⟨horigin, hop⟩ := hs j old hj hold
      rw [(hf old).1]
      exact ⟨horigin, (hf old).2 hop⟩
    · exact hs j instr hj hinstr

end Attributes

end Session

namespace Encoder

variable {P : Grammar → ExprId → Prop} {Q : ExprId → Prop} {α β : Type} {s : Session} {e : ExprId}
  {next : InstrId} {op : Opcode}

/-- The encoder keeps nodes of their kind and makes instructions for nodes with a property. -/
def Attributes (P : Grammar → ExprId → Prop) (Q : ExprId → Prop) (m : Encoder α) (s : Session) :
    Prop :=
  ∀ a s', m s = some (a, s') → s.Attributes P Q s'

namespace Attributes

theorem pure (a : α) : Attributes P Q (Pure.pure a) s := by
  intro b s' h
  cases h
  exact .refl s

/-- What comes next may rely on the answer. -/
theorem bind {m : Encoder α} {f : α → Encoder β} (hm : Attributes P Q m s)
    (hf : ∀ a s₁, m s = some (a, s₁) → s.Attributes P Q s₁ → Attributes P Q (f a) s₁) :
    Attributes P Q (m >>= f) s := by
  intro b s₂ h
  obtain ⟨a, s₁, h₁, h₂⟩ := bind_eq_some h
  exact (hm a s₁ h₁).trans (hf a s₁ h₁ (hm a s₁ h₁) b s₂ h₂)

/-- Reading the options. -/
theorem options {f : Options → Encoder β} (hf : Attributes P Q (f s.options) s) :
    Attributes P Q (Encoder.options >>= f) s :=
  hf

/-- Reading the grammar. -/
theorem grammar {f : Grammar → Encoder β} (hf : Attributes P Q (f s.grammar) s) :
    Attributes P Q (Encoder.grammar >>= f) s :=
  hf

end Attributes

/-- An instruction is made for a node with the property, and it is no call. -/
theorem attributes_emitWith (next : Option InstrId) (he : Q e) (hop : op.isCall = false) :
    Attributes P Q (emitWith op next e) s := by
  intro i s' h
  cases h
  exact .push s next he hop

/-- The same with a continuation. -/
theorem attributes_emit (he : Q e) (hop : op.isCall = false) :
    Attributes P Q (emit op next e) s :=
  attributes_emitWith _ he hop

theorem attributes_emitEnd (he : Q e) (hop : op.isCall = false) :
    Attributes P Q (emitEnd op e) s :=
  attributes_emitWith _ he hop

/-- Another continuation is put in. -/
theorem attributes_patchNext (i : InstrId) : Attributes P Q (patchNext i next) s := by
  intro u s' h
  cases h
  exact .modify s (f := ({ · with next := some next })) i fun _ ↦ ⟨rfl, id⟩

/-- An operation may be replaced by one that is no call either. -/
theorem attributes_patchOp (i : InstrId) (hop : op.isCall = false) :
    Attributes P Q (patchOp i op) s := by
  intro u s' h
  cases h
  exact .modify s (f := ({ · with op })) i fun _ ↦ ⟨rfl, fun _ ↦ hop⟩

/-- Issuing a slot makes no instructions. -/
theorem attributes_issue (label : String) (expr : ExprId) (node : Bool) :
    Attributes P Q (issue label expr node) s := by
  intro slot s' h
  obtain ⟨_, -, heq⟩ := Option.map_eq_some_iff.mp h
  cases heq
  exact ⟨fun _ h ↦ h, fun _ h ↦ h⟩

/-- Extending the grammar. -/
theorem attributes_build {b : Builder α} (hkind : ∀ x, P s.grammar x → P (b s.grammar).2 x) :
    Attributes P Q (build b) s := by
  intro a s' h
  cases h
  exact ⟨hkind, fun _ h ↦ h⟩

/-! ### Simplified operands -/

/-- What is encoded in place of a node is the node itself, or what it is simplified to. -/
theorem eq_or_of_simplified {other : ExprId} {s₁ : Session}
    (h : simplified e s = some (other, s₁)) : (other = e ∧ s₁ = s) ∨
      other = (Grammar.simplify e s.grammar).1 ∧
        s₁ = { s with grammar := (Grammar.simplify e s.grammar).2 } := by
  have hoptions : simplified e s = (if s.options.specialize then build (Grammar.simplify e)
    else Pure.pure e : Encoder ExprId) s := rfl
  rw [hoptions] at h
  split at h
  · cases h
    exact .inr ⟨rfl, rfl⟩
  · cases h
    exact .inl ⟨rfl, rfl⟩

section

variable (hP : Grammar.Confines P Q)
include hP

/-- Simplifying a node of the kind. -/
theorem attributes_simplify (he : P s.grammar e) :
    Attributes P Q (build (Grammar.simplify e)) s :=
  attributes_build fun _ ↦ hP.simplify he

/-- The same if specialization is on. -/
theorem attributes_simplified (he : P s.grammar e) : Attributes P Q (simplified e) s := by
  refine .options ?_
  split
  · exact attributes_simplify hP he
  · exact .pure e

/-- What is encoded in place of a node, and whether it is of the kind. -/
theorem kind_of_confines {other : ExprId} {s₁ : Session} (he : P s.grammar e)
    (hop : (s.grammar.op e).isTerminal = false) (h : simplified e s = some (other, s₁)) :
    Q other ∧ ((s₁.grammar.op other).isTerminal → P s₁.grammar other) := by
  rcases eq_or_of_simplified h with ⟨rfl, rfl⟩ | ⟨rfl, rfl⟩
  · exact ⟨hP.own he, fun _ ↦ he⟩
  · exact ⟨hP.simplified he hop, hP.terminal he hop⟩

theorem attributes_specializedSet? (he : P s.grammar e) :
    Attributes P Q (specializedSet? e) s := by
  refine .options ?_
  split
  · exact (attributes_simplify hP he).bind fun other s₁ _ _ ↦ .grammar (.pure _)
  · exact .pure none

/-! ### Nodes -/

variable {recur : ExprId → InstrId → Encoder InstrId}
  (hrecur : ∀ e next s, P s.grammar e → Attributes P Q (recur e next) s)
include hrecur

omit hP in
/-- Items of the kind, each after those that follow it. -/
theorem attributes_itemsCode {items : List ExprId} (hitems : ∀ x ∈ items, P s.grammar x) :
    Attributes P Q (itemsCode recur items next) s := by
  rw [itemsCode]
  induction items generalizing s with
  | nil => exact .pure next
  | cons item items ih =>
    rw [List.foldrM_cons]
    refine (ih fun x hx ↦ hitems x (List.mem_cons_of_mem _ hx)).bind fun start s₁ _ h₁ ↦ ?_
    exact hrecur item start s₁ (h₁.kind _ (hitems item List.mem_cons_self))

/-- A sequence, its terminal, or a dispatch in front of it. -/
theorem attributes_sequenceCode (he : P s.grammar e) (hop : (s.grammar.op e).isTerminal = false)
    {items : List ExprId} (hitems : ∀ x ∈ items, P s.grammar x) :
    Attributes P Q (sequenceCode recur e items next) s := by
  refine (attributes_simplified hP he).bind fun other s₁ hother h₁ ↦ .grammar ?_
  obtain ⟨hfound, hterminal⟩ := kind_of_confines hP he hop hother
  split
  · rename_i hcond
    exact hrecur other next s₁ (hterminal hcond.2)
  · refine (attributes_itemsCode hrecur fun x hx ↦ h₁.kind x (hitems x hx)).bind
      fun start s₂ _ _ ↦ .grammar ?_
    generalize (if other = e then none else s₂.grammar.dispatchForm? other) = fast?
    cases fast? with
    | some fast =>
      exact .bind (attributes_emit hfound rfl) fun any s₃ _ _ ↦ attributes_emitEnd (hP.own he) rfl
    | none => exact .pure start

/-- Alternatives of the kind. -/
theorem attributes_alternativesCode (he : P s.grammar e) {alts : List ExprId}
    (halts : ∀ x ∈ alts, P s.grammar x) :
    Attributes P Q (alternativesCode recur e next alts) s := by
  induction alts generalizing s with
  | nil => exact attributes_emitEnd (hP.own he) rfl
  | cons alt alts ih =>
    have halt := halts alt List.mem_cons_self
    cases alts with
    | nil => exact hrecur alt next s halt
    | cons other alts =>
      refine (ih he fun x hx ↦ halts x (List.mem_cons_of_mem _ hx)).bind fun rest s₁ _ h₁ ↦ ?_
      refine .bind (attributes_emit (hP.own halt) rfl) fun pop s₂ _ h₂ ↦ ?_
      exact (hrecur alt pop s₂ (h₂.kind _ (h₁.kind _ halt))).bind fun body s₃ _ _ ↦
        attributes_emit (hP.own halt) rfl

theorem attributes_unfactoredCode (he : P s.grammar e) : Attributes P Q (do
      match (← Encoder.grammar).op e with
      | .choice alts => alternativesCode recur e next alts
      | _ => recur e next) s := by
  refine .grammar ?_
  split
  · rename_i alts hop
    exact attributes_alternativesCode hP hrecur he fun x hx ↦ hP.child he (by rwa [hop])
  · exact hrecur e next s he

/-- A factored choice is of the kind if the choice is. -/
theorem attributes_factoredCode (he : P s.grammar e) :
    Attributes P Q (factoredCode recur e next) s := by
  refine .options ?_
  split
  · refine (attributes_build fun _ ↦ hP.factor he).bind fun factored s₁ h h₁ ↦ ?_
    obtain ⟨hfactored, rfl⟩ : (Grammar.factorCommonHead e s.grammar).1 = factored ∧
        { s with grammar := (Grammar.factorCommonHead e s.grammar).2 } = s₁ := by
      cases h
      exact ⟨rfl, rfl⟩
    cases factored with
    | some other => exact hrecur other next _ (hP.factored he hfactored)
    | none => exact attributes_unfactoredCode hP hrecur (h₁.kind e he)
  · exact attributes_unfactoredCode hP hrecur he

theorem attributes_entryCode (choice : Nat) {target : Nat} (htarget : P s.grammar target) :
    Attributes P Q (entryCode recur choice next target) s := by
  refine .grammar ?_
  split
  · exact attributes_factoredCode hP hrecur htarget
  · exact hrecur target next s htarget

/-- Entries of the kind, those with code left out. -/
theorem attributes_entryCodes (choice : Nat) (done : List (ExprId × InstrId)) {table : JumpTable}
    (htable : ∀ target ∈ table, P s.grammar target) :
    Attributes P Q (entryCodes recur choice next done table) s := by
  induction table generalizing s done with
  | nil => exact .pure []
  | cons target table ih =>
    have hrest : ∀ x ∈ table, P s.grammar x := fun x hx ↦ htable x (List.mem_cons_of_mem _ hx)
    unfold entryCodes
    split
    · exact (ih done hrest).bind fun codes s₁ _ _ ↦ .pure _
    · refine (attributes_entryCode hP hrecur choice (htable target List.mem_cons_self)).bind
        fun code s₁ _ h₁ ↦ ?_
      exact (ih _ fun x hx ↦ h₁.kind x (hrest x hx)).bind fun codes s₂ _ _ ↦ .pure _

/-- A choice: the byte class to which it is simplified, its table, or its alternatives. -/
theorem attributes_choiceCode (he : P s.grammar e) {alts : List ExprId}
    (hop : s.grammar.op e = .choice alts) : Attributes P Q (choiceCode recur e alts next) s := by
  have hterminal : (s.grammar.op e).isTerminal = false := by rw [hop]; rfl
  refine (attributes_simplified hP he).bind fun other s₁ hother h₁ ↦ .grammar ?_
  split
  · rename_i hclass
    refine hrecur other next s₁ ((kind_of_confines hP he hterminal hother).2 ?_)
    rw [hclass]
    rfl
  · refine .grammar ?_
    split
    · rename_i table htable
      refine (attributes_entryCodes hP hrecur e [] fun target ↦
        hP.entry (h₁.kind e he) htable).bind fun codes s₂ _ _ ↦ ?_
      exact attributes_emitEnd (hP.own he) rfl
    · exact attributes_alternativesCode hP hrecur (h₁.kind e he) fun x hx ↦
        h₁.kind x (hP.child he (by rwa [hop]))

theorem attributes_starCode (he : P s.grammar e) {inner : ExprId} (hinner : P s.grammar inner)
    (nullable : Bool) : Attributes P Q (starCode recur e inner nullable next) s := by
  refine (attributes_specializedSet? hP hinner).bind fun set? s₁ _ h₁ ↦ ?_
  cases set? with
  | some set => exact attributes_emit (hP.own he) rfl
  | none =>
    refine .bind (attributes_emitEnd (hP.own he) rfl) fun skip s₂ _ h₂ ↦ ?_
    refine (hrecur inner skip s₂ (h₂.kind _ (h₁.kind _ hinner))).bind fun start s₃ _ _ ↦ ?_
    exact (attributes_patchNext skip).bind fun _ s₄ _ _ ↦ attributes_emit (hP.own he) rfl

theorem attributes_optionalCode (he : P s.grammar e) {inner : ExprId}
    (hinner : P s.grammar inner) : Attributes P Q (optionalCode recur e inner next) s := by
  have hplain (s₁ : Session) (hinner : P s₁.grammar inner) : Attributes P Q (do
      let pop ← emit .failPop next e
      let body ← recur inner pop
      emit (.failPush next) body e) s₁ :=
    .bind (attributes_emit (hP.own he) rfl) fun pop s₂ _ h₂ ↦
      (hrecur inner pop s₂ (h₂.kind _ hinner)).bind fun body s₃ _ _ ↦
        attributes_emit (hP.own he) rfl
  refine .options ?_
  split
  · refine (attributes_simplify hP hinner).bind fun other s₁ _ h₁ ↦ .grammar ?_
    split
    · exact attributes_emit (hP.own he) rfl
    · exact attributes_emit (hP.own he) rfl
    · exact hplain s₁ (h₁.kind _ hinner)
  · exact hplain s hinner

theorem attributes_notCode (he : P s.grammar e) {inner : ExprId} (hinner : P s.grammar inner) :
    Attributes P Q (notCode recur e inner next) s := by
  have hplain (s₁ : Session) (hinner : P s₁.grammar inner) : Attributes P Q (do
      let fail ← emitEnd .fail e
      let pop ← emit .failPop fail e
      let body ← recur inner pop
      emit (.failPush next) body e) s₁ := by
    refine .bind (attributes_emitEnd (hP.own he) rfl) fun fail s₂ _ h₂ ↦ ?_
    refine .bind (attributes_emit (hP.own he) rfl) fun pop s₃ _ h₃ ↦ ?_
    exact (hrecur inner pop s₃ (h₃.kind _ (h₂.kind _ hinner))).bind fun body s₄ _ _ ↦
      attributes_emit (hP.own he) rfl
  refine .options ?_
  split
  · refine (attributes_simplify hP hinner).bind fun other s₁ _ h₁ ↦ .grammar ?_
    split
    · exact attributes_emit (hP.own he) rfl
    · exact attributes_emit (hP.own he) rfl
    · exact hplain s₁ (h₁.kind _ hinner)
  · exact hplain s hinner

theorem attributes_blockCode (he : P s.grammar e) {inner : ExprId} (hinner : P s.grammar inner) :
    Attributes P Q (blockCode recur e inner next) s := by
  refine .bind (attributes_emitEnd (hP.own he) rfl) fun fail s₁ _ h₁ ↦ ?_
  refine .bind (attributes_emit (hP.own he) rfl) fun failed s₂ _ h₂ ↦ ?_
  refine .bind (attributes_emit (hP.own he) rfl) fun popTable s₃ _ h₃ ↦ ?_
  refine .bind (attributes_emit (hP.own he) rfl) fun pop s₄ _ h₄ ↦ ?_
  have h := ((h₁.trans h₂).trans h₃).trans h₄
  refine (hrecur inner pop s₄ (h.kind _ hinner)).bind fun body s₅ _ _ ↦ ?_
  exact .bind (attributes_emit (hP.own he) rfl) fun push s₆ _ _ ↦
    attributes_emit (hP.own he) rfl

/-- An operand between two instructions. -/
theorem attributes_between (he : P s.grammar e) {inner : ExprId} (hinner : P s.grammar inner)
    {closing opening : Opcode} (hclosing : closing.isCall = false)
    (hopening : opening.isCall = false) : Attributes P Q (do
      let done ← emit closing next e
      let body ← recur inner done
      emit opening body e) s :=
  (attributes_emit (hP.own he) hclosing).bind fun done s₁ _ h₁ ↦
    (hrecur inner done s₁ (h₁.kind _ hinner)).bind fun _ _ _ _ ↦
      attributes_emit (hP.own he) hopening

/-! ### Links -/

omit hrecur in
/-- Both paths to a result, and the instructions around them. -/
theorem attributes_memoizedCode (he : P s.grammar e) {slot : MemoSlot} {child : Option Int}
    {plain : Encoder InstrId} {inside : InstrId → Encoder InstrId}
    (hplain : Attributes P Q plain s)
    (hinside : ∀ mid s₁, s.Attributes P Q s₁ → Attributes P Q (inside mid) s₁) :
    Attributes P Q (memoizedCode e slot child plain inside next) s := by
  have hmonitor : Attributes P Q (monitorCode e plain) s := by
    refine .options ?_
    split
    · refine hplain.bind fun start s₁ _ _ ↦ ?_
      exact Attributes.bind (f := fun i ↦ Pure.pure (some i)) (attributes_emit (hP.own he) rfl)
        fun i s₂ _ _ ↦ .pure (some i)
    · exact .pure none
  refine hmonitor.bind fun monitor s₁ _ h₁ ↦ ?_
  refine .bind (attributes_emit (hP.own he) rfl) fun memoize s₂ _ h₂ ↦ ?_
  refine (hinside memoize s₂ (h₁.trans h₂)).bind fun mid s₃ _ _ ↦ ?_
  refine .bind (attributes_emitEnd (hP.own he) rfl) fun memoFail s₄ _ _ ↦ ?_
  refine .bind (attributes_emit (hP.own he) rfl) fun lookup s₅ _ _ ↦ ?_
  cases monitor with
  | none => exact .pure lookup
  | some switch => exact (attributes_patchOp switch rfl).bind fun _ s₆ _ _ ↦ .pure switch

/-- A link, with its results kept or not. -/
theorem attributes_linkCode (he : P s.grammar e) {inner : ExprId} (hinner : P s.grammar inner)
    (index : Int) : Attributes P Q (linkCode recur e inner index next) s := by
  have hnode (s₁ : Session) (he : P s₁.grammar e) (hinner : P s₁.grammar inner) :
      Attributes P Q (treeNodeCode recur e inner index next) s₁ :=
    attributes_between hP hrecur he hinner rfl rfl
  refine .options ?_
  split
  · exact hrecur inner next s hinner
  · split
    · exact hnode s he hinner
    · refine .grammar ((attributes_issue _ _ true).bind fun slot s₁ _ h₁ ↦ ?_)
      have he₁ := h₁.kind e he
      have hinner₁ := h₁.kind inner hinner
      exact attributes_memoizedCode hP he₁ (hnode s₁ he₁ hinner₁) fun mid s₂ h₂ ↦
        hrecur inner mid s₂ (h₂.kind _ hinner₁)

/-! ### All nodes -/

/-- One node of the kind. References, which are calls, are excluded by it. -/
theorem attributes_nodeCode (he : P s.grammar e) : Attributes P Q (nodeCode recur e next) s := by
  have hchild (x : ExprId) (hx : x ∈ (s.grammar.op e).children) : P s.grammar x := hP.child he hx
  have hown := hP.own he
  refine .options (.grammar ?_)
  cases hop : s.grammar.op e with rw [hop] at hchild
  | empty => exact .pure next
  | fail => exact attributes_emitEnd hown rfl
  | anyByte | byte _ | byteClass _ | defIndent | isIndent => exact attributes_emit hown rfl
  | sequence items => exact attributes_sequenceCode hP hrecur he (by rw [hop]; rfl) hchild
  | choice alts => exact attributes_choiceCode hP hrecur he hop
  | star inner nullable =>
    exact attributes_starCode hP hrecur he (hchild inner (List.mem_singleton_self _)) nullable
  | plus inner nullable =>
    have hinner := hchild inner (List.mem_singleton_self _)
    exact (attributes_starCode hP hrecur he hinner nullable).bind fun rest s₁ _ h₁ ↦
      hrecur inner rest s₁ (h₁.kind _ hinner)
  | optional inner =>
    exact attributes_optionalCode hP hrecur he (hchild inner (List.mem_singleton_self _))
  | and inner | defSymbol _ inner | isSymbol _ inner _ =>
    exact attributes_between hP hrecur he (hchild inner (List.mem_singleton_self _)) rfl rfl
  | not inner => exact attributes_notCode hP hrecur he (hchild inner (List.mem_singleton_self _))
  | reference rule => exact absurd hop (hP.noReference he)
  | construct body left =>
    dsimp only
    split
    · refine .bind (attributes_emit hown rfl) fun capture s₁ hcapture h₁ ↦ ?_
      cases hcapture
      refine (attributes_sequenceCode hP hrecur (h₁.kind e he) (by dsimp only; rw [hop]; rfl)
        fun x hx ↦ h₁.kind x (hchild x hx)).bind fun start s₂ _ _ ↦ attributes_emit hown rfl
    · exact attributes_sequenceCode hP hrecur he (by rw [hop]; rfl) hchild
  | mark m =>
    dsimp only
    split
    · exact attributes_emit hown rfl
    · exact .pure next
  | link inner index =>
    exact attributes_linkCode hP hrecur he (hchild inner (List.mem_singleton_self _)) index
  | block inner =>
    exact attributes_blockCode hP hrecur he (hchild inner (List.mem_singleton_self _))

end

/-- Encoding a node of the kind makes instructions for nodes with the property. -/
theorem attributes_encode (hP : Grammar.Confines P Q) (depth : Nat) (e : ExprId) (next : InstrId)
    (s : Session) (he : P s.grammar e) : Attributes P Q (encode depth e next) s := by
  induction depth generalizing e next s with
  | zero => exact fun _ _ h ↦ (nomatch h)
  | succ depth ih => exact attributes_nodeCode hP (fun e next s he ↦ ih e next s he) he

end Encoder

end ParsingMachine
