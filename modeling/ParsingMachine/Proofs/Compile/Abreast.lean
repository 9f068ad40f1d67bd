import ParsingMachine.Proofs.Compile.Layout
import ParsingMachine.Proofs.Compile.Origins
import ParsingMachine.Proofs.Grammar.Twins

/-!
# Encoding the same in two grammars

Two sessions keep abreast when they made the same code, up to the origins of instructions, of
grammars that one grammar evolved into (`Session.Abreast`). Their grammars may hold different
results of simplification, and the nodes that were added may stand in different places.

Encoders that coincide leave such sessions abreast and answer the same, if both end
(`Encoder.Coincide`). Encoding coincides for twins, whatever the depths of recursion are
(`Encoder.along_encode`). There is one lemma for each function of the encoder.

Nothing is said of encoders of which only one ends. Where encoding comes to an end depends on the
depth, which may differ, so the depth has no part in what is compared.

The nodes that two grammars added need not be equal, nor need they be put together from equal nodes:
what stands in one place for a node may stand in another for the other. They are twins
(`Grammar.Twins`), built alike over old nodes, and the encoder looks at no more of them. Its
decisions are the same in both sessions: simplification answers nodes of the same form for twins,
twins have the same table or none, and factoring an old choice gives twins.

That the grammars grow while code is made is put into the definition. Encoders coincide over all
sessions whose grammars extend given ones, so a fact about twins that was found once is there for
all that comes later (`Coincide.now`, `Coincide.grammar`).

A terminal is encoded by what it tests and not by where it stands, so terminals with one operator
count as alike even if they are not twins (`Encoder.Akin`).

## Main statements

* `Coincide.bind`, `Coincide.build`: encoders that coincide, one after the other.
* `coincide_simplify`: twins are simplified to the same.
* `coincide_factoredCode`: what factoring an old choice makes are twins.
* `coincide_nodeCode`: one node, if other nodes are encoded in the same way.
* `along_encode`: encoding goes along in two grammars.
-/

namespace ParsingMachine

/-! ### Sessions -/

/-- Two sessions that made the same code of what a grammar evolved into. -/
structure Session.Abreast (g : Grammar) (s s' : Session) : Prop where
  /-- The grammar of one session evolved. -/
  left : g.Evolves s.grammar
  /-- So did that of the other one. -/
  right : g.Evolves s'.grammar
  /-- The options are the same. -/
  options_eq : s'.options = s.options
  /-- The code is the same but for origins. -/
  code_eq : s'.code.eraseOrigins = s.code.eraseOrigins
  /-- The memo slots are the same. -/
  memo_eq : s'.memo = s.memo
  /-- The blocks are the same. -/
  blocks_eq : s'.blocks = s.blocks

namespace Session.Abreast

variable {g : Grammar} {s s' : Session}

theorem self (hs : g.Evolves s.grammar) : s.Abreast g s :=
  ⟨hs, hs, rfl, rfl, rfl, rfl⟩

/-- The same is done to the code of both. -/
theorem code (hs : s.Abreast g s') {c c' : Code} (hcode : c'.eraseOrigins = c.eraseOrigins) :
    Abreast g { s with code := c } { s' with code := c' } :=
  ⟨hs.left, hs.right, hs.options_eq, hcode, hs.memo_eq, hs.blocks_eq⟩

/-- The next instruction gets the same id in both sessions. -/
theorem size_eq (hs : s.Abreast g s') : s'.code.instrs.size = s.code.instrs.size := by
  rw [← s'.code.size_eraseOrigins, hs.code_eq, s.code.size_eraseOrigins]

/-- The rules are those of the grammar from which both evolved. -/
theorem body?_eq (hs : s.Abreast g s') (rule : RuleId) :
    s'.grammar.body? rule = s.grammar.body? rule := by
  rw [hs.left.toExtends.body?_eq, hs.right.toExtends.body?_eq]

theorem ruleName_eq (hs : s.Abreast g s') (rule : RuleId) :
    s'.grammar.ruleName rule = s.grammar.ruleName rule := by
  rw [hs.left.ruleName_eq, hs.right.ruleName_eq]

end Session.Abreast

namespace Encoder

variable {α β : Type} {g h h' : Grammar}

/-- On sessions abreast whose grammars extend given ones, both encoders answer the same and leave
sessions abreast, if they end. -/
def Coincide (g h h' : Grammar) (m m' : Encoder α) : Prop :=
  ∀ s s', s.Abreast g s' → h.Extends s.grammar → h'.Extends s'.grammar →
    ∀ a t a' t', m s = some (a, t) → m' s' = some (a', t') →
      a = a' ∧ t.Abreast g t' ∧ s.grammar.Extends t.grammar ∧ s'.grammar.Extends t'.grammar

namespace Coincide

theorem pure (a : α) : Coincide g h h' (Pure.pure a) (Pure.pure a) := by
  intro s s' hs _ _ b t b' t' hb hb'
  cases hb
  cases hb'
  exact ⟨rfl, hs, .refl _, .refl _⟩

/-- Encoders that coincide, one after the other. -/
theorem bind {m m' : Encoder α} {f f' : α → Encoder β} (hm : Coincide g h h' m m')
    (hf : ∀ a, Coincide g h h' (f a) (f' a)) : Coincide g h h' (m >>= f) (m' >>= f') := by
  intro s s' hs hle hle' b t b' t' hb hb'
  obtain ⟨a, s₁, h₁, h₂⟩ := bind_eq_some hb
  obtain ⟨a', s₁', h₁', h₂'⟩ := bind_eq_some hb'
  obtain ⟨rfl, hs₁, hext, hext'⟩ := hm s s' hs hle hle' a s₁ a' s₁' h₁ h₁'
  obtain ⟨hbb, ht, hext₁, hext₁'⟩ :=
    hf a s₁ s₁' hs₁ (hle.trans hext) (hle'.trans hext') b t b' t' h₂ h₂'
  exact ⟨hbb, ht, hext.trans hext₁, hext'.trans hext₁'⟩

theorem map {m m' : Encoder α} (hm : Coincide g h h' m m') (f : α → β) :
    Coincide g h h' (f <$> m) (f <$> m') := by
  rw [map_eq_pure_bind, map_eq_pure_bind]
  exact hm.bind fun a ↦ .pure (f a)

/-- An encoder that does not end coincides with every other. -/
theorem of_eq_none {m m' : Encoder α} (hm : ∀ s, m s = none) : Coincide g h h' m m' := by
  intro s s' _ _ _ a t a' t' ha _
  rw [hm] at ha
  cases ha

theorem of_eq_none_right {m m' : Encoder α} (hm' : ∀ s, m' s = none) :
    Coincide g h h' m m' := by
  intro s s' _ _ _ a t a' t' _ ha'
  rw [hm'] at ha'
  cases ha'

/-- Decisions have to be the same in both. -/
theorem ite {c c' : Prop} [Decidable c] [Decidable c'] {m m' n n' : Encoder α} (hiff : c ↔ c')
    (hm : c → Coincide g h h' m m') (hn : ¬c → Coincide g h h' n n') :
    Coincide g h h' (if c then m else n) (if c' then m' else n') := by
  by_cases hc : c
  · rw [if_pos hc, if_pos (hiff.mp hc)]
    exact hm hc
  · rw [if_neg hc, if_neg fun hc' ↦ hc (hiff.mpr hc')]
    exact hn hc

/-- Reading the options. -/
theorem options {f f' : Options → Encoder β} (hf : ∀ o, Coincide g h h' (f o) (f' o)) :
    Coincide g h h' (Encoder.options >>= f) (Encoder.options >>= f') := by
  intro s s' hs hle hle' b t b' t' hb hb'
  change f' s'.options s' = _ at hb'
  rw [hs.options_eq] at hb'
  exact hf s.options s s' hs hle hle' b t b' t' hb hb'

/-- It is enough to look at the grammars as they are. -/
theorem now {m m' : Encoder α}
    (hm : ∀ k k', g.Evolves k → g.Evolves k' → h.Extends k → h'.Extends k' →
      Coincide g k k' m m') : Coincide g h h' m m' :=
  fun s s' hs hle hle' ↦
    hm s.grammar s'.grammar hs.left hs.right hle hle' s s' hs (.refl _) (.refl _)

/-- Reading the grammar, which may have grown. -/
theorem grammar {f f' : Grammar → Encoder β}
    (hf : ∀ k k', g.Evolves k → g.Evolves k' → h.Extends k → h'.Extends k' →
      Coincide g k k' (f k) (f' k')) :
    Coincide g h h' (Encoder.grammar >>= f) (Encoder.grammar >>= f') := by
  intro s s' hs hle hle' b t b' t' hb hb'
  exact hf s.grammar s'.grammar hs.left hs.right hle hle' s s' hs (.refl _) (.refl _) b t b' t'
    hb hb'

/-- Extending the grammar. -/
theorem build {γ γ' : Type} {b : Builder γ} {b' : Builder γ'} {f : γ → Encoder β}
    {f' : γ' → Encoder β}
    (hb : ∀ k k', g.Evolves k → g.Evolves k' → h.Extends k → h'.Extends k' →
      (g.Evolves (b k).2 ∧ k.Extends (b k).2) ∧ (g.Evolves (b' k').2 ∧ k'.Extends (b' k').2) ∧
        Coincide g (b k).2 (b' k').2 (f (b k).1) (f' (b' k').1)) :
    Coincide g h h' (Encoder.build b >>= f) (Encoder.build b' >>= f') := by
  intro s s' hs hle hle' c t c' t' hc hc'
  obtain ⟨⟨hleft, hext⟩, ⟨hright, hext'⟩, hf⟩ :=
    hb s.grammar s'.grammar hs.left hs.right hle hle'
  have hs₁ : Session.Abreast g { s with grammar := (b s.grammar).2 }
      { s' with grammar := (b' s'.grammar).2 } :=
    ⟨hleft, hright, hs.options_eq, hs.code_eq, hs.memo_eq, hs.blocks_eq⟩
  obtain ⟨hcc, ht, hext₁, hext₁'⟩ := hf _ _ hs₁ (.refl _) (.refl _) c t c' t' hc hc'
  exact ⟨hcc, ht, hext.trans hext₁, hext'.trans hext₁'⟩

end Coincide

/-! ### Primitives -/

theorem coincide_emitWith (op : Opcode) (next : Option InstrId) (e e' : ExprId) :
    Coincide g h h' (emitWith op next e) (emitWith op next e') := by
  intro s s' hs _ _ i t i' t' hi hi'
  cases hi
  cases hi'
  refine ⟨hs.size_eq.symm, hs.code ?_, .refl _, .refl _⟩
  rw [Code.eraseOrigins_push, Code.eraseOrigins_push, hs.code_eq]

/-- The same operation is appended, whatever it is made for. -/
theorem coincide_emit (op : Opcode) (next : InstrId) (e e' : ExprId) :
    Coincide g h h' (emit op next e) (emit op next e') :=
  coincide_emitWith op (some next) e e'

theorem coincide_emitEnd (op : Opcode) (e e' : ExprId) :
    Coincide g h h' (emitEnd op e) (emitEnd op e') :=
  coincide_emitWith op none e e'

/-- The same continuation is put in at the same place. -/
theorem coincide_patchNext (i next : InstrId) :
    Coincide g h h' (patchNext i next) (patchNext i next) := by
  intro s s' hs _ _ u t u' t' hu hu'
  cases hu
  cases hu'
  refine ⟨rfl, hs.code ?_, .refl _, .refl _⟩
  rw [Code.eraseOrigins_patchNext, Code.eraseOrigins_patchNext, hs.code_eq]

theorem coincide_patchOp (i : InstrId) (op : Opcode) :
    Coincide g h h' (patchOp i op) (patchOp i op) := by
  intro s s' hs _ _ u t u' t' hu hu'
  cases hu
  cases hu'
  refine ⟨rfl, hs.code ?_, .refl _, .refl _⟩
  rw [Code.eraseOrigins_patchOp, Code.eraseOrigins_patchOp, hs.code_eq]

/-- An old expression gets the same slot. -/
theorem coincide_issue (hg : g.SelfContained) (label : String) {expr : ExprId} (node : Bool)
    (hexpr : expr < g.size) :
    Coincide g h h' (issue label expr node) (issue label expr node) := by
  intro s s' hs _ _ slot t slot' t' hslot hslot'
  have hissue : issueMemo s'.grammar label expr node s'.memo =
      issueMemo s.grammar label expr node s.memo := by
    rw [issueMemo, issueMemo, hs.memo_eq, hs.left.find?_isStateQuery_eq hg.wellFormed hexpr,
      hs.right.find?_isStateQuery_eq hg.wellFormed hexpr]
  obtain ⟨⟨slot, memo⟩, hmemo, heq⟩ := Option.map_eq_some_iff.mp hslot
  obtain ⟨⟨slot', memo'⟩, hmemo', heq'⟩ := Option.map_eq_some_iff.mp hslot'
  cases heq
  cases heq'
  cases hmemo.symm.trans (hissue.symm.trans hmemo')
  exact ⟨rfl, ⟨hs.left, hs.right, hs.options_eq, hs.code_eq, rfl, hs.blocks_eq⟩, .refl _, .refl _⟩

/-! ### Simplified operands -/

section

variable (hg : g.SelfContained) {a x : ExprId} (ha : g.Twins h h' a x)
include hg ha

/-- Twins are simplified to the same. -/
theorem coincide_simplify {f f' : ExprId → Encoder β}
    (hf : ∀ k k' other other', h.Extends k → h'.Extends k' → k.SameAnswer k' a x other other' →
      Coincide g k k' (f other) (f' other')) :
    Coincide g h h' (build (Grammar.simplify a) >>= f) (build (Grammar.simplify x) >>= f') := by
  refine .build fun k k' hk hk' hle hle' ↦ ?_
  have hak := ha.grow hle hle'
  obtain ⟨hlt, hlt'⟩ := hak.lt_size hk.toExtends hk'.toExtends
  obtain ⟨⟨hleft, hext⟩, -⟩ := hk.simplify hlt
  obtain ⟨⟨hright, hext'⟩, -⟩ := hk'.simplify hlt'
  exact ⟨⟨hleft, hext⟩, ⟨hright, hext'⟩,
    hf _ _ _ _ (hle.trans hext) (hle'.trans hext') (hak.simplify hg hk hk')⟩

/-- With specialization or without it, the answers stand for the same. -/
theorem coincide_simplified {f f' : ExprId → Encoder β}
    (hf : ∀ k k' other other', h.Extends k → h'.Extends k' → k.SameAnswer k' a x other other' →
      Coincide g k k' (f other) (f' other')) :
    Coincide g h h' (simplified a >>= f) (simplified x >>= f') := by
  rw [simplified, simplified, bind_assoc, bind_assoc]
  refine .options fun o ↦ ?_
  split
  · exact coincide_simplify hg ha hf
  · refine .now fun k k' hk hk' hle hle' ↦ ?_
    exact hf k k' a x hle hle' ((ha.grow hle hle').sameAnswer_self hg hk hk')

/-- If one twin is simplified to a set of bytes, so is the other, and to the same set. -/
theorem coincide_specializedSet? :
    Coincide g h h' (specializedSet? a) (specializedSet? x) := by
  refine .options fun o ↦ ?_
  split
  · refine coincide_simplify hg ha fun k k' other other' _ _ hsame ↦
      .grammar fun m m' _ _ hm hm' ↦ ?_
    rw [(hsame.grow hm hm').byteSet?_eq]
    exact .pure _
  · exact .pure none

end

/-! ### Nodes -/

/-- Nodes that are encoded in the same way: twins, or the same terminal. -/
def Akin (g h h' : Grammar) (a x : ExprId) : Prop :=
  g.Twins h h' a x ∨ ((h.op a).isTerminal ∧ h'.op x = h.op a)

/-- Terminals that simplification answers are encoded in the same way. -/
theorem akin_of_sameAnswer {a x other other' : ExprId} (hsame : h.SameAnswer h' a x other other')
    (hterminal : (h.op other).isTerminal) : Akin g h h' other other' := by
  rcases hsame.op_eq_or with ⟨-, hop⟩ | ⟨hop, -⟩
  · exact .inr ⟨hterminal, hop⟩
  · rw [hop] at hterminal
    cases hterminal

/-- Nodes of the same kind are encoded in the same way. -/
def Along (g : Grammar) (recur recur' : ExprId → InstrId → Encoder InstrId) : Prop :=
  ∀ h h' a x next, Akin g h h' a x → Coincide g h h' (recur a next) (recur' x next)

section

variable (hg : g.SelfContained) {recur recur' : ExprId → InstrId → Encoder InstrId}
  (hrecur : Along g recur recur') {a b x y : ExprId} {next : InstrId}
include hrecur

/-- Twins, one after the other. -/
theorem coincide_itemsCode {xs ys : List ExprId} (hxs : List.Forall₂ (g.Twins h h') xs ys) :
    Coincide g h h' (itemsCode recur xs next) (itemsCode recur' ys next) := by
  rw [itemsCode, itemsCode]
  induction hxs with
  | nil => exact .pure next
  | cons hx _ ih =>
    rw [List.foldrM_cons, List.foldrM_cons]
    exact ih.bind fun start ↦ hrecur h h' _ _ start (.inl hx)

/-- Alternatives that are twins. -/
theorem coincide_alternativesCode {xs ys : List ExprId} (hxs : List.Forall₂ (g.Twins h h') xs ys) :
    Coincide g h h' (alternativesCode recur a next xs) (alternativesCode recur' x next ys) := by
  induction hxs with
  | nil => exact coincide_emitEnd .fail a x
  | @cons b y _ _ hb hxs ih =>
    cases hxs with
    | nil => exact hrecur h h' b y next (.inl hb)
    | cons hc hxs =>
      refine ih.bind fun rest ↦ (coincide_emit .failPop next b y).bind fun pop ↦ ?_
      exact (hrecur h h' b y pop (.inl hb)).bind fun body ↦ coincide_emit (.failPush rest) body b y

include hg

/-- Sequences of twins, which have the same dispatch form if one has any. -/
theorem coincide_sequenceCode (ha : g.Twins h h' a x) {xs ys : List ExprId}
    (hxs : List.Forall₂ (g.Twins h h') xs ys) :
    Coincide g h h' (sequenceCode recur a xs next) (sequenceCode recur' x ys next) := by
  refine coincide_simplified hg ha fun k k' other other' hle hle' hsame ↦
    .grammar fun m m' _ _ hm hm' ↦ ?_
  have hsame := hsame.grow hm hm'
  refine .ite ?_ (fun hterminal ↦ ?_) fun _ ↦ ?_
  · rw [hsame.isTerminal_eq, ne_eq, ne_eq, hsame.eq_iff]
  · exact hrecur m m' other other' next (akin_of_sameAnswer hsame hterminal.2)
  · have hxs := hxs.imp fun b y hb ↦ (hb.grow hle hle').grow hm hm'
    refine (coincide_itemsCode hrecur hxs).bind fun start ↦ .grammar fun n n' _ _ hn hn' ↦ ?_
    have hfast : (if other = a then none else n.dispatchForm? other) =
        if other' = x then none else n'.dispatchForm? other' := by
      rw [(hsame.grow hn hn').dispatchForm?_eq]
      exact if_congr hsame.eq_iff rfl rfl
    rw [hfast]
    generalize (if other' = x then none else n'.dispatchForm? other') = fast?
    cases fast? with
    | some fast =>
      exact (coincide_emit .anyByte next other other').bind fun any ↦ coincide_emitEnd _ a x
    | none => exact .pure start

/-- A choice that is not factored. -/
theorem coincide_unfactoredCode (ha : a < g.size) : Coincide g h h' (do
      match (← Encoder.grammar).op a with
      | .choice alts => alternativesCode recur a next alts
      | _ => recur a next) (do
      match (← Encoder.grammar).op a with
      | .choice alts => alternativesCode recur' a next alts
      | _ => recur' a next) := by
  refine .grammar fun k k' hk hk' _ _ ↦ ?_
  rw [hk.toExtends.op_eq a ha, hk'.toExtends.op_eq a ha]
  split
  · rename_i alts hop
    refine coincide_alternativesCode hrecur (List.forall₂_same.mpr fun alt halt ↦ ?_)
    exact Grammar.Twins.children hg.wellFormed ha alt (by rwa [hop])
  · exact hrecur k k' a a next (.inl (.old ha))

/-- What factoring an old choice makes are twins. -/
theorem coincide_factoredCode (ha : a < g.size) :
    Coincide g h h' (factoredCode recur a next) (factoredCode recur' a next) := by
  refine .options fun o ↦ ?_
  split
  · refine .build fun k k' hk hk' _ _ ↦
      ⟨hk.factorCommonHead a, hk'.factorCommonHead a, ?_⟩
    have htwins := Grammar.twins_factorCommonHead hg.wellFormed hk hk' ha
    generalize (Grammar.factorCommonHead a k).1 = factored,
      (Grammar.factorCommonHead a k').1 = factored' at htwins ⊢
    cases htwins with
    | none => exact coincide_unfactoredCode hg hrecur ha
    | some hef => exact hrecur _ _ _ _ next (.inl hef)
  · exact coincide_unfactoredCode hg hrecur ha

/-- An entry is an old node, so both factor it or neither does. -/
theorem coincide_entryCode {target : ExprId} (htarget : target < g.size) :
    Coincide g h h' (entryCode recur a next target) (entryCode recur' a next target) := by
  refine .grammar fun k k' hk hk' _ _ ↦ ?_
  rw [hk.toExtends.op_eq target htarget, hk'.toExtends.op_eq target htarget]
  split
  · exact coincide_factoredCode hg hrecur htarget
  · exact hrecur k k' target target next (.inl (.old htarget))

/-- Entries with code are found again at the same places. -/
theorem coincide_entryCodes (done : List (ExprId × InstrId)) {table : JumpTable}
    (htable : ∀ target ∈ table, target < g.size) :
    Coincide g h h' (entryCodes recur a next done table) (entryCodes recur' a next done table) := by
  induction table generalizing done with
  | nil => exact .pure []
  | cons target table ih =>
    have ih := fun done ↦ ih done fun x hx ↦ htable x (List.mem_cons_of_mem _ hx)
    unfold entryCodes
    split
    · exact (ih done).bind fun codes ↦ .pure _
    · exact (coincide_entryCode hg hrecur (htable target List.mem_cons_self)).bind fun code ↦
        (ih _).bind fun codes ↦ .pure _

/-- Twins have the same table, or none. -/
theorem coincide_branchingCode (next : InstrId) (ha : g.Twins h h' a x) {xs ys : List ExprId}
    (hxs : List.Forall₂ (g.Twins h h') xs ys) : Coincide g h h' (do
      match (← Encoder.grammar).table? a with
      | some table => emitEnd (.dispatch (← entryCodes recur a next [] table)) a
      | none => alternativesCode recur a next xs) (do
      match (← Encoder.grammar).table? x with
      | some table => emitEnd (.dispatch (← entryCodes recur' x next [] table)) x
      | none => alternativesCode recur' x next ys) := by
  refine .grammar fun k k' hk hk' hle hle' ↦ ?_
  obtain ⟨heq, hold⟩ := (ha.grow hle hle').table?_eq hg hk.toIntactIn hk'.toIntactIn
  rw [heq]
  split
  · rename_i table htable
    obtain ⟨rfl, -, hentries⟩ := hold table htable
    exact (coincide_entryCodes hg hrecur [] hentries).bind fun codes ↦ coincide_emitEnd _ a a
  · exact coincide_alternativesCode hrecur (hxs.imp fun b y hb ↦ hb.grow hle hle')

/-- Choices of twins. -/
theorem coincide_choiceCode (ha : g.Twins h h' a x) {xs ys : List ExprId}
    (hxs : List.Forall₂ (g.Twins h h') xs ys) :
    Coincide g h h' (choiceCode recur a xs next) (choiceCode recur' x ys next) := by
  refine coincide_simplified hg ha fun k k' other other' hle hle' hsame ↦
    .grammar fun m m' _ _ hm hm' ↦ ?_
  have hsame := hsame.grow hm hm'
  have hbranching := coincide_branchingCode hg hrecur next
    ((ha.grow hle hle').grow hm hm') (hxs.imp fun b y hb ↦ (hb.grow hle hle').grow hm hm')
  have hbeq : (other' == x) = (other == a) := by
    rw [beq_eq_decide, beq_eq_decide]
    exact decide_eq_decide.mpr hsame.eq_iff.symm
  rcases hsame.op_eq_or with ⟨hterminal, hop⟩ | ⟨hop, hop'⟩
  · rw [hbeq, hop]
    split
    · exact hrecur m m' other other' next (akin_of_sameAnswer hsame hterminal)
    · exact hbranching
  · -- neither answer is a terminal
    generalize m.op other = op, m'.op other' = op' at hop hop'
    split
    · cases hop
    · split
      · cases hop'
      · exact hbranching

/-! ### Operators of old nodes -/

omit hg in
/-- An operand between two instructions. -/
theorem coincide_between (hb : b < g.size) (closing opening : Opcode) : Coincide g h h' (do
      let done ← emit closing next a
      let body ← recur b done
      emit opening body a) (do
      let done ← emit closing next a
      let body ← recur' b done
      emit opening body a) :=
  (coincide_emit closing next a a).bind fun done ↦
    (hrecur h h' b b done (.inl (.old hb))).bind fun body ↦ coincide_emit opening body a a

/-- Repetitions of an old node. -/
theorem coincide_starCode (hb : b < g.size) (nullable : Bool) :
    Coincide g h h' (starCode recur a b nullable next) (starCode recur' a b nullable next) := by
  refine (coincide_specializedSet? hg (.old hb)).bind fun set? ↦ ?_
  cases set? with
  | some set => exact coincide_emit _ next a a
  | none =>
    refine (coincide_emitEnd _ a a).bind fun skip ↦ ?_
    refine (hrecur h h' b b skip (.inl (.old hb))).bind fun start ↦ ?_
    exact (coincide_patchNext skip start).bind fun _ ↦ coincide_emit _ start a a

/-- An old node or nothing. -/
theorem coincide_optionalCode (hb : b < g.size) :
    Coincide g h h' (optionalCode recur a b next) (optionalCode recur' a b next) := by
  refine .options fun o ↦ ?_
  split
  · refine coincide_simplify hg (.old hb) fun k k' other other' hle hle' hsame ↦
      .grammar fun m m' _ _ hm hm' ↦ ?_
    rcases (hsame.grow hm hm').op_eq_or with ⟨-, hop⟩ | ⟨hop, hop'⟩
    · rw [hop]
      split
      · exact coincide_emit _ next a a
      · exact coincide_emit _ next a a
      · exact coincide_between hrecur hb .failPop (.failPush next)
    · -- neither answer is a terminal
      generalize m.op other = op, m'.op other' = op' at hop hop'
      split
      · cases hop
      · cases hop
      · split
        · cases hop'
        · cases hop'
        · exact coincide_between hrecur hb .failPop (.failPush next)
  · exact coincide_between hrecur hb .failPop (.failPush next)

/-- Negations of an old node. -/
theorem coincide_notCode (hb : b < g.size) :
    Coincide g h h' (notCode recur a b next) (notCode recur' a b next) := by
  have hplain (k k' : Grammar) : Coincide g k k' (do
      let fail ← emitEnd .fail a
      let pop ← emit .failPop fail a
      let body ← recur b pop
      emit (.failPush next) body a) (do
      let fail ← emitEnd .fail a
      let pop ← emit .failPop fail a
      let body ← recur' b pop
      emit (.failPush next) body a) :=
    (coincide_emitEnd .fail a a).bind fun fail ↦
      coincide_between hrecur hb .failPop (.failPush next)
  refine .options fun o ↦ ?_
  split
  · refine coincide_simplify hg (.old hb) fun k k' other other' hle hle' hsame ↦
      .grammar fun m m' _ _ hm hm' ↦ ?_
    have hsame := hsame.grow hm hm'
    rw [hsame.byteSet?_eq, hsame.literalBytes?_eq]
    split
    · exact coincide_emit _ next a a
    · exact coincide_emit _ next a a
    · exact hplain m m'
  · exact hplain h h'

omit hg in
theorem coincide_blockCode (hb : b < g.size) :
    Coincide g h h' (blockCode recur a b next) (blockCode recur' a b next) := by
  refine (coincide_emitEnd .fail a a).bind fun fail ↦ ?_
  refine (coincide_emit .tablePop fail a a).bind fun failed ↦ ?_
  refine (coincide_emit .tablePop next a a).bind fun popTable ↦ ?_
  refine (coincide_emit .failPop popTable a a).bind fun pop ↦ ?_
  refine (hrecur h h' b b pop (.inl (.old hb))).bind fun body ↦ ?_
  exact (coincide_emit _ body a a).bind fun push ↦ coincide_emit .tablePush push a a

omit hg hrecur in
/-- Both paths to a result, and the switch in front of them. -/
theorem coincide_memoizedCode {slot : MemoSlot} {child : Option Int}
    {plain plain' : Encoder InstrId} {inside inside' : InstrId → Encoder InstrId}
    (hplain : Coincide g h h' plain plain')
    (hinside : ∀ mid, Coincide g h h' (inside mid) (inside' mid)) :
    Coincide g h h' (memoizedCode a slot child plain inside next)
      (memoizedCode a slot child plain' inside' next) := by
  have hmonitor : Coincide g h h' (monitorCode a plain) (monitorCode a plain') := by
    refine .options fun o ↦ ?_
    split
    · exact hplain.bind fun start ↦ (coincide_emit _ start a a).map some
    · exact .pure none
  refine hmonitor.bind fun monitor ↦ (coincide_emit _ next a a).bind fun memoize ↦ ?_
  refine (hinside memoize).bind fun mid ↦ (coincide_emitEnd _ a a).bind fun memoFail ↦ ?_
  refine (coincide_emit _ mid a a).bind fun lookup ↦ ?_
  cases monitor with
  | some switch => exact (coincide_patchOp switch _).bind fun _ ↦ .pure switch
  | none => exact .pure lookup

/-- References to one rule get the same slot. -/
theorem coincide_referenceCode (ha : a < g.size) (rule : RuleId) :
    Coincide g h h' (referenceCode recur a rule next) (referenceCode recur' a rule next) := by
  refine coincide_simplified hg (.old ha) fun k k' other other' hle hle' hsame ↦
    .grammar fun m m' hleft hright hm hm' ↦ ?_
  have hsame := hsame.grow hm hm'
  refine .ite ?_ (fun hterminal ↦ ?_) fun _ ↦ .options fun o ↦ ?_
  · rw [hsame.isTerminal_eq, ne_eq, ne_eq, hsame.eq_iff]
  · exact hrecur m m' other other' next (akin_of_sameAnswer hsame hterminal.2)
  · rw [hleft.toExtends.body?_eq, hright.toExtends.body?_eq]
    split
    · rename_i body hbody
      have hlt := Grammar.resolve_lt hg.wellFormed (hg.wellFormed.body_lt rule body hbody)
      rw [hleft.isTreeFree_eq hg.wellFormed, hright.isTreeFree_eq hg.wellFormed]
      split
      · rw [hleft.ruleName_eq, hright.ruleName_eq, hleft.resolve_eq hlt, hright.resolve_eq hlt]
        refine (coincide_issue hg _ false hlt).bind fun slot ↦ ?_
        exact coincide_memoizedCode (coincide_emit _ next a a) fun mid ↦ coincide_emit _ mid a a
      · exact coincide_emit _ next a a
    · exact coincide_emit _ next a a

/-- So do links, whose labels are written alike. -/
theorem coincide_linkCode (ha : a < g.size) (hb : b < g.size) (index : Int) :
    Coincide g h h' (linkCode recur a b index next) (linkCode recur' a b index next) := by
  refine .options fun o ↦ ?_
  split
  · exact hrecur h h' b b next (.inl (.old hb))
  · split
    · exact coincide_between hrecur hb (.nodeStore index) .nodePush
    · refine .grammar fun k k' hleft hright _ _ ↦ ?_
      -- the label and the slot are those of an old expression
      have hlt := Grammar.resolve_lt hg.wellFormed hb
      rw [hleft.display_eq hg.wellFormed ha, hright.display_eq hg.wellFormed ha,
        hleft.resolve_eq hlt, hright.resolve_eq hlt]
      refine (coincide_issue hg _ true hlt).bind fun slot ↦ ?_
      exact coincide_memoizedCode (coincide_between hrecur hb (.nodeStore index) .nodePush)
        fun mid ↦ hrecur k k' b b mid (.inl (.old hb))

/-! ### All nodes -/

omit hrecur hg in
/-- Terminals with one operator. -/
theorem coincide_terminal (hterminal : (h.op a).isTerminal) (hop : h'.op x = h.op a) :
    Coincide g h h' (nodeCode recur a next) (nodeCode recur' x next) := by
  refine .options fun o ↦ .grammar fun k k' _ _ hle hle' ↦ ?_
  have hne : h.op a ≠ .fail := fun hfail ↦ by
    rw [hfail] at hterminal
    cases hterminal
  rw [hle.op_eq_of_ne hne, hle'.op_eq_of_ne (hop ▸ hne), hop]
  generalize h.op a = op at hterminal
  cases op with
  | anyByte | byte _ | byteClass _ => exact coincide_emit _ next a x
  | _ => cases hterminal

/-- Twins are encoded in the same way. -/
theorem coincide_twins (ha : g.Twins h h' a x) :
    Coincide g h h' (nodeCode recur a next) (nodeCode recur' x next) := by
  refine .options fun o ↦ .grammar fun k k' hleft hright hle hle' ↦ ?_
  have ha := ha.grow hle hle'
  have hop := (Grammar.mirrors_twins hg hleft hright).op ha
  -- passes make sequences and choices only, so twins of another kind are one old node
  have hold : (k.op a).isGlue = false →
      a = x ∧ a < g.size ∧ ∀ child ∈ (k.op a).children, child < g.size := by
    intro hglue
    obtain ⟨rfl, hlt⟩ := ha.eq_of_not_isGlue (Bool.eq_false_iff.mp hglue)
    rw [hleft.toExtends.op_eq a hlt]
    exact ⟨rfl, hlt, fun child hc ↦ Nat.lt_trans (hg.wellFormed.child_lt hc) hlt⟩
  generalize k.op a = op, k'.op x = op' at hop hold ⊢
  cases hop with
  | sequence hxs => exact coincide_sequenceCode hg hrecur ha hxs
  | choice hxs => exact coincide_choiceCode hg hrecur ha hxs
  | reference rule _ =>
    obtain ⟨rfl, hlt, -⟩ := hold rfl
    exact coincide_referenceCode hg hrecur hlt rule
  | same hsequence hchoice hreference =>
    cases op with
    | sequence items => exact absurd rfl (hsequence items)
    | choice alts => exact absurd rfl (hchoice alts)
    | reference rule => exact absurd rfl (hreference rule)
    | empty => exact .pure next
    | fail => exact coincide_emitEnd .fail a x
    | anyByte | byte _ | byteClass _ | defIndent | isIndent => exact coincide_emit _ next a x
    | star inner nullable =>
      obtain ⟨rfl, -, hchild⟩ := hold rfl
      exact coincide_starCode hg hrecur (hchild inner (List.mem_singleton_self inner)) nullable
    | plus inner nullable =>
      obtain ⟨rfl, -, hchild⟩ := hold rfl
      have hinner := hchild inner (List.mem_singleton_self inner)
      exact (coincide_starCode hg hrecur hinner nullable).bind fun rest ↦
        hrecur k k' inner inner rest (.inl (.old hinner))
    | optional inner =>
      obtain ⟨rfl, -, hchild⟩ := hold rfl
      exact coincide_optionalCode hg hrecur (hchild inner (List.mem_singleton_self inner))
    | and inner | defSymbol _ inner | isSymbol _ inner _ =>
      obtain ⟨rfl, -, hchild⟩ := hold rfl
      exact coincide_between hrecur (hchild inner (List.mem_singleton_self inner)) _ _
    | not inner =>
      obtain ⟨rfl, -, hchild⟩ := hold rfl
      exact coincide_notCode hg hrecur (hchild inner (List.mem_singleton_self inner))
    | construct body left =>
      obtain ⟨rfl, -, hchild⟩ := hold rfl
      have hbody : List.Forall₂ (g.Twins k k') body body :=
        List.forall₂_same.mpr fun child hc ↦ .old (hchild child hc)
      dsimp only
      split
      · refine (coincide_emit _ next a a).bind fun capture ↦ ?_
        exact (coincide_sequenceCode hg hrecur ha hbody).bind fun start ↦ coincide_emit _ start a a
      · exact coincide_sequenceCode hg hrecur ha hbody
    | mark m =>
      dsimp only
      split
      · exact coincide_emit _ next a x
      · exact .pure next
    | link inner index =>
      obtain ⟨rfl, hlt, hchild⟩ := hold rfl
      exact coincide_linkCode hg hrecur hlt (hchild inner (List.mem_singleton_self inner)) index
    | block inner =>
      obtain ⟨rfl, -, hchild⟩ := hold rfl
      exact coincide_blockCode hrecur (hchild inner (List.mem_singleton_self inner))

/-- One node, if others are encoded in the same way. -/
theorem coincide_nodeCode (ha : Akin g h h' a x) :
    Coincide g h h' (nodeCode recur a next) (nodeCode recur' x next) := by
  rcases ha with ha | ⟨hterminal, hop⟩
  · exact coincide_twins hg hrecur ha
  · exact coincide_terminal hterminal hop

end

/-- Encoding goes along in two grammars, within whatever depths it ends. -/
theorem along_encode (hg : g.SelfContained) (depth depth' : Nat) :
    Along g (encode depth) (encode depth') := by
  induction depth generalizing depth' with
  | zero => exact fun h h' a x next _ ↦ .of_eq_none fun _ ↦ rfl
  | succ depth ih =>
    cases depth' with
    | zero => exact fun h h' a x next _ ↦ .of_eq_none_right fun _ ↦ rfl
    | succ depth' => exact fun h h' a x next ha ↦ coincide_nodeCode hg (ih depth') ha

end Encoder

end ParsingMachine
