import ParsingMachine.Machine.Run
import ParsingMachine.Proofs.Compile.Layout
import ParsingMachine.Proofs.Semantics.Adequacy

/-!
# Compiled programs end as the grammar says

A grammar on which rules are compiled was built from operands to nodes, and its side tables were
filled by the passes of this library while its rules were what they are now (`Grammar.Prepared`). A
program compiled from it halts on every input on which the walk ends, and with the same outcome.

When results are kept, this needs that no definition takes part in matching a reference or a link
(`Grammar.MemoSafe`); then everything that is found in the memo table is what recomputing gives
(`Machine.FaithfulHits`).

Walks and runs are not compared step by step. Both are compared with the results that matching has
(`Yields`): a walk that ends finds a result of the body of its rule, and the program of a finished
session halts with what the body of the first rule yields (`Session.Compiled.halts`). What is put
together here is the condition under which both apply. The walk is in the grammar that was given and
the program belongs to the grammar that compiling left, so it has to be shown that in the latter,
with all that was recorded on the way, side tables are right and old nodes mean what they meant.

Which grammars can be compiled is said by how they come about, and not by a property of their side
tables, since clients know the former. That the side tables are right follows
(`Grammar.Prepared.sound`), and it is what the proof uses.

Two conditions on the grammar remain. Repetitions without the flag have to repeat what never
succeeds where it began (`Grammar.FlagsRaised`), for without the flag the machine makes no test. And
kept results need the condition above; it can be decided, by the search that the compiler makes for
another purpose (`Grammar.memoSafe_iff`).

## Main statements

* `Grammar.Prepared.sound`: the side tables of prepared grammars are right.
* `simulates_of_leavesState`: what is kept only has to leave the parse state as it is.
* `outcome_of_compile`: without kept results, runs end as walks do.
* `outcome_of_compile_memoSafe`: with kept results they do too, and each hit is faithful.
-/

namespace ParsingMachine

open Machine

/-! ### Grammars to compile -/

namespace Grammar

/-- Built from operands to nodes, with side tables filled by the passes under the present bodies of
the rules. -/
inductive Prepared : Grammar → Prop
  /-- Nothing is in the side tables. -/
  | built {g : Grammar} (hg : g.WellFormed) (hsimplified : g.simplified = {})
    (htables : g.tables = {}) :
    Prepared g
  /-- Nodes may be added. -/
  | extended {g h : Grammar} (hg : Prepared g) (hgh : g.Extends h) (hh : h.WellFormed)
    (hsimplified : h.simplified = g.simplified) (htables : h.tables = g.tables) : Prepared h
  /-- Jump tables may be attached. -/
  | annotated {g : Grammar} (hg : Prepared g) : Prepared (g.attachTables).2
  /-- Nodes may be simplified. -/
  | simplified {g : Grammar} (hg : Prepared g) {e : ExprId} (he : e < g.size) :
    Prepared (g.simplify e).2
  /-- Rules may be compiled. -/
  | compiled {g h : Grammar} (hg : Prepared g) {depth : Nat} {rules : List RuleId} {o : Options}
    {result : Except CompileError Program}
    (hcompile : compileWithin depth g rules o = some (result, h)) :
    Prepared h

variable {g h : Grammar}

/-- Compiling in a sound grammar: the rules have blocks, and the grammar that is left has grown. -/
theorem Sound.compileRules (hg : g.Sound) {depth : Nat} {rules : List RuleId} {o : Options}
    {e : Option CompileError} {s : Session}
    (h : (Session.start depth g o).compileRules rules = some (e, s)) :
    (Session.start depth g o).Advances s :=
  (Session.compiled_start hg.wellFormed hg.simplified hg.tables depth o).compileRules h

/-- What compiling leaves is the grammar of a session. -/
theorem exists_session {depth : Nat} {rules : List RuleId} {o : Options}
    {result : Except CompileError Program} (h : compileWithin depth g rules o = some (result, k)) :
    ∃ e s, (Session.start depth g o).compileRules rules = some (e, s) ∧ s.grammar = k ∧
      ∀ p, result = .ok p → e = none ∧ s.finish = .ok p := by
  unfold compileWithin at h
  split at h
  · cases h
  · rename_i e s hrules
    cases h
    exact ⟨some e, s, hrules, rfl, fun p hp ↦ (nomatch hp)⟩
  · rename_i s hrules
    cases h
    exact ⟨none, s, hrules, rfl, fun p hp ↦ ⟨rfl, hp⟩⟩

/-- Running the compiler shows that it answers a program, and what can be tested of that. -/
theorem exists_program (depth : Nat) (g : Grammar) (rules : List RuleId) (o : Options)
    (test : Program → Bool)
    (h : ((compileWithin depth g rules o).any fun result ↦ result.1.toOption.any test) = true) :
    ∃ p k, compileWithin depth g rules o = some (.ok p, k) ∧ test p = true := by
  obtain ⟨⟨result, k⟩, hcompile, hresult⟩ := (Option.any_eq_true _ _).mp h
  rcases result with e | p
  · cases hresult
  · exact ⟨p, k, hcompile, hresult⟩

/-- A sound grammar that is extended stays sound, if its side tables stay as they were. -/
theorem Sound.extends (hg : g.Sound) (hgh : g.Extends h) (hup : h.BottomUp)
    (hsimplified : h.simplified = g.simplified) (htables : h.tables = g.tables) : h.Sound where
  wellFormed := hgh.wellFormed hg.wellFormed hup
  simplified := hg.simplified.extends hgh hsimplified
  tables := hg.tables.extends hgh htables

/-- Attaching tables keeps side tables right. -/
theorem Sound.attachTables (hg : g.Sound) : (g.attachTables).2.Sound := by
  obtain ⟨hgrows, hsimplified, htables⟩ := ensures_attachTables hg.wellFormed hg.tables
  exact ⟨hgrows.wellFormed hg.wellFormed, hg.simplified.extends hgrows.toExtends hsimplified,
    htables⟩

theorem Sound.simplify (hg : g.Sound) {e : ExprId} (he : e < g.size) : (g.simplify e).2.Sound :=
  hg.records (ensures_simplify hg.wellFormed hg.simplified he).1

theorem Sound.compileWithin (hg : g.Sound) {depth : Nat} {rules : List RuleId} {o : Options}
    {result : Except CompileError Program}
    (hcompile : compileWithin depth g rules o = some (result, h)) : h.Sound := by
  obtain ⟨e, s, hrules, rfl, -⟩ := exists_session hcompile
  have hvalid := (hg.compileRules hrules).compiled.valid
  exact ⟨hvalid.wellFormed, hvalid.simplified, hvalid.tables⟩

/-- A grammar without anything in its side tables is sound. -/
theorem WellFormed.sound (hg : g.WellFormed) (hsimplified : g.simplified = {})
    (htables : g.tables = {}) : g.Sound := by
  refine ⟨hg, fun e other hother ↦ ?_, fun e table htable ↦ ?_⟩
  · rw [simplified?, hsimplified] at hother
    simp at hother
  · rw [table?, htables] at htable
    simp at htable

/-- The side tables of prepared grammars are right. -/
theorem Prepared.sound (hg : g.Prepared) : g.Sound := by
  induction hg with
  | built hg hsimplified htables => exact hg.sound hsimplified htables
  | extended _ hgh hh hsimplified htables ih => exact ih.extends hgh hh.bottomUp hsimplified htables
  | annotated _ ih => exact ih.attachTables
  | simplified _ he ih => exact ih.simplify he
  | compiled _ hcompile ih => exact ih.compileWithin hcompile

/-- Every repetition without the flag repeats what never succeeds where it began. -/
def FlagsRaised (g : Grammar) : Prop :=
  ∀ e inner, g.op e = .star inner false ∨ g.op e = .plus inner false →
    ∀ src depth pos st st', g.eval src depth inner pos st ≠ some (some pos, st')

/-- Repetitions of single bytes need no flag. -/
theorem flagsRaised_of_isTerminal (hg : g.WellFormed)
    (h : ∀ e < g.size, ∀ inner < e, g.op e = .star inner false ∨ g.op e = .plus inner false →
      (g.op inner).isTerminal) : g.FlagsRaised := by
  intro e inner hop src depth pos st st' heval
  have he : e < g.size := lt_size_of_op_ne fun hfail ↦ by simp [hfail] at hop
  have hinner : inner < e := by
    refine hg.child_lt ?_
    rcases hop with hop | hop <;> rw [hop] <;> exact List.mem_singleton_self inner
  obtain ⟨test, htest⟩ := Operator.test?_of_isTerminal (h e he inner hinner hop)
  have hyields := Yields.of_eval _ _ _ _ _ _ heval
  rw [Yields.node_iff, Operator.term_of_test? htest, Yields.consumes_iff] at hyields
  split at hyields
  · cases hyields
  · cases hyields

/-- No definition takes part in matching a reference or a link. -/
def MemoSafe (g : Grammar) : Prop :=
  ∀ root, (g.op root).isMemoized → ∀ e, g.Reach root e → (g.op e).isDefinition = false

/-- The search that the compiler makes decides it. -/
theorem memoSafe_iff (g : Grammar) : g.MemoSafe ↔ ∀ root < g.size, (g.op root).isMemoized →
    ∀ e ∈ g.matchedFrom [root], (g.op e).isDefinition = false := by
  constructor
  · intro h root _ hroot e he
    obtain ⟨_, hmem, hreach⟩ := (mem_matchedFrom [root]).mp he
    rw [List.mem_singleton.mp hmem] at hreach
    exact h root hroot e hreach
  · intro h root hroot e hreach
    have hlt : root < g.size :=
      lt_size_of_op_ne fun hfail ↦ by simp [hfail, Operator.isMemoized] at hroot
    exact h root hlt hroot e ((mem_matchedFrom [root]).mpr
      ⟨root, List.mem_singleton_self root, hreach⟩)

instance (g : Grammar) : Decidable g.MemoSafe :=
  decidable_of_iff' _ g.memoSafe_iff

/-- New nodes are no repetitions, and old ones still consume. -/
theorem FlagsRaised.consumes (hflags : g.FlagsRaised) (hg : g.WellFormed) (hgh : g.Grows h)
    {e inner : ExprId} (hop : h.op e = .star inner false ∨ h.op e = .plus inner false) :
    h.Consumes inner := by
  have he : e < g.size := by
    refine Nat.lt_of_not_le fun he ↦ ?_
    have hglue := hgh.isGlue e he
    rcases hop with hop | hop <;> rw [hop] at hglue <;> cases hglue
  rw [hgh.op_eq e he] at hop
  have hinner : inner < g.size := by
    refine Nat.lt_trans (hg.child_lt (e := e) ?_) he
    rcases hop with hop | hop <;> rw [hop] <;> exact List.mem_singleton_self inner
  intro src d pos s s' hyields
  rw [← hgh.toExtends.yields_iff hg (t := .node inner) hinner] at hyields
  obtain ⟨depth, steps, q, st', heval, hresult⟩ := hyields.eval
  rcases q with - | stop
  · cases hresult
  · cases hresult
    exact hflags e inner hop src depth pos _ _ heval

/-- Where memoized expressions define nothing, no definition is exposed. -/
theorem MemoSafe.contained (hsafe : g.MemoSafe) {root e : ExprId} (hroot : (g.op root).isMemoized)
    (hreach : g.Reach root e) : g.Contained e := by
  intro x hx
  have hx' : g.Reach root x := by
    refine hreach.trans (Relation.ReflTransGen.mono (fun y z hz ↦ ?_) _ _ hx)
    unfold exposed at hz
    split at hz
    · cases hz
    · cases hz
    · exact hz
  refine ⟨hsafe root hroot x hx', fun inner hop y hy hdef ↦ ?_⟩
  have hinner : inner ∈ g.successors x := by
    rw [successors, hop]
    exact List.mem_singleton_self inner
  have hfalse := hsafe root hroot y (hx'.trans (.head hinner hy))
  rw [hdef] at hfalse
  cases hfalse

/-- What a slot of a grown grammar keeps takes part in matching an old reference or link. -/
theorem exists_root (hg : g.WellFormed) (hgh : g.Grows h) {slot : MemoSlot}
    (hslot : slot.Serves h) :
    slot.expr < g.size ∧ ∃ root, (g.op root).isMemoized ∧ g.Reach root slot.expr := by
  obtain ⟨root, hroot, hreach⟩ := hslot.root
  have hlt : root < g.size := by
    refine Nat.lt_of_not_le fun hle ↦ ?_
    have hglue := hgh.isGlue root hle
    cases hop : h.op root with rw [hop] at hglue hroot
    | reference _ | link _ _ => cases hglue
    | _ => cases hroot
  rw [hgh.op_eq root hlt] at hroot
  have hreach' := (hgh.toExtends.reach_iff hg hlt).mp hreach
  exact ⟨reach_lt hg hlt hreach', root, hroot, hreach'⟩

theorem LeavesState.extends {e : ExprId} (he : g.LeavesState e) (hg : g.WellFormed)
    (hgh : g.Extends h) (hlt : e < g.size) : h.LeavesState e := by
  rw [leavesState_iff] at he ⊢
  intro src d pos s stop s' hyields
  exact he src d pos s stop s' ((hgh.yields_iff hg (t := .node e) hlt).mpr hyields)

/-- The memo slots of a program. -/
theorem Prepared.memoSlots_of_compile (hg : g.Prepared) {depth : Nat} {rules : List RuleId}
    {o : Options} {p : Program} (hcompile : compileWithin depth g rules o = some (.ok p, k))
    {slot : MemoSlot} (hslot : slot ∈ p.memoSlots) : o.packrat = true ∧
      ∃ root, (g.op root).isMemoized ∧ g.Reach root slot.expr := by
  obtain ⟨e, s, hrules, rfl, hok⟩ := exists_session hcompile
  obtain ⟨rfl, hfinish⟩ := hok p rfl
  obtain ⟨-, -, -, -, hmemo⟩ := Session.finish_eq_ok hfinish
  have hadvances := hg.sound.compileRules hrules
  rw [hmemo] at hslot
  obtain ⟨i, hi⟩ := Array.mem_iff_getElem?.mp hslot
  obtain ⟨-, hpackrat, hserves⟩ := hadvances.compiled.valid.slots i slot hi
  rw [hadvances.options_eq] at hpackrat
  exact ⟨hpackrat, (exists_root hg.sound.wellFormed hadvances.grows hserves).2⟩

end Grammar

/-! ### Programs and walks -/

/-- What the machine finds in its memo table is what recomputing gives: wherever it comes through a
lookup that hits, the expression of the slot evaluates to the entry, and a success leaves the parse
state as it is. -/
def Machine.FaithfulHits (g : Grammar) (p : Program) (input : Array UInt8) : Prop :=
  ∀ st instr use child onHit onMemoFail result, Visits p { text := input } st →
    p.code[st.pc]? = some instr → instr.op = .lookup use child onHit onMemoFail →
    st.memo.find? (memoIndex use st.pos st.parse) = some result →
    ∃ slot depth steps st', p.memoSlots[use.memo]? = some slot ∧
      g.eval { text := input } depth slot.expr st.pos { parse := st.parse, steps } =
        some (result, st') ∧
      (result.isSome → st'.parse = st.parse)

section

variable {g k : Grammar} {o : Options} {depth : Nat} {rule : RuleId} {rules : List RuleId}
    {p : Program}
  {steps : Nat} {input : Array UInt8}

/-- A program compiled from a grammar in which what is recorded is right ends as the walk does, and
its hits are faithful, if what it keeps leaves the parse state as it is. -/
theorem simulates_of_leavesState (hg : g.Sound) (hflags : g.FlagsRaised)
    (hcompile : compileWithin depth g (rule :: rules) o = some (.ok p, k))
    (hkept : ∀ slot ∈ p.memoSlots, g.LeavesState slot.expr)
    (hwalk : g.interpret steps rule input ≠ .diverged) :
    (∃ limit, (run limit p input).ending = .outcome (g.interpret steps rule input)) ∧
      FaithfulHits g p input := by
  obtain ⟨hwf, hsimplified, htables⟩ := hg
  obtain ⟨e, s, hrules, rfl, hok⟩ := Grammar.exists_session hcompile
  obtain ⟨rfl, hfinish⟩ := hok p rfl
  obtain ⟨-, -, -, -, hmemo⟩ := Session.finish_eq_ok hfinish
  have hstart := Session.compiled_start hwf hsimplified htables depth o
  obtain ⟨hadvances, block, hblock, rfl⟩ := hstart.compileRules_cons rfl hrules
  have hs := hadvances.compiled
  have hgrows : g.Grows s.grammar := hadvances.grows
  have hkeeps (i : MemoId) (slot : MemoSlot) (hslot : s.memo[i]? = some slot) :
      slot.expr < g.size ∧ s.grammar.Keeps slot.contextSensitive slot.expr := by
    obtain ⟨-, -, hserves⟩ := hs.valid.slots i slot hslot
    obtain ⟨hlt, -⟩ := Grammar.exists_root hwf hgrows hserves
    have hexpr := hkept slot (by rw [hmemo]; exact Array.mem_of_getElem? hslot)
    exact ⟨hlt, hexpr.extends hwf hgrows.toExtends hlt, hserves.isStateQuery_eq⟩
  obtain ⟨-, body, hbody, -⟩ := hs.lays (Session.head?_first hblock)
  have hbody' : g.body? block.rule = some body := (hgrows.body?_eq _).symm.trans hbody
  obtain ⟨d, r, hyields, houtcome⟩ := Yields.of_interpret hbody' hwalk
  rw [hgrows.toExtends.yields_iff hwf (t := .node body) (hwf.body_lt _ _ hbody')] at hyields
  have hreach := hs.halts hfinish (fun _ _ ↦ hflags.consumes hwf hgrows)
    (fun i slot hslot ↦ (hkeeps i slot hslot).2) hblock hbody hyields
  rw [← houtcome] at hreach
  refine ⟨?_, fun st instr use child onHit onMemoFail result hvisits _ _ hfind ↦ ?_⟩
  · obtain ⟨limit, hlimit⟩ := hreach.exists_run
    exact ⟨limit, hlimit #[]⟩
  · obtain ⟨slot, hslot, d', hentry⟩ := (hreach.invariant hvisits).find hfind
    obtain ⟨hlt, -⟩ := hkeeps _ slot hslot
    have hentry' := (hgrows.toExtends.yields_iff hwf (t := .node slot.expr) hlt).mpr hentry
    obtain ⟨depth', steps', q, st', heval, hresult⟩ := hentry'.eval
    have hq : q = result ∧ (result.isSome → st'.parse = st.parse) := by
      rcases result with - | stop <;> rcases q with - | stop'
      · exact ⟨rfl, fun h ↦ (nomatch h)⟩
      · cases hresult
      · cases hresult
      · obtain ⟨hstop, hparse⟩ := Prod.mk.inj (Option.some.inj hresult)
        exact ⟨congrArg some hstop.symm, fun _ ↦ hparse.symm⟩
    rw [hq.1] at heval
    exact ⟨slot, depth', steps', st', by rw [hmemo]; exact hslot, heval, hq.2⟩

/-- A program compiled from a prepared grammar ends as the walk does, and its hits are faithful. -/
theorem simulates_of_compile (hg : g.Prepared) (hflags : g.FlagsRaised)
    (hsafe : o.packrat = true → g.MemoSafe)
    (hcompile : compileWithin depth g (rule :: rules) o = some (.ok p, k))
    (hwalk : g.interpret steps rule input ≠ .diverged) :
    (∃ limit, (run limit p input).ending = .outcome (g.interpret steps rule input)) ∧
      FaithfulHits g p input := by
  refine simulates_of_leavesState hg.sound hflags hcompile (fun slot hslot ↦ ?_) hwalk
  obtain ⟨hpackrat, root, hroot, hreach⟩ := hg.memoSlots_of_compile hcompile hslot
  exact ((hsafe hpackrat).contained hroot hreach).leavesState

/-- Without kept results a compiled program ends as the walk does. -/
theorem outcome_of_compile (hg : g.Prepared) (hflags : g.FlagsRaised) (ho : o.packrat = false)
    (hcompile : compileWithin depth g (rule :: rules) o = some (.ok p, k))
    (hwalk : g.interpret steps rule input ≠ .diverged) :
    ∃ limit, (run limit p input).ending = .outcome (g.interpret steps rule input) := by
  refine (simulates_of_compile hg hflags (fun h ↦ ?_) hcompile hwalk).1
  rw [ho] at h
  cases h

/-- Texts in nested blocks: `S = 'c' S / <block <def t 'a'*> 'b' <is t 'a'*>>`. -/
def nestedBlocks : Grammar where
  nodes := #[⟨.byte 97, .synthetic⟩, ⟨.star 0 false, .synthetic⟩, ⟨.defSymbol "t" 1, .synthetic⟩,
    ⟨.byte 98, .synthetic⟩, ⟨.isSymbol "t" 1 true, .synthetic⟩, ⟨.sequence [2, 3, 4], .synthetic⟩,
    ⟨.block 5, .synthetic⟩, ⟨.reference 0, .synthetic⟩, ⟨.byte 99, .synthetic⟩,
    ⟨.sequence [8, 7], .synthetic⟩, ⟨.choice [9, 6], .synthetic⟩]
  rules := #[{ name := "S", body := some 10 }]

/-- A compiled program that goes through nested blocks, with tables and specialization. -/
theorem outcome_of_compile_nestedBlocks : ∃ p k,
    compileWithin 20 (Grammar.attachTables nestedBlocks).2 [0]
      { specialize := true, commonHead := true } = some (.ok p, k) ∧
    ∃ limit, (run limit p #[99, 97, 98, 97]).ending = .outcome (.matched 4) := by
  have hwf : nestedBlocks.WellFormed := by decide +kernel
  have hg := Grammar.Prepared.annotated (.built hwf rfl rfl)
  have hflags := Grammar.flagsRaised_of_isTerminal hg.sound.wellFormed (by decide +kernel)
  have hwalk : (Grammar.attachTables nestedBlocks).2.interpret 100 0 #[99, 97, 98, 97] =
      .matched 4 := by
    decide +kernel
  have hok : ((compileWithin 20 (Grammar.attachTables nestedBlocks).2 [0]
      { specialize := true, commonHead := true }).any fun (p, _) ↦ p.isOk) = true := by
    decide +kernel
  obtain ⟨⟨result, k⟩, hcompile, hresult⟩ := (Option.any_eq_true _ _).mp hok
  rcases result with e | p
  · cases hresult
  · refine ⟨p, k, hcompile, ?_⟩
    rw [← hwalk]
    exact outcome_of_compile hg hflags rfl hcompile (by rw [hwalk]; exact fun h ↦ (nomatch h))

/-- Where memoized expressions define nothing, a compiled program ends as the walk does with any
options, and what it finds in its memo table is what recomputing gives. -/
theorem outcome_of_compile_memoSafe (hg : g.Prepared) (hflags : g.FlagsRaised) (hsafe : g.MemoSafe)
    (hcompile : compileWithin depth g (rule :: rules) o = some (.ok p, k))
    (hwalk : g.interpret steps rule input ≠ .diverged) :
    (∃ limit, (run limit p input).ending = .outcome (g.interpret steps rule input)) ∧
      FaithfulHits g p input :=
  simulates_of_compile hg hflags (fun _ ↦ hsafe) hcompile hwalk

/-- A symbol that is matched again through a rule: `S = <def t 'a'*> 'b' (U 'b' / U 'c')` and
`U = <is t 'a'*>`. -/
def symbolAgain : Grammar where
  nodes := #[⟨.byte 97, .synthetic⟩, ⟨.star 0 false, .synthetic⟩, ⟨.defSymbol "t" 1, .synthetic⟩,
    ⟨.isSymbol "t" 1 true, .synthetic⟩, ⟨.reference 1, .synthetic⟩, ⟨.byte 98, .synthetic⟩,
    ⟨.byte 99, .synthetic⟩, ⟨.sequence [4, 5], .synthetic⟩, ⟨.sequence [4, 6], .synthetic⟩,
    ⟨.choice [7, 8], .synthetic⟩, ⟨.sequence [2, 5, 9], .synthetic⟩]
  rules := #[{ name := "S", body := some 10 }, { name := "U", body := some 3 }]

theorem outcome_of_compile_symbolAgain : ∃ p k,
    compileWithin 20 symbolAgain [0, 1] { packrat := true } = some (.ok p, k) ∧
    (∃ limit, (run limit p #[97, 98, 97, 99]).ending = .outcome (.matched 4)) ∧
    FaithfulHits symbolAgain p #[97, 98, 97, 99] := by
  have hwf : symbolAgain.WellFormed := by decide +kernel
  have hg := Grammar.Prepared.built hwf rfl rfl
  have hflags := Grammar.flagsRaised_of_isTerminal hwf (by decide +kernel)
  have hsafe : symbolAgain.MemoSafe := by decide +kernel
  have hwalk : symbolAgain.interpret 100 0 #[97, 98, 97, 99] = .matched 4 := by
    decide +kernel
  have hok : ((compileWithin 20 symbolAgain [0, 1] { packrat := true }).any fun (p, _) ↦ p.isOk) =
      true := by
    decide +kernel
  obtain ⟨⟨result, k⟩, hcompile, hresult⟩ := (Option.any_eq_true _ _).mp hok
  rcases result with e | p
  · cases hresult
  · refine ⟨p, k, hcompile, ?_⟩
    rw [← hwalk]
    exact outcome_of_compile_memoSafe hg hflags hsafe hcompile
      (by rw [hwalk]; exact fun h ↦ (nomatch h))

end

end ParsingMachine
