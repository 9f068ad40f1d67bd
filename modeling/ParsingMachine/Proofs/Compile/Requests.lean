import ParsingMachine.Proofs.Compile.Reuse

/-!
# Sessions that go on after errors

A client may keep a session and ask it to compile one rule after another (`Session.request`),
whatever becomes of each. A rule without a body is refused, and the session goes on as it was; a
rule that has a block is left alone.

So nothing that is refused or repeated leaves a trace (`Session.requests_eq_compile`): the requests,
made one after the other, and then finishing the session give the result and the grammar that
compiling gives for the rules that are defined, each once.

The sessions in between are described by `Session.Serves`: their rules are those of the grammar, and
only rules with a body have a block. Requests keep it, however the grammar grows under them.

Under this invariant what becomes of a request can be told from the grammar that the session was
started with, as if nothing had been compiled yet. A rule without a body is refused whatever came
before, for it has no block; a rule with a block is left alone; and any other rule is compiled, if
encoding it ends within the depth. The answers are therefore a function of the grammar and the rule
(`Session.reply`), and the list of requests can be shortened twice, first by the rules that are
refused and then by repetitions, with the same session in the end.

The equation holds also where encoding does not end: then neither side has a value.

## Main statements

* `eq_of_request_eq_error`: a request that fails leaves the session as it was.
* `Serves.compileRule`: what compiling a rule does to the blocks.
* `Serves.mapM_request`: requests leave the session that compiling the defined rules leaves.
* `Serves.compileRules_eraseDups`: repetitions may be left out.
* `requests_eq_compile`: requests in any order, and finishing, are one compilation.
-/

namespace ParsingMachine

/-- Rules stay as they are when nodes are appended and simpler nodes recorded. -/
theorem Grammar.enduring_rules (rules : Array Rule) : Enduring fun g ↦ g.rules = rules where
  push _ _ _ hg := hg
  setSimplified _ _ _ hg := hg

namespace Session

variable {g : Grammar} {s s' : Session} {rule other : RuleId} {rules : List RuleId}

/-! ### One request -/

/-- A request compiles the rule; after an error the session goes on as it was. -/
theorem request_eq (s : Session) (rule : RuleId) :
    request rule s = (s.compileRule rule).map fun result ↦
      (result.map fun _ ↦ (), result.toOption.getD s) := by
  rw [compileRule]
  show (ite ((s.block? rule).isSome = true) _ _ : Encoder (Except CompileError Unit)) s = _
  split
  · rfl
  cases s.grammar.body? rule with
  | none => rfl
  | some body =>
    show (encodeRule rule body s).bind _ = ((encodeRule rule body s).map _).map _
    cases encodeRule rule body s <;> rfl

/-- A request that fails leaves the session as it was. -/
theorem eq_of_request_eq_error {e : CompileError} (h : request rule s = some (.error e, s')) :
    s' = s := by
  rw [request_eq] at h
  obtain ⟨result, -, hresult⟩ := Option.map_eq_some_iff.mp h
  cases result with
  | ok s₁ => cases hresult
  | error e' =>
    cases hresult
    rfl

/-! ### What requests keep -/

/-- A session that has compiled rules of a grammar. -/
structure Serves (g : Grammar) (s : Session) : Prop where
  /-- The rules are those of the grammar. -/
  rules_eq : s.grammar.rules = g.rules
  /-- The jump tables are complete. -/
  fullTables : s.grammar.FullTables
  /-- Only rules with a body have a block. -/
  defined : ∀ rule, (s.block? rule).isSome → (g.body? rule).isSome

/-- A session that was just started serves its grammar. -/
theorem serves_start (hg : g.FullTables) (depth : Nat) (o : Options) :
    Serves g (.start depth g o) where
  rules_eq := rfl
  fullTables := hg
  defined rule h := by simp [start, block?] at h

/-- Adding a block gives one to its rule, and to no other. -/
theorem isSome_block?_addBlock (s : Session) (rule other : RuleId) (head : InstrId) :
    ((s.addBlock rule head).block? other).isSome ↔ (s.block? other).isSome ∨ rule = other := by
  simp [block?, addBlock, Array.find?_push]

namespace Serves

theorem body?_eq (hs : s.Serves g) (rule : RuleId) : s.grammar.body? rule = g.body? rule := by
  rw [Grammar.body?, Grammar.body?, hs.rules_eq]

theorem ruleName_eq (hs : s.Serves g) (rule : RuleId) :
    s.grammar.ruleName rule = g.ruleName rule := by
  rw [Grammar.ruleName, Grammar.ruleName, hs.rules_eq]

/-- Compiling a rule keeps this, and gives a block to the rule and to no other. -/
theorem compileRule (hs : s.Serves g) (h : s.compileRule rule = some (.ok s')) :
    s'.Serves g ∧ ∀ other, (s'.block? other).isSome ↔ (s.block? other).isSome ∨ rule = other := by
  rcases exists_of_compileRule h with ⟨hblock, rfl⟩ | ⟨-, body, u, hbody, hrule⟩
  · exact ⟨hs, fun other ↦ ⟨.inl, fun hor ↦ hor.elim id fun heq ↦ heq ▸ hblock⟩⟩
  have hrules := keeps_compileRule (Grammar.enduring_rules g.rules) hs.fullTables hs.rules_eq h
  have htables := keeps_compileRule Grammar.lasting_fullTables.toEnduring hs.fullTables
    hs.fullTables h
  obtain ⟨ret, s₁, head, s₂, hret, hhead, rfl⟩ := exists_of_encodeRule hrule
  obtain ⟨hemits, rfl, hsize, -⟩ := Encoder.emits_emitWith hret
  obtain ⟨hemits', -⟩ :=
    (Encoder.types_encode _ body).run hsize (hemits.fullTables hs.fullTables) hhead
  have hblocks (other : RuleId) : ((s₂.addBlock rule head).block? other).isSome ↔
      (s.block? other).isSome ∨ rule = other := by
    rw [isSome_block?_addBlock, block?, block?, (hemits.trans hemits').blocks_eq]
  refine ⟨⟨hrules, htables, fun other hother ↦ ?_⟩, hblocks⟩
  rcases (hblocks other).mp hother with hold | rfl
  · exact hs.defined other hold
  · rw [← hs.body?_eq, hbody]
    rfl

/-- A rule without a body is refused, whatever was compiled before. -/
theorem compileRule_of_undefined (hs : s.Serves g) (hrule : g.body? rule = none) :
    s.compileRule rule = some (.error (.undefinedRule (g.ruleName rule))) := by
  have hblock : ¬(s.block? rule).isSome := fun h ↦ by
    have hbody := hs.defined rule h
    rw [hrule] at hbody
    cases hbody
  rw [Session.compileRule, if_neg hblock, hs.body?_eq, hrule, hs.ruleName_eq]

/-- A rule with a body is compiled if encoding comes to an end. -/
theorem compileRule_of_defined (hs : s.Serves g) (hrule : (g.body? rule).isSome) :
    s.compileRule rule = none ∨ ∃ s', s.compileRule rule = some (.ok s') := by
  obtain ⟨body, hbody⟩ := Option.isSome_iff_exists.mp hrule
  rw [Session.compileRule, hs.body?_eq, hbody]
  split
  · exact .inr ⟨s, rfl⟩
  · show (encodeRule rule body s).map _ = none ∨ ∃ s', (encodeRule rule body s).map _ = _
    cases encodeRule rule body s with
    | none => exact .inl rfl
    | some result => exact .inr ⟨result.2, rfl⟩

/-! ### Rules that have a block -/

/-- Rules that have a block may be left out. -/
theorem compileRules_filter_ne (hs : s.Serves g) (hrule : (s.block? rule).isSome)
    (rules : List RuleId) :
    s.compileRules (rules.filter (· != rule)) = s.compileRules rules := by
  induction rules generalizing s with
  | nil => rfl
  | cons first rules ih =>
    by_cases heq : first = rule
    · subst heq
      have hskip : s.compileRule first = some (.ok s) := if_pos hrule
      rw [List.filter_cons_of_neg (by simp), ih hs hrule, compileRules, hskip]
    · rw [List.filter_cons_of_pos (by simpa using heq), compileRules, compileRules]
      split
      · rfl
      · rfl
      · rename_i s₁ hfirst
        obtain ⟨hs₁, hblocks⟩ := hs.compileRule hfirst
        exact ih hs₁ ((hblocks rule).mpr (.inl hrule))

/-- Repetitions may be left out. -/
theorem compileRules_eraseDups (hs : s.Serves g) (rules : List RuleId) :
    s.compileRules rules.eraseDups = s.compileRules rules := by
  -- what is left after the first rule is no tail of the list, but shorter
  induction hn : rules.length using Nat.strongRecOn generalizing s rules with
  | ind n ih =>
    cases rules with
    | nil => rfl
    | cons first rules =>
      rw [List.eraseDups_cons, compileRules, compileRules]
      split
      · rfl
      · rfl
      · rename_i s₁ hfirst
        obtain ⟨hs₁, hblocks⟩ := hs.compileRule hfirst
        have hlength : (rules.filter (· != first)).length < n := by
          rw [← hn]
          exact Nat.lt_succ_of_le (List.length_filter_le _ _)
        exact (ih _ hlength hs₁ _ rfl).trans
          (hs₁.compileRules_filter_ne ((hblocks first).mpr (.inr rfl)) rules)

end Serves

/-! ### Requests one after the other -/

/-- The answer to a request for a rule of a grammar. -/
def reply (g : Grammar) (rule : RuleId) : Except CompileError Unit :=
  if (g.body? rule).isSome then .ok () else .error (.undefinedRule (g.ruleName rule))

theorem mapM_request_cons (s : Session) (rule : RuleId) (rules : List RuleId) :
    (rule :: rules).mapM request s = (request rule s).bind fun (answer, s₁) ↦
      (rules.mapM request s₁).map fun (answers, s₂) ↦ (answer :: answers, s₂) := by
  rw [List.mapM_cons]
  show ((request rule s).bind fun x ↦ (rules.mapM request x.2).bind fun y ↦
    some (x.1 :: y.1, y.2)) = _
  refine congrArg _ (funext fun (answer, s₁) ↦ ?_)
  show (rules.mapM request s₁).bind _ = (rules.mapM request s₁).map _
  cases rules.mapM request s₁ <;> rfl

namespace Serves

/-- Requests, one after the other, leave the session that compiling the defined rules leaves, and
each is answered by whether its rule is defined. -/
theorem mapM_request (hs : s.Serves g) (rules : List RuleId) :
    rules.mapM request s =
      (s.compileRules (rules.filter fun rule ↦ (g.body? rule).isSome)).map fun (_, s') ↦
        (rules.map (reply g), s') := by
  induction rules generalizing s with
  | nil => rfl
  | cons rule rules ih =>
    rw [mapM_request_cons, request_eq]
    rcases hrule : g.body? rule with - | body
    · -- the rule is refused, and compiling passes over it
      have hundefined : ¬(g.body? rule).isSome := by simp [hrule]
      rw [List.filter_cons, if_neg hundefined, hs.compileRule_of_undefined hrule]
      show (rules.mapM request s).map _ = _
      rw [ih hs, Option.map_map, List.map_cons, reply, if_neg hundefined]
      rfl
    · have hdefined : (g.body? rule).isSome := by simp [hrule]
      rw [List.filter_cons, if_pos hdefined, compileRules]
      rcases hs.compileRule_of_defined hdefined with hcompile | ⟨s₁, hcompile⟩
      · rw [hcompile]
        rfl
      · rw [hcompile]
        show (rules.mapM request s₁).map _ = _
        rw [ih (hs.compileRule hcompile).1, Option.map_map, List.map_cons, reply, if_pos hdefined]
        rfl

/-- Defined rules are compiled without an error. -/
theorem eq_none_of_compileRules (hs : s.Serves g) (hdefined : ∀ rule ∈ rules, (g.body? rule).isSome)
    {e : Option CompileError} (h : s.compileRules rules = some (e, s')) : e = none := by
  induction rules generalizing s with
  | nil =>
    cases h
    rfl
  | cons rule rules ih =>
    rw [List.forall_mem_cons] at hdefined
    rw [compileRules] at h
    rcases hs.compileRule_of_defined hdefined.1 with hcompile | ⟨s₁, hcompile⟩
    · rw [hcompile] at h
      cases h
    · rw [hcompile] at h
      exact ih (hs.compileRule hcompile).1 hdefined.2 h

end Serves

/-- A refused request leaves the session as it was, and a repeated one changes nothing. Requests for
any rules, in any order, are answered by an error exactly for the rules without a body; finishing
the session then gives the program or the error, and the grammar, that compiling gives for the
defined rules without repetitions. -/
theorem requests_eq_compile (hg : g.FullTables) (depth : Nat) (rules : List RuleId) (o : Options) :
    (∀ s rule e s', request rule s = some (.error e, s') → s' = s) ∧
      ((rules.mapM request).run (.start depth g o)).map
          (fun (answers, s) ↦ (answers, s.finish, s.grammar)) =
        (compileWithin depth g (rules.filter fun rule ↦ (g.body? rule).isSome).eraseDups o).map
          fun (result, h) ↦ (rules.map (reply g), result, h) := by
  refine ⟨fun s rule e s' ↦ eq_of_request_eq_error, ?_⟩
  have hs := serves_start hg depth o
  rw [StateT.run, hs.mapM_request, compileWithin, hs.compileRules_eraseDups]
  rcases hrules : (start depth g o).compileRules _ with - | ⟨e, s⟩
  · rfl
  · obtain rfl := hs.eq_none_of_compileRules (fun rule hrule ↦ (List.mem_filter.mp hrule).2) hrules
    rfl

/-- The rule without a body is asked for first and once more, and another one twice. -/
theorem requests_eq_compile_usedGrammar :
    ∃ g s p, Edit.applyAll {} usedGrammar = some g ∧ g.FullTables ∧ g.body? 2 = none ∧
      ([2, 0, 0, 2, 1, 0].mapM request).run (.start 20 g { specialize := true }) =
        some ([.error (.undefinedRule "U"), .ok (), .ok (), .error (.undefinedRule "U"), .ok (),
          .ok ()], s) ∧
      s.finish = .ok p ∧
      compileWithin 20 g [0, 1] { specialize := true } = some (.ok p, s.grammar) := by
  have hchecks : ((Edit.applyAll {} usedGrammar).any fun g ↦ decide
      (g.body? 0 = some 8 ∧ g.body? 1 = some 5 ∧ g.body? 2 = none ∧ g.ruleName 2 = "U") &&
        (compileWithin 20 g [0, 1] { specialize := true }).any fun result ↦
          result.1.toOption.any fun _ ↦ true) = true := by decide +kernel
  obtain ⟨g, hg, hcheck⟩ := (Option.any_eq_true _ _).mp hchecks
  obtain ⟨hbodies, hcheck⟩ := Bool.and_eq_true_iff.mp hcheck
  obtain ⟨hS, hD, hU, hname⟩ := of_decide_eq_true hbodies
  obtain ⟨p, k, hcompile, -⟩ := Grammar.exists_program 20 g [0, 1] _ _ hcheck
  have hfull : g.FullTables :=
    (Edit.retains_all (Grammar.fullTables_of_tables_empty rfl) hg).2
  obtain ⟨-, hrequests⟩ := requests_eq_compile hfull 20 [2, 0, 0, 2, 1, 0] { specialize := true }
  have hrules :
      ([2, 0, 0, 2, 1, 0].filter fun rule ↦ (g.body? rule).isSome).eraseDups = [0, 1] := by
    simp only [List.filter, hS, hD, hU, Option.isSome]
    rfl
  rw [hrules, hcompile] at hrequests
  obtain ⟨⟨answers, s⟩, hrun, heq⟩ := Option.map_eq_some_iff.mp hrequests
  obtain ⟨hanswers, hfinish, hgrammar⟩ : answers = _ ∧ s.finish = _ ∧ s.grammar = _ := by
    simpa only [Prod.mk.injEq] using heq
  refine ⟨g, s, p, hg, hfull, hU, ?_, hfinish, hgrammar ▸ hcompile⟩
  rw [hrun, hanswers]
  simp [reply, hS, hD, hU, hname]

end Session

end ParsingMachine
