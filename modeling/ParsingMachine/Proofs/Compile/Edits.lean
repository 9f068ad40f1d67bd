import ParsingMachine.Proofs.Compile.Brackets
import ParsingMachine.Proofs.Compile.Correctness

/-!
# Grammars that change after they were analysed

A grammar may be built, analysed and compiled in any order (`Edit`). What is recorded for an
expression was found by looking through references into the bodies of rules, and it stays when one
of these rules gets another body. The program may then not do what the grammar says
(`staleRewrite`).

Nothing goes wrong when a rule gets its first body, whatever was recorded before. Another body may
replace it as long as nothing that is recorded relies on the rule (`Grammar.MayDefine`). After edits
that obey this, in any order, what is recorded is right (`Edit.sound_applyAll`), and programs end as
walks do (`outcome_of_edits`).

A rule without a body stops every analysis that comes to it, so nothing was recorded that could
become wrong with the first body. That is the reason for the difference, and it needs no bookkeeping
of which rules an analysis has gone through: the condition is about the grammar as it is when the
rule is defined, and it can be decided there.

That an expression is analysed means that something was recorded for it. A rule that takes part in
matching such an expression may have been looked into; whether it was is not asked. For all other
rules the grammar before and the grammar after agree on every expression for which something is
recorded (`Grammar.MayDefine.agrees`), and right answers stay right between grammars that agree.

Operands have to come before their nodes in the end. This is asked of the last grammar only, as
nodes are never changed and all grammars before have fewer.

Compiling is one of the edits. It adds to the grammar what it simplified and factored, so the next
program may rely on what an earlier one has left.

## Main statements

* `outcome_staleRewrite`: a program that does not do what its grammar says.
* `Grammar.Sound.defineRule`: a body that may be given leaves side tables right.
* `Edit.sound_applyAll`: so do harmless edits, in any order.
* `outcome_of_edits`: after these, programs end as walks do.
-/

namespace ParsingMachine

open Machine

/-! ### Edits -/

/-- An operation on a grammar that is built, analysed and compiled. -/
inductive Edit where
  /-- A node is appended. -/
  | alloc (op : Operator) (span : Span)
  /-- A rule is declared, unless there is one of this name. -/
  | declare (name : String)
  /-- A rule gets a body, its first one or another one. -/
  | define (rule : RuleId) (body : ExprId)
  /-- A rule is declared and gets a body. -/
  | add (name : String) (body : ExprId)
  /-- A simpler node is looked for. -/
  | simplify (e : ExprId)
  /-- Jump tables are attached. -/
  | attachTables
  /-- Rules are compiled. -/
  | compile (rules : List RuleId) (o : Options)

namespace Grammar

/-- Something is recorded for an expression: another node that may be encoded in its place, or a
jump table. -/
def analyzed (g : Grammar) (e : ExprId) : Bool :=
  (g.simplified? e).any (· != e) || (g.table? e).isSome

/-- A rule takes part in matching an expression for which something is recorded. -/
def Relies (g : Grammar) (rule : RuleId) : Prop :=
  ∃ e, g.analyzed e ∧ ∃ x, g.Reach e x ∧ g.op x = .reference rule

/-- A rule may get a body: it has none or the same, or nothing that is recorded relies on it. -/
def MayDefine (g : Grammar) (rule : RuleId) (body : ExprId) : Prop :=
  ∀ old ∈ g.body? rule, old = body ∨ ¬g.Relies rule

/-- The search that encoding makes decides it. -/
theorem relies_iff (g : Grammar) (rule : RuleId) : g.Relies rule ↔
    ∃ e ∈ List.range g.size, g.analyzed e ∧ ∃ x ∈ g.matchedFrom [e], g.op x = .reference rule := by
  constructor
  · rintro ⟨e, he, x, hx, hop⟩
    have hlt : e < g.size := by
      refine Nat.lt_of_not_le fun hle ↦ ?_
      rcases Relation.ReflTransGen.cases_head hx with rfl | ⟨y, hy, -⟩
      · rw [op_of_size_le hle] at hop
        cases hop
      · rw [successors_of_size_le hle] at hy
        cases hy
    exact ⟨e, List.mem_range.mpr hlt, he, x,
      (mem_matchedFrom [e]).mpr ⟨e, List.mem_singleton_self e, hx⟩, hop⟩
  · rintro ⟨e, -, he, x, hx, hop⟩
    obtain ⟨root, hroot, hreach⟩ := (mem_matchedFrom [e]).mp hx
    rw [List.mem_singleton.mp hroot] at hreach
    exact ⟨e, he, x, hreach, hop⟩

instance (g : Grammar) (rule : RuleId) : Decidable (g.Relies rule) :=
  decidable_of_iff' _ (g.relies_iff rule)

instance (g : Grammar) (rule : RuleId) (body : ExprId) : Decidable (g.MayDefine rule body) :=
  inferInstanceAs (Decidable (∀ old ∈ g.body? rule, old = body ∨ ¬g.Relies rule))

end Grammar

namespace Edit

/-- The grammar after an edit. There is none if a rule or a node is looked up that does not exist,
or if compiling does not end. -/
def apply (g : Grammar) : Edit → Option Grammar
  | alloc op span => some (g.push op span)
  | declare name => some (g.declareRule name).2
  | define rule body =>
    if rule < g.ruleCount ∧ body < g.size then some (g.defineRule rule body) else none
  | add name body => if body < g.size then some (g.addRule name body).2 else none
  | simplify e => if e < g.size then some (g.simplify e).2 else none
  | attachTables => some g.attachTables.2
  | compile rules o => (ParsingMachine.compile g rules o).map Prod.snd

/-- The grammar after edits, one after the other. -/
def applyAll (g : Grammar) : List Edit → Option Grammar
  | [] => some g
  | edit :: edits => (edit.apply g).bind fun h ↦ applyAll h edits

/-- The edit replaces no body that something recorded relies on. -/
def Harmless (g : Grammar) : Edit → Prop
  | define rule body => g.MayDefine rule body
  | add name body => (g.declareRule name).2.MayDefine (g.declareRule name).1 body
  | _ => True

/-- None of the edits does, when they are made one after the other. -/
def HarmlessAll (g : Grammar) : List Edit → Prop
  | [] => True
  | edit :: edits => edit.Harmless g ∧ ∀ h ∈ edit.apply g, HarmlessAll h edits

instance (g : Grammar) : (edit : Edit) → Decidable (edit.Harmless g)
  | define rule body => inferInstanceAs (Decidable (g.MayDefine rule body))
  | add name body =>
    inferInstanceAs (Decidable ((g.declareRule name).2.MayDefine (g.declareRule name).1 body))
  | alloc _ _ | declare _ | simplify _ | attachTables | compile _ _ => .isTrue trivial

instance decidableHarmlessAll (g : Grammar) : (edits : List Edit) → Decidable (HarmlessAll g edits)
  | [] => .isTrue trivial
  | edit :: edits =>
    have (h : Grammar) : Decidable (HarmlessAll h edits) := decidableHarmlessAll h edits
    inferInstanceAs (Decidable (edit.Harmless g ∧ ∀ h ∈ edit.apply g, HarmlessAll h edits))

end Edit

/-! ### What is recorded stays right -/

namespace Grammar

variable {g h : Grammar} {rule : RuleId} {body : ExprId}

/-- A right table has an entry for each slot. -/
theorem SoundTables.fullTables (hs : g.SoundTables) : g.FullTables :=
  fun e table htable ↦ (hs e table htable).length_eq

/-- What is recorded is right in a grammar that agrees on the expressions it is recorded for. -/
theorem Sound.agrees (hg : g.Sound) (hh : h.WellFormed) (hretains : g.Retains h)
    (hsimplified : h.simplified = g.simplified) (htables : h.tables = g.tables)
    (hagrees : ∀ e, g.analyzed e → g.Agrees e h) : h.Sound where
  wellFormed := hh
  simplified := by
    refine hg.simplified.agrees hretains.size_le hsimplified fun e other hother hne ↦ ?_
    exact hagrees e (by simp [analyzed, hother, hne])
  tables := hg.tables.agrees htables fun e htable ↦ hagrees e (by simp [analyzed, htable])

/-- A new node is not spoken of in the side tables. -/
theorem Sound.push (hg : g.Sound) (op : Operator) (span : Span)
    (hup : (g.push op span).BottomUp) : (g.push op span).Sound :=
  hg.extends ⟨.push g op span, fun _ ↦ rfl⟩ hup rfl rfl

/-- A declared rule has no body, as if it were not there. -/
theorem extends_declareRule (name : String) (g : Grammar) : g.Extends (g.declareRule name).2 := by
  unfold declareRule
  split
  · exact .refl g
  · refine ⟨.of_nodes_eq rfl, fun rule ↦ ?_⟩
    simp only [body?, Array.getElem?_push]
    split
    · rename_i hrule
      rw [hrule, Array.getElem?_eq_none (Nat.le_refl _)]
      rfl
    · rfl

theorem declareRule_eq (name : String) (g : Grammar) :
    ∃ rules, (g.declareRule name).2 = { g with rules } := by
  unfold declareRule
  split
  · exact ⟨g.rules, rfl⟩
  · exact ⟨_, rfl⟩

/-- Nor is a new rule without a body. -/
theorem Sound.declareRule (hg : g.Sound) (name : String) : (g.declareRule name).2.Sound := by
  have hgh := extends_declareRule name g
  obtain ⟨rules, heq⟩ := declareRule_eq name g
  rw [heq] at hgh ⊢
  exact hg.extends hgh (Retains.bottomUp (.of_nodes_eq rfl) hg.wellFormed.bottomUp) rfl rfl

/-- Adding a rule is declaring and defining it. -/
theorem addRule_eq (name : String) (body : ExprId) (g : Grammar) : (g.addRule name body).2 =
    (g.declareRule name).2.defineRule (g.declareRule name).1 body :=
  rfl

/-- The rule of a name is in the table once it is declared. -/
theorem declareRule_lt (name : String) (g : Grammar) :
    (g.declareRule name).1 < (g.declareRule name).2.ruleCount := by
  unfold declareRule
  split
  · rename_i rule hrule
    obtain ⟨hlt, -⟩ := Array.findIdx?_eq_some_iff_getElem.mp hrule
    exact hlt
  · simp [ruleCount]

/-- Where a rule may get a body, nothing that is recorded is about another one. -/
theorem MayDefine.agrees (h : g.MayDefine rule body) (hrule : rule < g.ruleCount) {e : ExprId}
    (he : g.analyzed e) : g.Agrees e (g.defineRule rule body) where
  toRetains := .of_nodes_eq rfl
  body?_eq x other hx hop old hold := by
    rw [body?_defineRule hrule]
    split
    · rename_i heq
      subst heq
      rcases h old hold with rfl | hnot
      · rfl
      · exact absurd ⟨e, he, x, hx, hop⟩ hnot
    · exact hold

theorem WellFormed.defineRule (hg : g.WellFormed) (hrule : rule < g.ruleCount)
    (hbody : body < g.size) : (g.defineRule rule body).WellFormed where
  bottomUp := Retains.bottomUp (.of_nodes_eq rfl) hg.bottomUp
  body_lt other old hold := by
    rw [body?_defineRule hrule] at hold
    split at hold
    · cases hold
      exact hbody
    · exact hg.body_lt other old hold

/-- A body that may be given leaves right what is recorded. -/
theorem Sound.defineRule (hg : g.Sound) (hrule : rule < g.ruleCount) (hbody : body < g.size)
    (h : g.MayDefine rule body) : (g.defineRule rule body).Sound :=
  hg.agrees (hg.wellFormed.defineRule hrule hbody) (.of_nodes_eq rfl) rfl rfl fun _ he ↦
    h.agrees hrule he

end Grammar

namespace Session

variable {s s' : Session} {P : Grammar → Prop}

/-- Compiling a rule keeps what simplifying and factoring keep. -/
theorem keeps_compileRule (hP : Grammar.Enduring P) (htables : s.grammar.FullTables)
    (hs : P s.grammar) {rule : RuleId} (h : s.compileRule rule = some (.ok s')) : P s'.grammar := by
  rcases exists_of_compileRule h with ⟨-, rfl⟩ | ⟨-, body, u, -, hrule⟩
  · exact hs
  · obtain ⟨(ret : Nat), s₁, (head : Nat), s₂, hret, hhead, rfl⟩ := exists_of_encodeRule hrule
    obtain ⟨hemits, rfl, hsize, -⟩ := Encoder.emits_emitWith hret
    obtain ⟨hemits', -⟩ :=
      (Encoder.types_encode _ body).run hsize (hemits.fullTables htables) hhead
    exact hemits'.keeps P hP (hemits.keeps P hP hs)

/-- So does compiling rules, to the end or to an error. -/
theorem keeps_compileRules (hP : Grammar.Enduring P) (htables : s.grammar.FullTables)
    (hs : P s.grammar) {rules : List RuleId} {e : Option CompileError}
    (h : s.compileRules rules = some (e, s')) : P s'.grammar := by
  refine (keeps_compileRules_of_step (P := fun s ↦ s.grammar.FullTables ∧ P s.grammar)
    (fun rule s s' hs hrule ↦ ?_) h ⟨htables, hs⟩).2
  exact ⟨keeps_compileRule Grammar.lasting_fullTables.toEnduring hs.1 hs.1 hrule,
    keeps_compileRule hP hs.1 hs.2 hrule⟩

end Session

namespace Grammar

variable {g h : Grammar} {P : Grammar → Prop}

/-- Compiling keeps what simplifying and factoring keep. -/
theorem keeps_compileWithin (hP : Enduring P) (htables : g.FullTables) (hg : P g) {depth : Nat}
    {rules : List RuleId} {o : Options} {result : Except CompileError Program}
    (hcompile : compileWithin depth g rules o = some (result, h)) : P h := by
  obtain ⟨e, s, hrules, rfl, -⟩ := exists_session hcompile
  exact Session.keeps_compileRules hP htables hg hrules

end Grammar

namespace Edit

variable {g h : Grammar} {edit : Edit} {edits : List Edit}

theorem exists_compile {rules : List RuleId} {o : Options}
    (happly : (compile rules o).apply g = some h) :
    ∃ result, compileWithin g.encodingDepth g rules o = some (result, h) := by
  obtain ⟨⟨result, h⟩, hcompile, rfl⟩ := Option.map_eq_some_iff.mp happly
  exact ⟨result, hcompile⟩

/-- The nodes stay, and jump tables stay complete. -/
theorem retains (hg : g.FullTables) (happly : edit.apply g = some h) :
    g.Retains h ∧ h.FullTables := by
  have hretains := Grammar.lasting_retains g
  have hfull := Grammar.lasting_fullTables
  cases edit with
  | alloc op span =>
    cases happly
    exact ⟨.push g op span, hfull.push g op span hg⟩
  | declare name =>
    cases happly
    obtain ⟨rules, heq⟩ := Grammar.declareRule_eq name g
    rw [heq]
    exact ⟨.of_nodes_eq rfl, hg⟩
  | define rule body =>
    obtain ⟨-, ⟨⟩⟩ := Option.ite_none_right_eq_some.mp happly
    exact ⟨.of_nodes_eq rfl, hg⟩
  | add name body =>
    obtain ⟨-, ⟨⟩⟩ := Option.ite_none_right_eq_some.mp happly
    obtain ⟨rules, heq⟩ := Grammar.declareRule_eq name g
    rw [Grammar.addRule_eq, heq]
    exact ⟨.of_nodes_eq rfl, hg⟩
  | simplify e =>
    obtain ⟨-, ⟨⟩⟩ := Option.ite_none_right_eq_some.mp happly
    exact ⟨Grammar.keeps_simplify hretains.toEnduring e g (.refl g),
      Grammar.keeps_simplify hfull.toEnduring e g hg⟩
  | attachTables =>
    cases happly
    exact ⟨Grammar.keeps_attachTables hretains g (.refl g), Grammar.keeps_attachTables hfull g hg⟩
  | compile rules o =>
    obtain ⟨result, hcompile⟩ := exists_compile happly
    exact ⟨Grammar.keeps_compileWithin hretains.toEnduring hg (.refl g) hcompile,
      Grammar.keeps_compileWithin hfull.toEnduring hg hg hcompile⟩

theorem retains_all (hg : g.FullTables) (happly : applyAll g edits = some h) :
    g.Retains h ∧ h.FullTables := by
  induction edits generalizing g with
  | nil =>
    cases happly
    exact ⟨.refl _, hg⟩
  | cons edit edits ih =>
    obtain ⟨g₁, hedit, hrest⟩ := Option.bind_eq_some_iff.mp happly
    obtain ⟨hretains, hfull⟩ := retains hg hedit
    obtain ⟨hretains', hfull'⟩ := ih hfull hrest
    exact ⟨hretains.trans hretains', hfull'⟩

/-- A harmless edit leaves right what is recorded. -/
theorem sound (hg : g.Sound) (hharmless : edit.Harmless g) (happly : edit.apply g = some h)
    (hup : h.BottomUp) : h.Sound := by
  cases edit with
  | alloc op span =>
    cases happly
    exact hg.push op span hup
  | declare name =>
    cases happly
    exact hg.declareRule name
  | define rule body =>
    obtain ⟨⟨hrule, hbody⟩, ⟨⟩⟩ := Option.ite_none_right_eq_some.mp happly
    exact hg.defineRule hrule hbody hharmless
  | add name body =>
    obtain ⟨hbody, ⟨⟩⟩ := Option.ite_none_right_eq_some.mp happly
    have hsize := (Grammar.extends_declareRule name g).size_le
    rw [Grammar.addRule_eq]
    exact (hg.declareRule name).defineRule (Grammar.declareRule_lt name g)
      (Nat.lt_of_lt_of_le hbody hsize) hharmless
  | simplify e =>
    obtain ⟨he, ⟨⟩⟩ := Option.ite_none_right_eq_some.mp happly
    exact hg.simplify he
  | attachTables =>
    cases happly
    exact hg.attachTables
  | compile rules o =>
    obtain ⟨result, hcompile⟩ := exists_compile happly
    exact hg.compileWithin hcompile

/-- What is recorded after harmless edits is right. -/
theorem sound_applyAll (hg : g.Sound) (hharmless : HarmlessAll g edits)
    (happly : applyAll g edits = some h) (hup : h.BottomUp) : h.Sound := by
  induction edits generalizing g with
  | nil =>
    cases happly
    exact hg
  | cons edit edits ih =>
    obtain ⟨g₁, hedit, hrest⟩ := Option.bind_eq_some_iff.mp happly
    obtain ⟨-, hfull⟩ := retains hg.tables.fullTables hedit
    have hsound := sound hg hharmless.1 hedit ((retains_all hfull hrest).1.bottomUp hup)
    exact ih hsound (hharmless.2 g₁ hedit) hrest

end Edit

/-! ### Programs after edits -/

/-- Without definitions every success leaves the parse state as it is. -/
theorem Grammar.contained_of_isDefinition {g : Grammar}
    (h : ∀ e, (g.op e).isDefinition = false) (e : ExprId) : g.Contained e := by
  refine fun x _ ↦ ⟨h x, fun inner _ y _ hop ↦ ?_⟩
  have hfalse := h y
  rw [hop] at hfalse
  cases hfalse

theorem Grammar.isDefinition_eq_false {g : Grammar}
    (h : ∀ e < g.size, (g.op e).isDefinition = false) (e : ExprId) :
    (g.op e).isDefinition = false := by
  by_cases he : e < g.size
  · exact h e he
  · rw [op_of_size_le (Nat.le_of_not_lt he)]
    rfl

/-- Making edits and compiling shows what grammar and program there are, and what can be tested of
them. -/
theorem Edit.exists_program (edits : List Edit) (rules : List RuleId) (o : Options)
    (check : Grammar → Bool) (test : Program → Bool)
    (h : (applyAll {} edits).any (fun g ↦ decide (g.WellFormed ∧
      (∀ e < g.size, ∀ inner < e, g.op e = .star inner false ∨ g.op e = .plus inner false →
        (g.op inner).isTerminal) ∧ (∀ e < g.size, (g.op e).isDefinition = false) ∧ check g) &&
      (ParsingMachine.compile g rules o).any fun result ↦ result.1.toOption.any test) = true) :
    ∃ g p k, applyAll {} edits = some g ∧ g.BottomUp ∧ g.FlagsRaised ∧
      (∀ e, (g.op e).isDefinition = false) ∧ check g ∧
      ParsingMachine.compile g rules o = some (.ok p, k) ∧ test p := by
  obtain ⟨g, hg, htest⟩ := (Option.any_eq_true _ _).mp h
  rw [Bool.and_eq_true, decide_eq_true_iff] at htest
  obtain ⟨⟨hwf, hflags, hplain, hcheck⟩, hcompile⟩ := htest
  obtain ⟨p, k, hcompile, hrun⟩ := Grammar.exists_program g.encodingDepth g rules o test hcompile
  exact ⟨g, p, k, hg, hwf.bottomUp, Grammar.flagsRaised_of_isTerminal hwf hflags,
    Grammar.isDefinition_eq_false hplain, hcheck, hcompile, hrun⟩

/-- A rule that gets another body after a reference to it was simplified: `R = 'a'` and `S = R`,
then `R = 'b'`. -/
def staleRewrite : List Edit :=
  [.declare "R", .alloc (.byte 97) .synthetic, .define 0 0, .alloc (.reference 0) .synthetic,
    .add "S" 1, .simplify 1, .alloc (.byte 98) .synthetic, .define 0 2]

/-- The program still looks for the old body. -/
theorem outcome_staleRewrite : ∃ g p k, Edit.applyAll {} staleRewrite = some g ∧ g.BottomUp ∧
    g.FlagsRaised ∧ (∀ e, (g.op e).isDefinition = false) ∧
    compile g [1, 0] { specialize := true } = some (.ok p, k) ∧
    g.interpret 100 1 #[98] = .matched 1 ∧ (run 100 p #[98]).ending = .outcome .failed := by
  obtain ⟨g, p, k, hg, hup, hflags, hplain, hwalk, hcompile, hrun⟩ :=
    Edit.exists_program staleRewrite [1, 0] { specialize := true }
      (fun g ↦ decide (g.interpret 100 1 #[98] = .matched 1))
      (fun p ↦ decide ((run 100 p #[98]).ending = .outcome .failed)) (by decide +kernel)
  exact ⟨g, p, k, hg, hup, hflags, hplain, hcompile, of_decide_eq_true hwalk,
    of_decide_eq_true hrun⟩

section

variable {g k : Grammar} {edits : List Edit} {o : Options} {depth : Nat} {rule : RuleId}
  {rules : List RuleId} {p : Program} {steps : Nat} {input : Array UInt8}

/-- If no edit replaces a body that something recorded relies on, a program ends as the walk does,
in whatever order the grammar was built, analysed and compiled. -/
theorem outcome_of_edits (hedits : Edit.applyAll {} edits = some g)
    (hharmless : Edit.HarmlessAll {} edits) (hup : g.BottomUp) (hflags : g.FlagsRaised)
    (hplain : ∀ e, (g.op e).isDefinition = false)
    (hcompile : compileWithin depth g (rule :: rules) o = some (.ok p, k))
    (hwalk : g.interpret steps rule input ≠ .diverged) :
    ∃ limit, (run limit p input).ending = .outcome (g.interpret steps rule input) := by
  have hempty : Grammar.Sound {} := Grammar.WellFormed.sound (by decide) rfl rfl
  refine (simulates_of_leavesState (Edit.sound_applyAll hempty hharmless hedits hup) hflags hcompile
    (fun slot _ ↦ ?_) hwalk).1
  exact (Grammar.contained_of_isDefinition hplain slot.expr).leavesState

end

/-- A rule that gets its first body after a choice that begins with it was analysed, and one that
gets another body after it was compiled: `S = (A / 'b') U` with `U = 'c'`, then `A = 'a'` and
`U = 'd'`. -/
def replacedTail : List Edit :=
  [.declare "A", .declare "U", .alloc (.reference 0) .synthetic, .alloc (.byte 98) .synthetic,
    .alloc (.choice [0, 1]) .synthetic, .alloc (.reference 1) .synthetic,
    .alloc (.sequence [2, 3]) .synthetic, .add "S" 4, .attachTables, .alloc (.byte 97) .synthetic,
    .define 0 5, .alloc (.byte 99) .synthetic, .define 1 6, .compile [2, 0, 1] {},
    .alloc (.byte 100) .synthetic, .define 1 7, .simplify 3]

/-- The body of a rule is replaced after the rule was compiled, as nothing recorded relies on it. -/
theorem outcome_of_edits_replacedTail : ∃ g p k, Edit.applyAll {} replacedTail = some g ∧
    compile g [2, 0, 1] { packrat := true, specialize := true } = some (.ok p, k) ∧
    ∃ limit, (run limit p #[97, 100]).ending = .outcome (.matched 2) := by
  obtain ⟨g, p, k, hg, hup, hflags, hplain, hcheck, hcompile, -⟩ :=
    Edit.exists_program replacedTail [2, 0, 1] { packrat := true, specialize := true }
      (fun g ↦ decide (g.interpret 100 2 #[97, 100] = .matched 2)) (fun _ ↦ true)
      (by decide +kernel)
  have hwalk := of_decide_eq_true hcheck
  refine ⟨g, p, k, hg, hcompile, ?_⟩
  rw [← hwalk]
  exact outcome_of_edits hg (by decide +kernel) hup hflags hplain hcompile (by simp [hwalk])

end ParsingMachine
