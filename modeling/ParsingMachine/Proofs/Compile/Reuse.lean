import ParsingMachine.Proofs.Compile.Abreast
import ParsingMachine.Proofs.Compile.Edits

/-!
# Compiling leaves no trace

A grammar may be compiled again and again, with any rules and options, and its expressions may be
simplified in between (`Use`). Each use adds nodes and records simpler nodes, in an order that
depends on the rules and the options, and also when it ends in an error.

None of this can be observed. What was in the grammar stays as it is, and compiling afterwards gives
the same error or the same program as before, up to the origins of instructions
(`erased_compile_eq_of_uses`). The grammar need only point to nothing outside itself, which holds
however it was built, analysed and compiled before (`Edit.selfContained_applyAll`).

There is no single form to which a grammar could be brought to compare programs: the nodes that uses
add stand in different places, and what is recorded for a node depends on which nodes were there
when it was simplified. Instead both grammars are compared with the one that was there first, into
which neither has to be translated. It evolved into both (`Grammar.Evolves`), and two sessions keep
abreast of each other over it (`Session.Abreast`).

So the induction over rules needs nothing but that compiling a rule leaves sessions abreast, or ends
in the same error in both, and finishing does not look at origins. A use in between lets a grammar
evolve further, whatever becomes of it.

The program before and the program after may be compiled within different depths of recursion. It is
enough that both compilations end.

## Main statements

* `Session.Abreast.compileRule`: compiling a rule in two sessions abreast.
* `Grammar.Evolves.erased_compile_eq`: compiling gives the same in all that a grammar evolved into.
* `Edit.selfContained_applyAll`: nothing in a grammar points outside it, however it was built.
* `Grammar.Evolves.applyAll`: uses let a grammar evolve.
* `erased_compile_eq_of_uses`: compiling gives the same before and after any uses.
-/

namespace ParsingMachine

/-! ### Sessions abreast -/

namespace Session.Abreast

variable {g : Grammar} {s s' t t' : Session} {rule : RuleId} {rules : List RuleId}

/-- Sessions without code. -/
theorem start {h h' : Grammar} (hgh : g.Evolves h) (hgh' : g.Evolves h') (depth depth' : Nat)
    (o : Options) : Abreast g (.start depth h o) (.start depth' h' o) :=
  ⟨hgh, hgh', rfl, rfl, rfl, rfl⟩

/-- Both sessions get a block of the same size. -/
theorem addBlock (hs : s.Abreast g s') (rule : RuleId) (head : InstrId) :
    Abreast g (s.addBlock rule head) (s'.addBlock rule head) := by
  have hcode : (s'.code.place head).eraseOrigins = (s.code.place head).eraseOrigins := by
    rw [Code.eraseOrigins_place, Code.eraseOrigins_place, hs.code_eq]
  refine ⟨hs.left, hs.right, hs.options_eq, hcode, hs.memo_eq, ?_⟩
  show s'.blocks.push _ = s.blocks.push _
  rw [hs.blocks_eq, Code.order_eq_of_erased hcode, Code.order_eq_of_erased hs.code_eq]

/-- The code that is made for an old body is the same but for origins. -/
theorem encodeRule (hg : g.SelfContained) (hs : s.Abreast g s') {body : ExprId}
    (hbody : body < g.size) {u u' : Unit} (h : Session.encodeRule rule body s = some (u, t))
    (h' : Session.encodeRule rule body s' = some (u', t')) : t.Abreast g t' := by
  obtain ⟨ret, s₁, head, s₂, hret, hhead, rfl⟩ := exists_of_encodeRule h
  obtain ⟨ret', s₁', head', s₂', hret', hhead', rfl⟩ := exists_of_encodeRule h'
  obtain ⟨rfl, hs₁, -⟩ := Encoder.coincide_emitEnd .ret body body s s' hs (.refl _) (.refl _)
    ret s₁ ret' s₁' hret hret'
  obtain ⟨rfl, hs₂, -⟩ := Encoder.along_encode hg s₁.depth s₁'.depth s₁.grammar s₁'.grammar body
    body ret (.inl (.old hbody)) s₁ s₁' hs₁ (.refl _) (.refl _) head s₂ head' s₂' hhead hhead'
  exact hs₂.addBlock rule head

/-- Compiling a rule ends in the same error or leaves the sessions abreast. -/
theorem compileRule (hg : g.SelfContained) (hs : s.Abreast g s')
    {result result' : Except CompileError Session} (h : s.compileRule rule = some result)
    (h' : s'.compileRule rule = some result') :
    (∃ e, result = .error e ∧ result' = .error e) ∨
      ∃ t t', result = .ok t ∧ result' = .ok t' ∧ t.Abreast g t' := by
  have hblock : s'.block? rule = s.block? rule := by rw [block?, block?, hs.blocks_eq]
  unfold Session.compileRule at h h'
  rw [hblock, hs.body?_eq, hs.ruleName_eq] at h'
  split at h
  · rename_i hsome
    rw [if_pos hsome] at h'
    cases h
    cases h'
    exact .inr ⟨s, s', rfl, rfl, hs⟩
  · rename_i hnone
    rw [if_neg hnone] at h'
    rcases hbody : s.grammar.body? rule with - | body
    · rw [hbody] at h h'
      cases h
      cases h'
      exact .inl ⟨_, rfl, rfl⟩
    · rw [hbody] at h h'
      obtain ⟨⟨u, t⟩, hrule, rfl⟩ := Option.map_eq_some_iff.mp h
      obtain ⟨⟨u', t'⟩, hrule', rfl⟩ := Option.map_eq_some_iff.mp h'
      rw [hs.left.toExtends.body?_eq] at hbody
      exact .inr ⟨t, t', rfl, rfl,
        hs.encodeRule hg (hg.wellFormed.body_lt rule body hbody) hrule hrule'⟩

/-- Compiling rules ends in the same error, or in none, and leaves the sessions abreast. -/
theorem compileRules (hg : g.SelfContained) (hs : s.Abreast g s') {e e' : Option CompileError}
    (h : s.compileRules rules = some (e, t)) (h' : s'.compileRules rules = some (e', t')) :
    e = e' ∧ t.Abreast g t' := by
  induction rules generalizing s s' with
  | nil =>
    cases h
    cases h'
    exact ⟨rfl, hs⟩
  | cons rule rules ih =>
    unfold Session.compileRules at h h'
    rcases hrule : s.compileRule rule with - | result
    · rw [hrule] at h
      cases h
    rcases hrule' : s'.compileRule rule with - | result'
    · rw [hrule'] at h'
      cases h'
    rw [hrule] at h
    rw [hrule'] at h'
    rcases hs.compileRule hg hrule hrule' with ⟨error, rfl, rfl⟩ | ⟨s₁, s₁', rfl, rfl, hs₁⟩
    · cases h
      cases h'
      exact ⟨rfl, hs⟩
    · exact ih hs₁ h h'

/-- Sessions abreast are finished in the same way. -/
theorem finish (hs : s.Abreast g s') :
    s'.finish.map Program.eraseOrigins = s.finish.map Program.eraseOrigins :=
  erased_finish_eq (target_eq (funext hs.body?_eq) (funext hs.ruleName_eq) hs.blocks_eq) hs.code_eq
    hs.memo_eq hs.blocks_eq

end Session.Abreast

/-- Compiling gives the same in everything that a grammar evolved into. -/
theorem Grammar.Evolves.erased_compile_eq {g h h' k k' : Grammar} (hg : g.SelfContained)
    (hgh : g.Evolves h) (hgh' : g.Evolves h') {depth depth' : Nat} {rules : List RuleId}
    {o : Options} {result result' : Except CompileError Program}
    (hcompile : compileWithin depth h rules o = some (result, k))
    (hcompile' : compileWithin depth' h' rules o = some (result', k')) :
    result'.map Program.eraseOrigins = result.map Program.eraseOrigins ∧ g.Evolves k := by
  unfold compileWithin at hcompile hcompile'
  have hstart := Session.Abreast.start hgh hgh' depth depth' o
  rcases hrules : (Session.start depth h o).compileRules rules with - | ⟨e, s⟩
  · rw [hrules] at hcompile
    cases hcompile
  rcases hrules' : (Session.start depth' h' o).compileRules rules with - | ⟨e', s'⟩
  · rw [hrules'] at hcompile'
    cases hcompile'
  rw [hrules] at hcompile
  rw [hrules'] at hcompile'
  obtain ⟨rfl, hs⟩ := hstart.compileRules hg hrules hrules'
  rcases e with - | e
  · cases hcompile
    cases hcompile'
    exact ⟨hs.finish, hs.left⟩
  · cases hcompile
    cases hcompile'
    exact ⟨rfl, hs.left⟩

/-! ### Grammars that are built -/

namespace Grammar.SelfContained

variable {g : Grammar} {rule : RuleId} {body : ExprId}

/-- A new rule has no body yet, so it adds nothing to point to. -/
theorem declareRule (hg : g.SelfContained) (name : String) :
    (g.declareRule name).2.SelfContained := by
  have hgh := extends_declareRule name g
  obtain ⟨rules, heq⟩ := declareRule_eq name g
  rw [heq] at hgh ⊢
  exact hg.retains hgh.toRetains
    (hgh.wellFormed hg.wellFormed (Retains.bottomUp (.of_nodes_eq rfl) hg.wellFormed.bottomUp))
    rfl rfl

/-- A rule may get any node as its body. -/
theorem defineRule (hg : g.SelfContained) (hrule : rule < g.ruleCount) (hbody : body < g.size) :
    (g.defineRule rule body).SelfContained :=
  hg.retains (.of_nodes_eq rfl) (hg.wellFormed.defineRule hrule hbody) rfl rfl

end Grammar.SelfContained

namespace Edit

variable {g h : Grammar} {edit : Edit} {edits : List Edit}

/-- An edit does not let a grammar point outside itself if operands still come before their
nodes. -/
theorem selfContained (hg : g.SelfContained) (happly : edit.apply g = some h)
    (hup : h.BottomUp) : h.SelfContained := by
  cases edit with
  | alloc op span =>
    cases happly
    have hpush : g.Extends (g.push op span) := ⟨.push g op span, fun _ ↦ rfl⟩
    exact hg.retains hpush.toRetains (hpush.wellFormed hg.wellFormed hup) rfl rfl
  | declare name =>
    cases happly
    exact hg.declareRule name
  | define rule body =>
    obtain ⟨⟨hrule, hbody⟩, ⟨⟩⟩ := Option.ite_none_right_eq_some.mp happly
    exact hg.defineRule hrule hbody
  | add name body =>
    obtain ⟨hbody, ⟨⟩⟩ := Option.ite_none_right_eq_some.mp happly
    rw [Grammar.addRule_eq]
    exact (hg.declareRule name).defineRule (Grammar.declareRule_lt name g)
      (Nat.lt_of_lt_of_le hbody (Grammar.extends_declareRule name g).size_le)
  | simplify e =>
    obtain ⟨he, ⟨⟩⟩ := Option.ite_none_right_eq_some.mp happly
    exact ((Grammar.Evolves.refl hg).simplify he).1.1.selfContained hg
  | attachTables =>
    cases happly
    exact hg.attachTables
  | compile rules o =>
    obtain ⟨result, hcompile⟩ := exists_compile happly
    have hgg := Grammar.Evolves.refl hg
    exact (hgg.erased_compile_eq hg hgg hcompile hcompile).2.selfContained hg

/-- However a grammar was built, analysed and compiled, nothing in it points outside it if operands
come before their nodes. -/
theorem selfContained_applyAll (hg : g.SelfContained) (hfull : g.FullTables)
    (happly : applyAll g edits = some h) (hup : h.BottomUp) : h.SelfContained := by
  induction edits generalizing g with
  | nil =>
    cases happly
    exact hg
  | cons edit edits ih =>
    obtain ⟨g₁, hedit, hrest⟩ := Option.bind_eq_some_iff.mp happly
    obtain ⟨-, hfull₁⟩ := retains hfull hedit
    exact ih (selfContained hg hedit ((retains_all hfull₁ hrest).1.bottomUp hup)) hfull₁ hrest

end Edit

/-! ### Uses of a grammar -/

/-- Compiles rules one after the other, going on after errors. -/
def Session.compileEach (s : Session) : List RuleId → Option Session
  | [] => some s
  | rule :: rules =>
    match s.compileRule rule with
    | none => none
    | some (.error _) => s.compileEach rules
    | some (.ok s) => s.compileEach rules

/-- What a grammar may be used for. -/
inductive Use where
  /-- Rules are compiled within a depth of recursion, up to the first error. -/
  | compile (depth : Nat) (rules : List RuleId) (o : Options)
  /-- Rules are compiled in a session, each whatever became of those before. -/
  | session (depth : Nat) (rules : List RuleId) (o : Options)
  /-- A simpler node is looked for. -/
  | simplify (e : ExprId)

namespace Use

/-- The grammar after a use. There is none if encoding goes too deep or a node is looked up that
does not exist. -/
def apply (g : Grammar) : Use → Option Grammar
  | compile depth rules o => (compileWithin depth g rules o).map Prod.snd
  | session depth rules o => ((Session.start depth g o).compileEach rules).map Session.grammar
  | simplify e => if e < g.size then some (g.simplify e).2 else none

/-- The grammar after uses, one after the other. -/
def applyAll (g : Grammar) : List Use → Option Grammar
  | [] => some g
  | use :: uses => (use.apply g).bind fun h ↦ applyAll h uses

end Use

namespace Grammar.Evolves

variable {g h k : Grammar}

/-- A session that goes on after errors lets its grammar evolve. -/
theorem compileEach (hg : g.SelfContained) {s t : Session} {rules : List RuleId}
    (hs : g.Evolves s.grammar) (h : s.compileEach rules = some t) : g.Evolves t.grammar := by
  induction rules generalizing s with
  | nil =>
    cases h
    exact hs
  | cons rule rules ih =>
    unfold Session.compileEach at h
    split at h
    · cases h
    · exact ih hs h
    · rename_i s₁ hrule
      rcases (Session.Abreast.self hs).compileRule hg hrule hrule with
        ⟨e, herror, -⟩ | ⟨_, _, hok, -, hs₁⟩
      · cases herror
      · cases hok
        exact ih hs₁.left h

/-- A use lets a grammar evolve. -/
theorem apply (hg : g.SelfContained) (hgh : g.Evolves h) {use : Use} (huse : use.apply h = some k) :
    g.Evolves k := by
  cases use with
  | compile depth rules o =>
    obtain ⟨⟨result, k⟩, hcompile, rfl⟩ := Option.map_eq_some_iff.mp huse
    exact (erased_compile_eq hg hgh hgh hcompile hcompile).2
  | session depth rules o =>
    obtain ⟨s, hsession, rfl⟩ := Option.map_eq_some_iff.mp huse
    exact compileEach hg hgh hsession
  | simplify e =>
    obtain ⟨he, hk⟩ := Option.ite_none_right_eq_some.mp huse
    cases hk
    exact (hgh.simplify he).1.1

theorem applyAll (hg : g.SelfContained) (hgh : g.Evolves h) {uses : List Use}
    (huses : Use.applyAll h uses = some k) : g.Evolves k := by
  induction uses generalizing h with
  | nil =>
    cases huses
    exact hgh
  | cons use uses ih =>
    obtain ⟨h₁, huse, hrest⟩ := Option.bind_eq_some_iff.mp huses
    exact ih (hgh.apply hg huse) hrest

end Grammar.Evolves

/-- Using a grammar leaves everything in it as it was, and what is compiled afterwards is what would
have been compiled before, up to the origins of instructions. -/
theorem erased_compile_eq_of_uses {g h : Grammar} (hg : g.SelfContained) {uses : List Use}
    (huses : Use.applyAll g uses = some h) :
    g.IntactIn h ∧ ∀ rules o depth depth' result result' k k',
      compileWithin depth g rules o = some (result, k) →
      compileWithin depth' h rules o = some (result', k') →
      result'.map Program.eraseOrigins = result.map Program.eraseOrigins := by
  have hgh := (Grammar.Evolves.refl hg).applyAll hg huses
  refine ⟨hgh.toIntactIn, fun rules o depth depth' result result' k k' hcompile hcompile' ↦ ?_⟩
  exact ((Grammar.Evolves.refl hg).erased_compile_eq hg hgh hcompile hcompile').1

/-- `S = 'a' S / 'a' D` with `D = '0' / '1'`, and a rule that has no body. -/
def usedGrammar : List Edit :=
  [.declare "S", .declare "D", .declare "U", .alloc (.byte 97) .synthetic,
    .alloc (.reference 0) .synthetic, .alloc (.sequence [0, 1]) .synthetic,
    .alloc (.byte 48) .synthetic, .alloc (.byte 49) .synthetic,
    .alloc (.choice [3, 4]) .synthetic, .alloc (.reference 1) .synthetic,
    .alloc (.sequence [0, 6]) .synthetic, .alloc (.choice [2, 7]) .synthetic,
    .define 0 8, .define 1 5, .attachTables]

/-- It is compiled up to the rule without a body and past it, and an alternative is simplified. -/
def earlierUses : List Use :=
  [.compile 20 [0, 2] { specialize := true },
    .session 20 [2, 1] { commonHead := true, specialize := true }, .simplify 7]

/-- Programs before and after uses that differ from each other in their origins. -/
theorem erased_compile_eq_of_uses_usedGrammar :
    ∃ g h p p' k k', Edit.applyAll {} usedGrammar = some g ∧ Use.applyAll g earlierUses = some h ∧
      g.IntactIn h ∧
      compileWithin 20 g [0, 1] { commonHead := true, specialize := true } = some (.ok p, k) ∧
      compileWithin 20 h [0, 1] { commonHead := true, specialize := true } = some (.ok p', k') ∧
      p' ≠ p ∧ p'.eraseOrigins = p.eraseOrigins := by
  have hchecks : ((Edit.applyAll {} usedGrammar).any fun g ↦ decide g.WellFormed &&
      (Use.applyAll g earlierUses).any fun h ↦
        (compileWithin 20 g [0, 1] { commonHead := true, specialize := true }).any fun result ↦
          result.1.toOption.any fun p ↦
            (compileWithin 20 h [0, 1] { commonHead := true, specialize := true }).any fun other ↦
              other.1.toOption.any (· != p)) = true := by decide +kernel
  obtain ⟨g, hg, hcheck⟩ := (Option.any_eq_true _ _).mp hchecks
  obtain ⟨hwf, hcheck⟩ := Bool.and_eq_true_iff.mp hcheck
  obtain ⟨h, hh, hcheck⟩ := (Option.any_eq_true _ _).mp hcheck
  obtain ⟨p, k, hcompile, hcheck⟩ := Grammar.exists_program 20 g [0, 1] _ _ hcheck
  obtain ⟨p', k', hcompile', hne⟩ := Grammar.exists_program 20 h [0, 1] _ _ hcheck
  have hself : g.SelfContained :=
    Edit.selfContained_applyAll (.of_empty (by decide) rfl rfl)
      (Grammar.fullTables_of_tables_empty rfl) hg (of_decide_eq_true hwf).bottomUp
  obtain ⟨hintact, hsame⟩ := erased_compile_eq_of_uses hself hh
  exact ⟨g, h, p, p', k, k', hg, hh, hintact, hcompile, hcompile', bne_iff_ne.mp hne,
    Except.ok.inj (hsame _ _ _ _ _ _ _ _ hcompile hcompile')⟩

end ParsingMachine
