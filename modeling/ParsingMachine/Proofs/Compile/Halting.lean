import ParsingMachine.Proofs.Compile.Linking
import ParsingMachine.Proofs.Compile.Termination
import ParsingMachine.Proofs.Grammar.Shape

/-!
# Grammars built from shapes never diverge

In a grammar built from shapes no node takes part in matching itself, so every walk ends and so does
compiling; the rules refer to one another only, so linking succeeds; and the flags of repetitions
are right, so a compiled program ends as the walk does. Attaching jump tables changes none of this.

Each of the three needs a different property of shapes. That walks and encoding end comes from the
order of the rules, of which each refers to later ones only, so nothing is matched while it is being
matched (`Shape.Stage`). That linking succeeds comes from counting, since a reference names one of
the rules and all of these are compiled. That the program agrees with the walk comes from the flags,
which are computed along with the nodes.

The grammar that is compiled is larger than the one that was built: attaching tables adds the
choices to which tables lead, and encoding adds what nodes are simplified to and factored choices.
New nodes are no repetitions, define nothing and refer to nothing, so each of the properties is
carried over by one lemma on grammars that have grown.

A program is compared to the walk as in the correctness of compiling. Results may be kept here
without a further condition, as shapes define no symbols (`Shape.Stage.memoSafe_of_grows`).

## Main statements

* `Grammar.exists_interpret`: an expression that yields a result is matched within some number of
  steps.
* `Shape.Stage.exists_compile_eq_ok`: all rules are compiled without an error.
* `Shape.Stage.exists_walk`: the walk from the first rule ends on every input.
* `halts_of_shapes`: all of this together, for every list of shapes, every choice of options and
  every input.
-/

namespace ParsingMachine

open Machine

variable {shapes : List Shape} {g h : Grammar} {count : Nat} {nullable : List Bool}

namespace Grammar

/-- An expression that yields a result is matched within some number of steps. -/
theorem exists_interpret {rule : RuleId} {input : Array UInt8} {body : ExprId} {d : Nat} {r : Match}
    (hbody : g.body? rule = some body) (h : Yields g { text := input } d (.node body) 0 {} r) :
    ∃ steps, g.interpret steps rule input = r.outcome := by
  obtain ⟨depth, steps, hw⟩ := h.walks
  -- the number of steps bounds the depth, so it has to be at least that
  obtain ⟨q, s', heval, rfl⟩ :=
    hw (depth + steps + 1) (by omega) (depth + steps + 1) (by omega) depth
  refine ⟨depth + steps, ?_⟩
  have heval : g.eval { text := input } (depth + steps + 1) body 0 { steps := depth + steps } =
      some (q, ⟨s', depth⟩) := heval
  simp only [interpret, hbody, StateT.run, heval]
  cases q <;> rfl

/-- Nothing points outside a prepared grammar. -/
theorem Prepared.selfContained (hg : g.Prepared) : g.SelfContained := by
  induction hg with
  | built hg hsimplified htables => exact .of_empty hg hsimplified htables
  | extended _ hgh hh hsimplified htables ih =>
    exact ih.retains hgh.toRetains hh hsimplified htables
  | annotated _ ih => exact ih.attachTables
  | simplified _ he ih => exact ((Evolves.refl ih).simplify he).1.1.selfContained ih
  | compiled _ hcompile ih =>
    exact ((Evolves.refl ih).erased_compile_eq ih (.refl ih) hcompile hcompile).2.selfContained ih

/-- What consumes does not succeed where it began. -/
theorem flagsRaised_of_consumes (h : ∀ e inner,
    g.op e = .star inner false ∨ g.op e = .plus inner false → g.Consumes inner) : g.FlagsRaised :=
  fun e inner hop _ _ _ _ _ heval ↦ h e inner hop _ _ _ _ _ (Yields.of_eval _ _ _ _ _ _ heval)

end Grammar

namespace Shape.Stage

variable (hg : Stage count 0 nullable g) (hgh : g.Grows h)
include hg

/-- A grammar that was just built is prepared: nothing has been recorded in it. -/
theorem prepared : g.Prepared :=
  .built hg.wellFormed hg.simplified_eq hg.tables_eq

/-- The flags that were computed for repetitions are right. -/
theorem flagsRaised : g.FlagsRaised :=
  Grammar.flagsRaised_of_consumes fun _ _ hop ↦ hg.consumes hop

include hgh

/-- New nodes are no repetitions. -/
theorem flagsRaised_of_grows : h.FlagsRaised :=
  Grammar.flagsRaised_of_consumes fun _ _ hop ↦ hg.flagsRaised.consumes hg.wellFormed hgh hop

/-- New nodes define nothing. -/
theorem memoSafe_of_grows : h.MemoSafe := by
  intro root _ e _
  by_cases he : e < g.size
  · rw [hgh.op_eq e he]
    exact hg.isDefinition_eq e
  · have hglue := hgh.isGlue e (Nat.le_of_not_lt he)
    cases hop : h.op e with rw [hop] at hglue
    | defSymbol _ _ | defIndent => cases hglue
    | _ => rfl

/-- New nodes are no references. -/
theorem rule_lt_of_grows {e : ExprId} {rule : RuleId} (hop : h.op e = .reference rule) :
    rule < count := by
  refine hg.rule_lt (e := e) ?_
  refine (hgh.op_eq e (Nat.lt_of_not_le fun hle ↦ ?_)).symm.trans hop
  have hglue := hgh.isGlue e hle
  rw [hop] at hglue
  cases hglue

/-- The rules are compiled without error, whatever was added to the grammar. -/
theorem exists_compile_eq_ok (hh : h.Prepared) (hcount : 0 < count) (o : Options) :
    ∃ p k, compile h (List.range count) o = some (.ok p, k) := by
  have hsettled (rule : RuleId) (body : ExprId) (hbody : h.body? rule = some body) :
      h.Grounded o body := by
    have hlt := hg.wellFormed.body_lt rule body ((hgh.body?_eq rule).symm.trans hbody)
    exact ((hgh.toExtends.settled_iff hg.wellFormed hlt).mpr (hg.settled body)).grounded hh.sound
  have hsome : (compile h (List.range count) o).isSome :=
    isSome_compile_of_grounded hh.sound fun rule _ body hbody ↦ hsettled rule body hbody
  obtain ⟨⟨result, k⟩, hcompile⟩ := Option.isSome_iff_exists.mp hsome
  have htables : h.NarrowTables := fun e table htable ↦ (hh.sound.tables e table htable).narrow
  obtain ⟨p, rfl⟩ := (Grammar.links_of_compile hh.selfContained htables hcompile).ok
    (by simpa using Nat.ne_of_gt hcount)
    (fun rule hrule ↦ by
      rw [hgh.body?_eq]
      exact hg.isSome_body? (List.mem_range.mp hrule))
    fun rule ⟨_, _, _, _, _, _, hop⟩ ↦ List.mem_range.mpr (hg.rule_lt_of_grows hgh hop)
  exact ⟨p, k, hcompile⟩

/-- The first rule has a result on every input. -/
theorem exists_walk (hcount : 0 < count) (input : Array UInt8) :
    ∃ steps, h.interpret steps 0 input ≠ .diverged := by
  obtain ⟨body, hbody, hlt, -⟩ := hg.bodies 0 (Nat.le_refl 0) hcount
  have hsettled := (hgh.toExtends.settled_iff hg.wellFormed hlt).mpr (hg.settled body)
  obtain ⟨d, r, hr⟩ := hsettled.exists_yields { text := input } 0 {}
  obtain ⟨steps, hsteps⟩ := Grammar.exists_interpret ((hgh.body?_eq 0).trans hbody) hr
  refine ⟨steps, ?_⟩
  rw [hsteps]
  cases r <;> exact fun hdiverged ↦ nomatch hdiverged

end Shape.Stage

/-- Grammars built from shapes never diverge. The flags of their repetitions are right, and with or
without jump tables all rules are compiled without error, and the first one is matched to an end by
the walk and by the program, with any options and on every input. -/
theorem halts_of_shapes (hshapes : shapes ≠ [])
    (hfilled : ∀ shape ∈ shapes, shape.literalsFilled) :
    (Shape.grammar shapes).FlagsRaised ∧
      ∀ g ∈ [Shape.grammar shapes, (Grammar.attachTables (Shape.grammar shapes)).2], ∀ o : Options,
        ∃ p k, compile g (List.range shapes.length) o = some (.ok p, k) ∧
          ∀ input, ∃ outcome, outcome ≠ .diverged ∧
            (∃ steps, g.interpret steps 0 input = outcome) ∧
            ∃ limit, (run limit p input).ending = .outcome outcome := by
  obtain ⟨nullable, hstage⟩ := Shape.stage_grammar hfilled
  have hcount : 0 < shapes.length := List.length_pos_of_ne_nil hshapes
  refine ⟨hstage.flagsRaised, fun g hg o ↦ ?_⟩
  have hprepared : g.Prepared ∧ (Shape.grammar shapes).Grows g := by
    rcases List.mem_pair.mp hg with rfl | rfl
    · exact ⟨hstage.prepared, .refl _⟩
    · exact ⟨.annotated hstage.prepared, (Grammar.ensures_attachTables hstage.wellFormed
        hstage.prepared.sound.tables).toGrows⟩
  obtain ⟨hprepared, hgrows⟩ := hprepared
  obtain ⟨p, k, hcompile⟩ := hstage.exists_compile_eq_ok hgrows hprepared hcount o
  refine ⟨p, k, hcompile, fun input ↦ ?_⟩
  obtain ⟨steps, hsteps⟩ := hstage.exists_walk hgrows hcount input
  refine ⟨g.interpret steps 0 input, hsteps, ⟨steps, rfl⟩, ?_⟩
  obtain ⟨rest, hrules⟩ : ∃ rest, List.range shapes.length = 0 :: rest := by
    obtain ⟨n, hn⟩ := Nat.exists_eq_add_one_of_ne_zero (Nat.ne_of_gt hcount)
    exact ⟨_, by rw [hn, List.range_succ_eq_map]⟩
  rw [hrules] at hcompile
  exact (simulates_of_compile hprepared (hstage.flagsRaised_of_grows hgrows)
    (fun _ ↦ hstage.memoSafe_of_grows hgrows) hcompile hsteps).1

/-- Rounds of a reference to what may be empty, and a rule with shared beginnings:
`R0 = R1* ('a' R1+ / 'a' 'x')` and `R1 = 'b'? !'c'`. -/
def emptyRounds : List Shape :=
  [.sequence [.star (.reference 0),
    .sharedHead (.literal [97]) [.plus (.reference 0), .byte 120]],
   .sequence [.optional (.byte 98), .not (.byte 99)]]

theorem halts_of_shapes_emptyRounds : (Shape.grammar emptyRounds).FlagsRaised ∧
    ∃ p k, compile (Grammar.attachTables (Shape.grammar emptyRounds)).2 [0, 1]
      { packrat := true, specialize := true, commonHead := true } = some (.ok p, k) ∧
    ∃ outcome, outcome ≠ .diverged ∧
      ∃ limit, (run limit p #[98, 97, 120]).ending = .outcome outcome := by
  have hfilled : ∀ shape ∈ emptyRounds, shape.literalsFilled := by decide
  obtain ⟨hflags, hhalts⟩ := halts_of_shapes (List.cons_ne_nil _ _) hfilled
  obtain ⟨p, k, hcompile, hrun⟩ := hhalts _ (List.mem_cons_of_mem _ (List.mem_singleton_self _))
    { packrat := true, specialize := true, commonHead := true }
  obtain ⟨outcome, hne, -, hlimit⟩ := hrun #[98, 97, 120]
  exact ⟨hflags, p, k, hcompile, outcome, hne, hlimit⟩

end ParsingMachine
