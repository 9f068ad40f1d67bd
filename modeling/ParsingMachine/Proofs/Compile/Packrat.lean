import ParsingMachine.Proofs.Compile.Correctness

/-!
# Kept results and definitions

What is kept of a result is where it stops and not what it has defined. A program that keeps results
may so reject what the same program without them accepts (`forgottenSymbol`): an alternative matches
a rule that defines a symbol and then fails, and the next one finds the result of the rule, but the
symbol is gone.

Nothing is lost when whatever is kept leaves the parse state as it is. Then both programs end as the
walk does (`outcomes_of_packrat`). This holds when definitions stay in blocks
(`Grammar.Contained.leavesState`), as in `scopedSymbol`.

Queries of the parse state are no part of the problem. A result that depends on the state is kept
under a key that holds the state, so it is found only where the state is the same again. The key
says nothing of what the expression does to the state, and a hit skips the expression with all that
it does.

The condition is put on the slots of the compiled program, since results are kept for what
references and links resolve to and for nothing else. Under it hits are faithful: the entry that is
found is what matching the expression again would give.

The two programs are compiled separately, each within a depth of recursion of its own. They are
compared through the walk, which does not keep anything.

## Main statements

* `outcomes_forgottenSymbol`: a grammar on which keeping results changes the outcome.
* `outcomes_of_packrat`: if whatever is kept leaves the parse state as it is, both programs end as
  the walk does, and hits are faithful.
* `outcomes_of_packrat_scopedSymbol`: a grammar that defines a symbol in a rule whose results are
  kept, but in a block.
-/

namespace ParsingMachine

open Machine

/-- A symbol that is defined in a referenced rule: `S = R 'x' / R <is t 'a'>` and
`R = <def t 'a'>`. -/
def forgottenSymbol : Grammar where
  nodes := #[⟨.byte 97, .synthetic⟩, ⟨.defSymbol "t" 0, .synthetic⟩, ⟨.reference 1, .synthetic⟩,
    ⟨.byte 120, .synthetic⟩, ⟨.sequence [2, 3], .synthetic⟩, ⟨.isSymbol "t" 0 false, .synthetic⟩,
    ⟨.sequence [2, 5], .synthetic⟩, ⟨.choice [4, 6], .synthetic⟩]
  rules := #[{ name := "S", body := some 7 }, { name := "R", body := some 1 }]

/-- With kept results the program rejects what the walk and the program without them accept. -/
theorem outcomes_forgottenSymbol : forgottenSymbol.Prepared ∧ forgottenSymbol.FlagsRaised ∧
    forgottenSymbol.interpret 100 0 #[97, 97] = .matched 2 ∧ ∃ p k p' k',
      compileWithin 20 forgottenSymbol [0, 1] { packrat := true } = some (.ok p, k) ∧
      compileWithin 20 forgottenSymbol [0, 1] {} = some (.ok p', k') ∧
      (run 100 p #[97, 97]).ending = .outcome .failed ∧
      (run 100 p' #[97, 97]).ending = .outcome (.matched 2) := by
  have hwf : forgottenSymbol.WellFormed := by decide +kernel
  obtain ⟨p, k, hpackrat, hrun⟩ := Grammar.exists_program 20 forgottenSymbol [0, 1]
    { packrat := true }
    (fun p ↦ (run 100 p #[97, 97]).ending = .outcome .failed) (by decide +kernel)
  obtain ⟨p', k', hplain, hrun'⟩ := Grammar.exists_program 20 forgottenSymbol [0, 1] {}
    (fun p ↦ (run 100 p #[97, 97]).ending = .outcome (.matched 2)) (by decide +kernel)
  exact ⟨.built hwf rfl rfl, Grammar.flagsRaised_of_isTerminal hwf (by decide +kernel),
    by decide +kernel, p, k, p', k', hpackrat, hplain, of_decide_eq_true hrun,
    of_decide_eq_true hrun'⟩

section

variable {g k k' : Grammar} {o : Options} {depth depth' : Nat} {rule : RuleId} {rules : List RuleId}
  {p p' : Program} {steps : Nat} {input : Array UInt8}

/-- If whatever is kept leaves the parse state as it is, a program ends as the walk does whether it
keeps results or not, and what it finds in its memo table is what recomputing gives. -/
theorem outcomes_of_packrat (hg : g.Prepared) (hflags : g.FlagsRaised)
    (hpackrat : compileWithin depth g (rule :: rules) { o with packrat := true } = some (.ok p, k))
    (hplain : compileWithin depth' g (rule :: rules) { o with packrat := false } =
      some (.ok p', k'))
    (hkept : ∀ slot ∈ p.memoSlots, g.LeavesState slot.expr)
    (hwalk : g.interpret steps rule input ≠ .diverged) :
    (∃ limit, (run limit p input).ending = .outcome (g.interpret steps rule input)) ∧
      (∃ limit, (run limit p' input).ending = .outcome (g.interpret steps rule input)) ∧
      FaithfulHits g p input := by
  obtain ⟨hrun, hhits⟩ := simulates_of_leavesState hg.sound hflags hpackrat hkept hwalk
  refine ⟨hrun, (simulates_of_leavesState hg.sound hflags hplain (fun slot hslot ↦ ?_) hwalk).1,
    hhits⟩
  obtain ⟨htrue, -⟩ := hg.memoSlots_of_compile hplain hslot
  cases htrue

end

/-- A symbol that is defined and used in a block of a referenced rule: `S = R 'x' / R 'y'` and
`R = <block <def t 'a'*> 'b' <is t 'a'*>>`. -/
def scopedSymbol : Grammar where
  nodes := #[⟨.byte 97, .synthetic⟩, ⟨.star 0 false, .synthetic⟩, ⟨.defSymbol "t" 1, .synthetic⟩,
    ⟨.byte 98, .synthetic⟩, ⟨.isSymbol "t" 1 true, .synthetic⟩, ⟨.sequence [2, 3, 4], .synthetic⟩,
    ⟨.block 5, .synthetic⟩, ⟨.reference 1, .synthetic⟩, ⟨.byte 120, .synthetic⟩,
    ⟨.byte 121, .synthetic⟩, ⟨.sequence [7, 8], .synthetic⟩, ⟨.sequence [7, 9], .synthetic⟩,
    ⟨.choice [10, 11], .synthetic⟩]
  rules := #[{ name := "S", body := some 12 }, { name := "R", body := some 6 }]

/-- With kept results and without, the program accepts a text in which the result of the rule is
found again. -/
theorem outcomes_of_packrat_scopedSymbol : ∃ p k p' k',
    compileWithin 20 scopedSymbol [0, 1] { packrat := true } = some (.ok p, k) ∧
    compileWithin 20 scopedSymbol [0, 1] {} = some (.ok p', k') ∧
    (∃ limit, (run limit p #[97, 98, 97, 121]).ending = .outcome (.matched 4)) ∧
    (∃ limit, (run limit p' #[97, 98, 97, 121]).ending = .outcome (.matched 4)) ∧
    FaithfulHits scopedSymbol p #[97, 98, 97, 121] := by
  have hwf : scopedSymbol.WellFormed := by decide +kernel
  have hg := Grammar.Prepared.built hwf rfl rfl
  have hflags := Grammar.flagsRaised_of_isTerminal hwf (by decide +kernel)
  have hwalk : scopedSymbol.interpret 100 0 #[97, 98, 97, 121] = .matched 4 := by
    decide +kernel
  obtain ⟨p, k, hpackrat, hcontained⟩ := Grammar.exists_program 20 scopedSymbol [0, 1]
    { packrat := true }
    (fun p ↦ p.memoSlots.all fun slot ↦ decide (scopedSymbol.Contained slot.expr))
    (by decide +kernel)
  obtain ⟨p', k', hplain, -⟩ := Grammar.exists_program 20 scopedSymbol [0, 1] {} (fun _ ↦ true)
    (by decide +kernel)
  refine ⟨p, k, p', k', hpackrat, hplain, ?_⟩
  rw [← hwalk]
  refine outcomes_of_packrat (o := {}) hg hflags hpackrat hplain (fun slot hslot ↦ ?_)
    (by rw [hwalk]; exact fun h ↦ (nomatch h))
  rw [Array.all_eq_true_iff_forall_mem] at hcontained
  exact (of_decide_eq_true (hcontained slot hslot)).leavesState

end ParsingMachine
