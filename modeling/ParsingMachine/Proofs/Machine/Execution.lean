import ParsingMachine.Machine.Run
import ParsingMachine.Proofs.Grammar.FirstByte
import ParsingMachine.Proofs.Source.Agreement

/-!
# Executing instructions over an input in memory

Executing an instruction changes the machine and leaves an input in memory as it is (`step_snd`), so
a run is a chain of states, and the buffer can be left out of it. `Reaches` joins what is reached by
steps; a run that reaches its end has that ending within some number of instructions, whatever was
executed before.

`Reaches` carries a property of states that take a step. For the correctness of code this is that
the memo table holds results only. A step has one result, so two chains from the same start are
parts of one run: what the states of a chain to the end have, every state has that the machine comes
through.

The effects of the instructions that read the input are computed here once, in terms of the text
(`byte?_run`, `consume_run`, `skipClass_run`), so that later proofs look at `Resident.text` and
never at the operations of a buffer. For the same operations machines over two buffers with the same
bytes agree. Both are lemmas about the few operations that look at the input; everything else
follows from them by the shape of `perform`.

## Main statements

* `agree_perform`: machines over buffers with the same bytes execute instructions alike.
* `perform_snd`, `step_snd`: an input in memory stays as it is.
* `eq_of_loop`: skipping the bytes of a set does what a loop over one of them does.
* `Reaches.invariant`: on the way to its end the machine comes through no other states.
* `Reaches.exists_run`: a machine that reaches its end runs to that end.
-/

namespace ParsingMachine.Machine

/-! ### Agreement of machines -/

section

variable {σ τ : Type} [Buffer σ] [Buffer τ] {rel : σ → τ → Prop}

/-- Machines over buffers with the same bytes see the same next byte. -/
theorem agree_byte? (h : Buffer.SameBytes rel) (pos : Nat) : Agree rel (byte? pos) (byte? pos) := by
  refine Agree.get_bind fun s t hst ↦ ?_
  rw [h.length_eq hst]
  exact .ite ((h.byteAt pos).bind fun b ↦ .pure (some b)) (.pure none)

/-- They test the next byte alike. -/
theorem agree_consume (h : Buffer.SameBytes rel) (test : UInt8 → Bool) (optional : Bool)
    (s : State) :
    Agree rel (consume test optional s) (consume test optional s) := by
  refine (agree_byte? h s.pos).bind fun b ↦ ?_
  rcases b with - | b
  · exact .pure _
  · dsimp only
    split
    · exact .pure _
    · exact .pure _

/-- They skip the same bytes of a set. -/
theorem agree_skipClass (h : Buffer.SameBytes rel) (set : ByteSet) (n pos : Nat) :
    Agree rel (skipClass set n pos) (skipClass set n pos) := by
  induction n generalizing pos with
  | zero => exact .pure pos
  | succ n ih =>
    refine (agree_byte? h pos).bind fun b ↦ ?_
    rcases b with - | b
    · exact .pure pos
    · exact .ite (ih (pos + 1)) (.pure pos)

/-- Machines over buffers with the same bytes execute instructions alike. -/
theorem agree_perform (h : Buffer.SameBytes rel) (op : Opcode) (next : Option InstrId) (s : State) :
    Agree rel (perform op next s) (perform op next s) := by
  have hpure (e : Effect) : Agree rel (pure e) (pure e) := .pure e
  cases op with
  | byte b optional => exact agree_consume h _ optional s
  | byteClass set optional => exact agree_consume h _ optional s
  | anyByte =>
    refine Agree.get_bind fun s' t' hst ↦ ?_
    rw [h.length_eq hst]
    exact hpure _
  | skipClass set =>
    refine Agree.get_bind fun s' t' hst ↦ ?_
    rw [h.length_eq hst]
    exact (agree_skipClass h set _ _).bind fun pos ↦ hpure _
  | notClass set =>
    refine (agree_byte? h s.pos).bind fun b ↦ ?_
    rcases b with - | b <;> exact hpure _
  | dispatch table =>
    refine (agree_byte? h s.pos).bind fun b ↦ ?_
    dsimp only
    split <;> exact hpure _
  | notLiteral bytes => exact (h.matchesAt s.pos bytes).bind fun b ↦ hpure _
  | defSymbol table =>
    simp only [perform]
    rcases s.positions.pop? with - | ⟨saved, positions⟩
    · exact hpure _
    · exact (h.subbytes saved.pos s.pos).bind fun text ↦ hpure _
  | isSymbol table lastOnly =>
    simp only [perform]
    rcases s.positions.pop? with - | ⟨saved, positions⟩
    · exact hpure _
    · exact (h.subbytes saved.pos s.pos).bind fun text ↦ hpure _
  | defIndent => exact (h.indent s.pos).bind fun indent ↦ hpure _
  | isIndent => exact (h.matchesAt s.pos _).bind fun b ↦ .ite (hpure _) (hpure _)
  | _ =>
    simp only [perform]
    repeat' split
    all_goals exact hpure _

end

/-! ### Inputs in memory -/

section

variable {src : Resident}

/-- Executing an operation leaves an input in memory as it is. -/
theorem perform_snd (op : Opcode) (next : Option InstrId) (s : State) :
    (perform op next s src).2 = src :=
  (agree_perform (Resident.simulates_self src).toSameBytes op next s src src ⟨rfl, rfl⟩).2.1

/-- A step leaves an input in memory as it is. -/
theorem step_snd (p : Program) (s : State) : (step p s src).2 = src := by
  unfold step
  rcases p.code[s.pc]? with - | instr
  · rfl
  · exact perform_snd _ _ s

theorem step_run (p : Program) (src : Resident) (s : State) :
    step p s src = ((step p s src).1, src) :=
  Prod.ext rfl (step_snd p s)

theorem byte?_run (pos : Nat) : byte? pos src = (src.text[pos]?, src) := by
  have hbyte : byte? pos src =
      if pos < src.text.size then (some (src.byteAt pos), src) else (none, src) := by
    show (if pos < src.text.size then _ else _ : StateM Resident (Option UInt8)) src = _
    split <;> rfl
  rw [hbyte]
  split
  · rename_i hlt
    rw [Resident.byteAt, Array.getElem?_eq_getElem hlt]
    rfl
  · rename_i hle
    rw [Array.getElem?_eq_none (Nat.le_of_not_lt hle)]

/-- Testing the next byte, in terms of the text. -/
theorem consume_run (test : UInt8 → Bool) (optional : Bool) (s : State) :
    consume test optional s src =
      (if src.text[s.pos]?.any test then .next { s with pos := s.pos + 1 }
      else if optional then .next s else .fail s, src) := by
  rw [consume, Resident.bind_run (byte?_run s.pos)]
  rcases src.text[s.pos]? with - | b
  · rfl
  · cases htest : test b
    · simp [htest]
      rfl
    · simp [htest]
      rfl

/-- One more byte of a set is skipped where the text has one. -/
theorem skipClass_run (set : ByteSet) (n pos : Nat) :
    skipClass set (n + 1) pos src =
      if src.text[pos]?.any set.contains then skipClass set n (pos + 1) src else (pos, src) := by
  rw [skipClass, Resident.bind_run (byte?_run pos)]
  rcases src.text[pos]? with - | b
  · rfl
  · cases htest : set.contains b
    · simp [htest]
      rfl
    · simp [htest]

/-- Skipping the bytes of a set does what a loop over one of them does. -/
theorem eq_of_loop {g : Grammar} {e : ExprId} {set : ByteSet}
    (hset : Refines g src (.node e) (.consumes src set.contains)) (n : Nat) {d pos : Nat}
    {s : ParseState} {r : Match} (hn : src.text.size - pos ≤ n)
    (hyields : Yields g src d (.loop e) pos s r) :
    r = some ((skipClass set n pos src).1, s) := by
  have hround {x : Match} (hx : Yields g src d (.node e) pos s x) :
      x = if src.text[pos]?.any set.contains then some (pos + 1, s) else none :=
    Yields.consumes_iff.mp (hset _ _ _ _ hx)
  induction n generalizing pos with
  | zero =>
    have hnone : src.text[pos]? = none := Array.getElem?_eq_none (by omega)
    rw [hnone] at hround
    cases hyields with
    | loopDone _ => rfl
    | loopStill h => cases hround h
    | loopStep _ h _ => cases hround h
  | succ n ih =>
    rw [skipClass_run]
    split
    · rename_i htest
      simp only [htest, if_true] at hround
      cases hyields with
      | loopDone h => cases hround h
      | loopStill h =>
        -- a byte was consumed, so the round did not stand still
        have hpos := congrArg (Option.map Prod.fst) (hround h)
        simp at hpos
      | loopStep _ h h' =>
        cases hround h
        exact ih (by omega) h' fun hx ↦ Yields.consumes_iff.mp (hset _ _ _ _ hx)
    · rename_i htest
      simp only [htest] at hround
      cases hyields with
      | loopDone _ => rfl
      | loopStill h => cases hround h
      | loopStep _ h _ => cases hround h

end

/-! ### Chains of steps -/

/-- What is reached by steps over an input in memory, where each state that takes a step has a
property. -/
inductive Reaches (p : Program) (src : Resident) (I : State → Prop) : Step → Step → Prop
  | refl (x : Step) : Reaches p src I x x
  | step {s : State} {x : Step} (hs : I s) (h : Reaches p src I (step p s src).1 x) :
    Reaches p src I (.running s) x

/-- The machine comes through a state. -/
def Visits (p : Program) (src : Resident) (s : State) : Prop :=
  Reaches p src (fun _ ↦ True) (.running (start p)) (.running s)

namespace Reaches

variable {p : Program} {src : Resident} {I J : State → Prop} {x y z : Step}

/-- Chains of steps are put together. -/
theorem trans (h : Reaches p src I x y) (h' : Reaches p src I y z) : Reaches p src I x z := by
  induction h with
  | refl x => exact h'
  | step hs _ ih => exact .step hs (ih h')

/-- On the way to its end the machine comes through no other states. -/
theorem invariant {o : Outcome} {s : State} (h : Reaches p src I x (.halted o))
    (h' : Reaches p src J x (.running s)) : I s := by
  generalize hy : Step.halted o = y at h
  induction h with
  | refl x =>
    subst hy
    cases h'
  | step hs _ ih =>
    cases h' with
    | refl => exact hs
    | step _ h' => exact ih h' hy

/-- A machine that reaches its end runs to that end. -/
theorem exists_run {s : State} {o : Outcome} (h : Reaches p src I (.running s) (.halted o)) :
    ∃ limit, ∀ executed, (runFrom p limit s executed src).1.ending = .outcome o := by
  generalize hx : Step.running s = x at h
  generalize hy : Step.halted o = y at h
  induction h generalizing s with
  | refl x =>
    rw [← hx] at hy
    cases hy
  | @step s' x _ hstep ih =>
    cases hx
    have hrun := step_run p src s'
    rcases hnext : (Machine.step p s' src).1 with s₁ | o' | f
    · rw [hnext] at hrun
      obtain ⟨limit, hlimit⟩ := ih hnext.symm hy
      refine ⟨limit + 1, fun executed ↦ ?_⟩
      rw [runFrom, hrun]
      exact hlimit _
    · rw [hnext] at hrun hstep
      cases hstep
      cases hy
      refine ⟨1, fun executed ↦ ?_⟩
      rw [runFrom, hrun]
    · rw [hnext] at hstep
      cases hstep
      cases hy

end Reaches

end ParsingMachine.Machine
