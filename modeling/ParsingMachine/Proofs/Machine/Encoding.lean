import ParsingMachine.Proofs.Machine.Image

/-!
# Code for terms

`Image.Encodes` says which pieces of code are code for a term: one rule for each shape that is used.
A term may always be replaced by one that refines it, so a shape that is made for several operators,
or for a simpler node in place of the given one, is one rule and not several. Code is followed from
its first instruction to the one after it; that pieces share instructions is not excluded.

The correctness of a shape is a lemma of its own (`Implements.both`, `Implements.either`, and so
on): if the parts implement their terms, the whole implements the whole. Operations that look at the
input fall into two groups, those that compute a match from position and parse state (`Computes`)
and those that use the position saved last (`Closes`). Each operation is shown once to be in its
group, and then there is one lemma for each group.

Only a repetition needs an induction of its own, over what its term yields. Between its rounds the
newest frame holds the position and parse state where the round began (`Saves`), so that a failing
round gives back what the rounds before have left. Without the guard, a round that consumes nothing
would be repeated for ever; such rounds are excluded by what the expression yields (`Consumes`).

A call is correct if the blocks of the rules implement their bodies for a smaller number of nested
rules. Since all calls go to such blocks, all blocks of a program implement the bodies of their
rules, by strong induction on that number. A memoized path is correct on a hit because the table
holds results, and on a miss because the result that is recorded is one.

## Main statements

* `Implements.rounds`: the rounds of a repetition.
* `Implements.memoized`: a result that is looked up, or computed and recorded.
* `Encodes.implements`: code for a term implements it, if the blocks of the rules do.
* `blocks_of_encoded`: every block implements the body of its rule.
* `halts_of_encoded`: a program halts with what the body of its first rule yields.
-/

namespace ParsingMachine

namespace Machine

/-! ### Operations that only compute -/

/-- What a match asks for. -/
def Effect.ofMatch (st : State) : Match → Effect
  | some (stop, s) => .next { st with pos := stop, parse := s }
  | none => .fail st

/-- The operation has no targets and does what the function says. -/
structure Computes (src : Resident) (op : Opcode) (f : Nat → ParseState → Match) : Prop where
  /-- No targets. -/
  mapTargets_eq : ∀ target place, (op.linked target).mapTargets place = op
  /-- What it does. -/
  perform_eq : ∀ next st, perform op next st src = (Effect.ofMatch st (f st.pos st.parse), src)

section

variable {src : Resident}

/-- Testing the next byte computes the match of one byte. -/
theorem computes_consume {op : Opcode} {test : UInt8 → Bool}
    (hop : ∀ target place, (op.linked target).mapTargets place = op)
    (hperform : ∀ next st, perform op next st src = consume test false st src) :
    Computes src op fun pos s ↦ if src.text[pos]?.any test then some (pos + 1, s) else none := by
  refine ⟨hop, fun next st ↦ ?_⟩
  rw [hperform, consume_run]
  split <;> rfl

/-- Testing the next byte without failing computes the match of one byte or none. -/
theorem computes_optional {op : Opcode} {test : UInt8 → Bool}
    (hop : ∀ target place, (op.linked target).mapTargets place = op)
    (hperform : ∀ next st, perform op next st src = consume test true st src) :
    Computes src op fun pos s ↦
      if src.text[pos]?.any test then some (pos + 1, s) else some (pos, s) := by
  refine ⟨hop, fun next st ↦ ?_⟩
  rw [hperform, consume_run]
  split <;> rfl

theorem computes_anyByte :
    Computes src .anyByte fun pos s ↦
      if src.text[pos]?.any fun _ ↦ true then some (pos + 1, s) else none := by
  refine ⟨fun _ _ ↦ rfl, fun next st ↦ ?_⟩
  show ((if st.pos < src.text.size then Effect.next _ else Effect.fail st), src) = _
  by_cases hlt : st.pos < src.text.size
  · rw [if_pos hlt, Array.getElem?_eq_getElem hlt]
    rfl
  · rw [if_neg hlt, Array.getElem?_eq_none (Nat.le_of_not_lt hlt)]
    rfl

/-- Skipping the bytes of a set never fails. -/
theorem computes_skipClass (set : ByteSet) :
    Computes src (.skipClass set) fun pos s ↦
      some ((skipClass set (src.text.size - pos) pos src).1, s) := by
  refine ⟨fun _ _ ↦ rfl, fun next st ↦ ?_⟩
  have hsnd := (agree_skipClass (Resident.simulates_self src).toSameBytes set
    (src.text.size - st.pos) st.pos src src ⟨rfl, rfl⟩).2.1
  exact Prod.ext rfl hsnd

/-- A negated test of the next byte consumes nothing. -/
theorem computes_notClass (set : ByteSet) :
    Computes src (.notClass set) fun pos s ↦
      if src.text[pos]?.any set.contains then none else some (pos, s) := by
  refine ⟨fun _ _ ↦ rfl, fun next st ↦ ?_⟩
  rw [perform, Resident.bind_run (byte?_run st.pos)]
  rcases src.text[st.pos]? with - | b
  · rfl
  · cases htest : set.contains b
    · simp [htest]
      rfl
    · simp [htest]
      rfl

/-- A negated test of the next bytes consumes nothing. -/
theorem computes_notLiteral (bytes : List UInt8) :
    Computes src (.notLiteral bytes) fun pos s ↦
      if src.matchesAt pos bytes then none else some (pos, s) := by
  refine ⟨fun _ _ ↦ rfl, fun next st ↦ ?_⟩
  show ((if src.matchesAt st.pos bytes then Effect.fail st else Effect.next st), src) = _
  split <;> rfl

/-- The indentation of the present line is pushed. -/
theorem computes_defIndent :
    Computes src .defIndent fun pos s ↦ some (pos, s.pushIndent (Buffer.indent pos src).1) := by
  refine ⟨fun _ _ ↦ rfl, fun next st ↦ ?_⟩
  have hsnd := ((Resident.simulates_self src).indent st.pos src src ⟨rfl, rfl⟩).2.1
  exact Prod.ext rfl hsnd

/-- The text goes on with the newest indentation, which is consumed. -/
theorem computes_isIndent :
    Computes src .isIndent fun pos s ↦
      if src.matchesAt pos s.lastIndent then some (pos + s.lastIndent.length, s) else none := by
  refine ⟨fun _ _ ↦ rfl, fun next st ↦ ?_⟩
  show (if src.matchesAt st.pos st.parse.lastIndent then _ else _ : StateM Resident Effect) src = _
  split <;> rfl

/-- The operation uses the position saved last, to which it applies the function of a term. -/
structure Closes (src : Resident) (op : Opcode) (leave : Nat → ParseState → Match → Match) : Prop
    where
  /-- No targets. -/
  mapTargets_eq : ∀ target place, (op.linked target).mapTargets place = op
  /-- A failure stays one. -/
  leave_none : ∀ pos s, leave pos s none = none
  /-- What it does. -/
  perform_eq : ∀ next st saved positions s, st.positions.pop? = some (saved, positions) →
    perform op next st src =
      (Effect.ofMatch { st with positions } (leave saved.pos s (some (st.pos, st.parse))), src)

/-- Going back to the saved position keeps the parse state. -/
theorem closes_posBack :
    Closes src .posBack fun pos _ r ↦ r.map fun (_, s) ↦ (pos, s) := by
  refine ⟨fun _ _ ↦ rfl, fun _ _ ↦ rfl, fun next st saved positions s hpop ↦ ?_⟩
  simp only [perform, hpop]
  rfl

/-- The text from the saved position on becomes a symbol. -/
theorem closes_defSymbol (table : String) :
    Closes src (.defSymbol table) fun pos _ r ↦
      r.map fun (stop, s) ↦ (stop, s.define table (src.subbytes pos stop)) := by
  refine ⟨fun _ _ ↦ rfl, fun _ _ ↦ rfl, fun next st saved positions s hpop ↦ ?_⟩
  simp only [perform, hpop]
  rfl

/-- The text from the saved position on has to be a symbol. -/
theorem closes_isSymbol (table : String) (lastOnly : Bool) :
    Closes src (.isSymbol table lastOnly) fun pos _ r ↦
      r.filter fun (stop, s) ↦ s.isSymbol table (src.subbytes pos stop) lastOnly := by
  refine ⟨fun _ _ ↦ rfl, fun _ _ ↦ rfl, fun next st saved positions s hpop ↦ ?_⟩
  simp only [perform, hpop]
  show (if st.parse.isSymbol table (src.subbytes saved.pos st.pos) lastOnly then
    Effect.next _ else Effect.fail _, src) = (Effect.ofMatch _ (Option.filter (fun x ↦
      x.2.isSymbol table (src.subbytes saved.pos x.1) lastOnly) (some (st.pos, st.parse))), src)
  cases hsym : st.parse.isSymbol table (src.subbytes saved.pos st.pos) lastOnly
  · simp only [Option.filter, hsym]
    rfl
  · simp only [Option.filter, hsym]
    rfl

end

namespace Image

variable {W : Image} {src : Resident} {d : Nat} {t u : Term} {pc mid next : InstrId}

/-! ### Pieces of code -/

/-- No code implements the term that is done. -/
theorem implements_done (pc : InstrId) : W.Implements src d .done pc pc := by
  intro st r hlive hpc hmemo hyields
  rw [Yields.done_iff.mp hyields]
  refine ⟨hlive, st.memo, hmemo, ?_⟩
  rw [← hpc]
  exact .refl _

/-- Code for a term implements every term that it refines. -/
theorem Implements.of_refines (h : W.Implements src d u pc next)
    (href : Refines W.grammar src t u) : W.Implements src d t pc next :=
  fun st r hlive hpc hmemo hyields ↦ h st r hlive hpc hmemo (href _ _ _ _ hyields)

/-- One piece of code after the other. -/
theorem Implements.both (h : W.Implements src d t pc mid) (h' : W.Implements src d u mid next) :
    W.Implements src d (.both t u) pc next := by
  intro st r hlive hpc hmemo hyields
  rcases Yields.both_iff.mp hyields with ⟨ht, rfl⟩ | ⟨stop, s, ht, hu⟩
  · exact h st none hlive hpc hmemo ht
  · obtain ⟨hmid, memo, hmemo', hreach⟩ := h st _ hlive hpc hmemo ht
    exact .of_reaches hreach (h' _ r hmid rfl hmemo' hu)

/-- An instruction that computes a match implements it. -/
theorem implements_prim {op : Opcode} {f : Nat → ParseState → Match} (hop : Computes src op f)
    (hpc : W.Holds pc op (some next)) : W.Implements src d (.prim f) pc next := by
  intro st r hlive hst hmemo hyields
  rw [Yields.prim_iff.mp hyields]
  have hreach := hpc.reaches hlive st hst hmemo (Effect.ofMatch st (f st.pos st.parse)) (by
    rw [hop.mapTargets_eq]
    exact hop.perform_eq _ st)
  rcases hf : f st.pos st.parse with - | ⟨stop, s⟩
  · rw [hf] at hreach
    exact ⟨st, hmemo, .refl st, hreach⟩
  · rw [hf] at hreach
    exact ⟨hpc.live_next hlive, st.memo, hmemo, hreach⟩

theorem implements_fails (hpc : W.Holds pc .fail none) : W.Implements src d .fails pc next := by
  intro st r hlive hst hmemo hyields
  rw [Yields.fails_iff.mp hyields]
  exact ⟨st, hmemo, .refl st, hpc.reaches hlive _ hst hmemo (.fail st) rfl⟩

/-! ### Alternatives -/

/-- Code under a failure frame: it ends after the frame is dropped, or goes on where the frame
says. -/
theorem Implements.framed (h : W.Implements src d t mid next) {onFail : InstrId} {r : Match}
    (hpc : W.Holds pc (.failPush onFail) (some mid)) (hlive : W.live pc) (st : State)
    (hst : st.pc = W.place pc) (hmemo : W.Records src st.memo)
    (hyields : Yields W.grammar src d t st.pos st.parse r) :
    ∃ memo, W.Records src memo ∧ match r with
      | some (stop, s) => W.live next ∧ W.Reaches src (.running st)
          (.running { st with pc := W.place next, pos := stop, parse := s, memo,
                              frames := frame st (W.place onFail) :: st.frames })
      | none => W.Reaches src (.running st)
          (.running { st with pc := W.place onFail, memo }) := by
  have hpush := hpc.reaches hlive st hst hmemo
    (.next { st with frames := frame st (W.place onFail) :: st.frames }) rfl
  have hends := h { st with pc := W.place mid, frames := frame st (W.place onFail) :: st.frames } r
    (hpc.live_next hlive) rfl hmemo hyields
  rcases r with - | ⟨stop, s⟩
  · obtain ⟨memo, hmemo', hreach⟩ := hends.caught rfl rfl rfl
    exact ⟨memo, hmemo', hpush.trans hreach⟩
  · obtain ⟨hnext, memo, hmemo', hreach⟩ := hends
    exact ⟨memo, hmemo', hnext, hpush.trans hreach⟩

/-- Dropping the newest failure frame. -/
theorem reaches_failPop {f : Frame} {rest : List Frame}
    (hpc : W.Holds pc .failPop (some next)) (hlive : W.live pc) (st : State)
    (hst : st.pc = W.place pc) (hmemo : W.Records src st.memo) (hframes : st.frames = f :: rest) :
    W.Reaches src (.running st) (.running { st with pc := W.place next, frames := rest }) := by
  have hpop := hpc.reaches hlive _ hst hmemo (.next { st with frames := st.frames.tail }) rfl
  rw [hframes] at hpop
  exact hpop

/-- A frame around the first alternative leads to the second. -/
theorem Implements.either {pop rest : InstrId} (h : W.Implements src d t mid pop)
    (h' : W.Implements src d u rest next) (hpc : W.Holds pc (.failPush rest) (some mid))
    (hpop : W.Holds pop .failPop (some next)) : W.Implements src d (.either t u) pc next := by
  intro st r hlive hst hmemo hyields
  have hrest : W.live rest := hpc.live_branch hlive (List.mem_singleton_self _)
  rcases Yields.either_iff.mp hyields with ⟨hr, ht⟩ | ⟨ht, hu⟩
  · obtain ⟨⟨stop, s⟩, rfl⟩ := Option.isSome_iff_exists.mp hr
    obtain ⟨memo, hmemo', hlive', hreach⟩ := h.framed hpc hlive st hst hmemo ht
    exact ⟨hpop.live_next hlive', memo, hmemo',
      hreach.trans (reaches_failPop hpop hlive' _ rfl hmemo' rfl)⟩
  · obtain ⟨memo, hmemo', hreach⟩ := h.framed hpc hlive st hst hmemo ht
    exact .of_reaches hreach (h' _ r hrest rfl hmemo' hu)

/-- A frame around the operand leads to what comes next; behind the operand the frame is dropped and
the code fails. -/
theorem Implements.not {pop fail : InstrId} (h : W.Implements src d t mid pop)
    (hpc : W.Holds pc (.failPush next) (some mid)) (hpop : W.Holds pop .failPop (some fail))
    (hfail : W.Holds fail .fail none) :
    W.Implements src d (.around id t fun pos s r ↦ if r.isSome then none else some (pos, s))
      pc next := by
  intro st r hlive hst hmemo hyields
  obtain ⟨x, ht, rfl⟩ := Yields.around_iff.mp hyields
  rcases x with - | ⟨stop, s⟩
  · obtain ⟨memo, hmemo', hreach⟩ := h.framed hpc hlive st hst hmemo ht
    exact ⟨hpc.live_branch hlive (List.mem_singleton_self _), memo, hmemo', hreach⟩
  · obtain ⟨memo, hmemo', hlive', hreach⟩ := h.framed hpc hlive st hst hmemo ht
    have hdrop := hreach.trans (reaches_failPop hpop hlive' _ rfl hmemo' rfl)
    have hstop := hfail.reaches (hpop.live_next hlive') { st with
      pc := W.place fail, pos := stop, parse := s, memo } rfl hmemo' (.fail _) rfl
    exact ends_none (hdrop.trans hstop) hmemo' ⟨rfl, ⟨[], rfl⟩, ⟨[], rfl⟩⟩

/-! ### Repetition -/

/-- A frame holds what the machine has now. -/
structure Saves (f : Frame) (st : State) (onFail : InstrId) : Prop where
  /-- Where to go on. -/
  onFail_eq : f.onFail = onFail
  /-- The position. -/
  pos_eq : f.pos = st.pos
  /-- The parse state. -/
  parse_eq : f.parse = st.parse
  /-- The height of the stack of return addresses. -/
  calls_eq : f.calls = st.calls.height
  /-- The height of the stack of saved positions. -/
  positions_eq : f.positions = st.positions.height

/-- The rounds of a repetition. Each starts under a frame that would give back what it started
with. -/
theorem Implements.rounds {e : ExprId} {start skip : InstrId} {guarded : Bool} {rest : List Frame}
    (h : W.Implements src d (.node e) start skip) (hlive : W.live start)
    (hskip : W.Holds skip (.failSkip guarded) (some start))
    (hconsumes : guarded = false → W.grammar.Consumes e) {t : Term} {pos : Nat} {s : ParseState}
    {r : Match} (hyields : Yields W.grammar src d t pos s r) (ht : t = .loop e) (st : State)
    (f : Frame) (hst : st.pc = W.place start) (hmemo : W.Records src st.memo) (hpos : st.pos = pos)
    (hparse : st.parse = s) (hframes : st.frames = f :: rest) (hf : Saves f st (W.place next)) :
    ∃ stop s' memo, r = some (stop, s') ∧ W.Records src memo ∧ W.Reaches src (.running st)
      (.running { st with
        pc := W.place next, pos := stop, parse := s', frames := rest, memo }) := by
  -- on the derivation for the loop; a round fails, stands still, or is followed by others
  induction hyields generalizing st f with
  | loopDone hround =>
    cases ht
    subst hpos hparse
    obtain ⟨memo, hmemo', hreach⟩ :=
      (h st none hlive hst hmemo hround).caught hframes hf.calls_eq hf.positions_eq
    rw [hf.onFail_eq, hf.pos_eq, hf.parse_eq] at hreach
    exact ⟨_, _, memo, rfl, hmemo', hreach⟩
  | @loopStill d e' pos s s' hround =>
    cases ht
    subst hpos hparse
    cases guarded with
    | false => exact absurd hround (hconsumes rfl _ _ _ _ _)
    -- the guard sees that the position is the one of the frame, and leaves
    | true =>
      obtain ⟨hlive', memo, hmemo', hreach⟩ := h st _ hlive hst hmemo hround
      have hleave := hskip.reaches hlive' { st with
          pc := W.place skip, parse := s', memo } rfl hmemo'
        (.jump f.onFail { st with pc := W.place skip, parse := s', frames := rest, memo }) (by
          simp [perform, Opcode.linked, Opcode.mapTargets, hframes, hf.pos_eq]
          rfl)
      rw [hf.onFail_eq] at hleave
      exact ⟨_, _, memo, rfl, hmemo', hreach.trans hleave⟩
  | @loopStep d e' pos s mid s' r hmid hround _ _ ih =>
    cases ht
    subst hpos hparse
    obtain ⟨hlive', memo, hmemo', hreach⟩ := h st _ hlive hst hmemo hround
    -- the frame is brought up to date and serves the next round
    have hframe : Saves { f with pos := mid, parse := s' } { st with
        pc := W.place start, pos := mid, parse := s', memo
        frames := { f with pos := mid, parse := s' } :: rest } (W.place next) :=
      ⟨hf.onFail_eq, rfl, rfl, hf.calls_eq, hf.positions_eq⟩
    have hagain := hskip.reaches hlive' { st with
        pc := W.place skip, pos := mid, parse := s', memo } rfl hmemo' (.next { st with
          pc := W.place skip, pos := mid, parse := s', memo
          frames := { f with pos := mid, parse := s' } :: rest }) (by
        simp [perform, Opcode.linked, Opcode.mapTargets, hframes, hf.pos_eq, Ne.symm hmid]
        rfl)
    obtain ⟨stop, s₂, memo', hr, hmemo₂, hreach₂⟩ := ih h rfl _ _ rfl hmemo' rfl rfl rfl hframe
    exact ⟨stop, s₂, memo', hr, hmemo₂, (hreach.trans hagain).trans hreach₂⟩
  | _ => cases ht

/-- A repetition starts its first round under a frame that leads to what comes next. -/
theorem Implements.loop {e : ExprId} {start skip : InstrId} {guarded : Bool}
    (h : W.Implements src d (.node e) start skip) (hpc : W.Holds pc (.failPush next) (some start))
    (hskip : W.Holds skip (.failSkip guarded) (some start))
    (hconsumes : guarded = false → W.grammar.Consumes e) :
    W.Implements src d (.loop e) pc next := by
  intro st r hlive hst hmemo hyields
  have hpush := hpc.reaches hlive st hst hmemo
    (.next { st with frames := frame st (W.place next) :: st.frames }) rfl
  obtain ⟨stop, s', memo, rfl, hmemo', hreach⟩ := h.rounds (hpc.live_next hlive) hskip hconsumes
    hyields rfl { st with
      pc := W.place start, frames := frame st (W.place next) :: st.frames } _ rfl hmemo rfl rfl rfl
    ⟨rfl, rfl, rfl, rfl, rfl⟩
  exact ⟨hpc.live_branch hlive (List.mem_singleton_self _), memo, hmemo', hpush.trans hreach⟩

/-! ### Saved positions and blocks -/

/-- A saved position around code, and an operation that uses it. -/
theorem Implements.spanned {op : Opcode} {leave : Nat → ParseState → Match → Match}
    {close : InstrId}
    (h : W.Implements src d t mid close) (hop : Closes src op leave)
    (hpc : W.Holds pc .posPush (some mid)) (hclose : W.Holds close op (some next)) :
    W.Implements src d (.around id t leave) pc next := by
  intro st r hlive hst hmemo hyields
  obtain ⟨x, ht, rfl⟩ := Yields.around_iff.mp hyields
  have hpush := hpc.reaches hlive st hst hmemo
    (.next { st with positions := st.positions.push ⟨st.pos, st.pc⟩ }) rfl
  have hends := h { st with pc := W.place mid, positions := st.positions.push ⟨st.pos, st.pc⟩ } x
    (hpc.live_next hlive) rfl hmemo ht
  rcases x with - | ⟨stop, s⟩
  · rw [hop.leave_none]
    obtain ⟨st', hmemo', ⟨hframes, hcalls, ⟨added, hadded⟩⟩, hreach⟩ := hends
    refine ⟨st', hmemo', ⟨hframes, hcalls, ⟨added ++ [⟨st.pos, st.pc⟩], ?_⟩⟩, hpush.trans hreach⟩
    rw [hadded, List.append_assoc]
    rfl
  · obtain ⟨hlive', memo, hmemo', hreach⟩ := hends
    have heffect := hop.perform_eq ((some next).map W.place) { st with
      pc := W.place close, pos := stop, parse := s, memo
      positions := st.positions.push ⟨st.pos, st.pc⟩ } ⟨st.pos, st.pc⟩ st.positions st.parse rfl
    have hstep := hclose.reaches hlive' _ rfl hmemo' _ (by
      rw [hop.mapTargets_eq]
      exact heffect)
    have hreach' := (hpush.trans hreach).trans hstep
    change Reaches _ _ _
      ((Effect.ofMatch _ (leave st.pos st.parse (some (stop, s)))).step _) at hreach'
    generalize leave st.pos st.parse (some (stop, s)) = y at hreach' ⊢
    rcases y with - | ⟨stop', s'⟩
    · exact ends_none hreach' hmemo' ⟨rfl, ⟨[], rfl⟩, ⟨[], rfl⟩⟩
    · exact ⟨hclose.live_next hlive', memo, hmemo', hreach'⟩

/-- A scope around code, which is closed on both of its ways out. -/
theorem Implements.block {pop popTable push failed fail : InstrId}
    (h : W.Implements src d t mid pop)
    (hpc : W.Holds pc .tablePush (some push)) (hpush : W.Holds push (.failPush failed) (some mid))
    (hpop : W.Holds pop .failPop (some popTable))
    (hpopTable : W.Holds popTable .tablePop (some next))
    (hfailed : W.Holds failed .tablePop (some fail)) (hfail : W.Holds fail .fail none) :
    W.Implements src d (.around ParseState.openScope t
      fun _ _ r ↦ r.map fun (stop, s) ↦ (stop, s.closeScope)) pc next := by
  intro st r hlive hst hmemo hyields
  obtain ⟨x, ht, rfl⟩ := Yields.around_iff.mp hyields
  have hopen := hpc.reaches hlive _ hst hmemo (.next { st with parse := st.parse.openScope }) rfl
  have hlive' := hpc.live_next hlive
  rcases x with - | ⟨stop, s⟩
  · obtain ⟨memo, hmemo', hreach⟩ := h.framed hpush hlive' { st with
      pc := W.place push, parse := st.parse.openScope } rfl hmemo ht
    -- the frame gives back the state with the open scope, which is then closed as after a success
    have hfailed' := hpush.live_branch hlive' (List.mem_singleton_self _)
    have hclose := hfailed.reaches hfailed' { st with
      pc := W.place failed, parse := st.parse.openScope, memo } rfl hmemo' (.next { st with
        pc := W.place failed, parse := st.parse.openScope.closeScope, memo }) rfl
    have hstop := hfail.reaches (hfailed.live_next hfailed') { st with
      pc := W.place fail, parse := st.parse.openScope.closeScope, memo } rfl hmemo' (.fail _) rfl
    exact ends_none (((hopen.trans hreach).trans hclose).trans hstop) hmemo'
      ⟨rfl, ⟨[], rfl⟩, ⟨[], rfl⟩⟩
  · obtain ⟨memo, hmemo', hlive₂, hreach⟩ := h.framed hpush hlive' { st with
      pc := W.place push, parse := st.parse.openScope } rfl hmemo ht
    have hlive₃ := hpop.live_next hlive₂
    have hdrop := hreach.trans (reaches_failPop hpop hlive₂ _ rfl hmemo' rfl)
    have hclose := hpopTable.reaches hlive₃ { st with
      pc := W.place popTable, pos := stop, parse := s, memo } rfl hmemo' (.next { st with
        pc := W.place popTable, pos := stop, parse := s.closeScope, memo }) rfl
    exact ⟨hpopTable.live_next hlive₃, memo, hmemo', (hopen.trans hdrop).trans hclose⟩

/-! ### Calls and jumps -/

/-- The blocks of all rules implement their bodies. -/
def Blocks (W : Image) (src : Resident) (d : Nat) : Prop :=
  ∀ rule head body, W.target rule = some head → W.live head → W.grammar.body? rule = some body →
    ∃ ret, W.Holds ret .ret none ∧ W.Implements src d (.node body) head ret

/-- A call implements the reference to its rule. -/
theorem implements_call {rule : RuleId} (hblocks : ∀ d' < d, W.Blocks src d')
    (hpc : W.Holds pc (.call rule none) (some next)) : W.Implements src d (.call rule) pc next := by
  intro st r hlive hst hmemo hyields
  obtain ⟨instr, hinstr, hop, -⟩ := id hpc
  obtain ⟨head, body, htarget, hhead, hbody⟩ := W.live_target pc instr rule hlive hinstr hop
  rcases Yields.call_iff.mp hyields with ⟨hnone, -⟩ | ⟨body', d', hbody', rfl, hyields'⟩
  · rw [hbody] at hnone
    cases hnone
  · rw [hbody] at hbody'
    cases hbody'
    -- the body is one level below, where blocks are known to implement their bodies
    obtain ⟨ret, hret, himpl⟩ := hblocks d' (Nat.lt_succ_self d') rule head body htarget hhead hbody
    have hcall := hpc.reaches hlive st hst hmemo
      (.jump (W.place head) { st with calls := st.calls.push (W.place next) }) (by
        simp only [perform, Opcode.linked, Opcode.mapTargets, htarget]
        rfl)
    have hends := himpl { st with
      pc := W.place head, calls := st.calls.push (W.place next) } r hhead rfl hmemo hyields'
    rcases r with - | ⟨stop, s⟩
    · obtain ⟨st', hmemo', ⟨hframes, ⟨added, hadded⟩, hpositions⟩, hreach⟩ := hends
      refine ends_none (hcall.trans hreach) hmemo'
        ⟨hframes, ⟨added ++ [W.place next], ?_⟩, hpositions⟩
      rw [hadded, List.append_assoc]
      rfl
    · obtain ⟨hlive', memo, hmemo', hreach⟩ := hends
      have hreturn := hret.reaches hlive' { st with
        pc := W.place ret, pos := stop, parse := s, memo
        calls := st.calls.push (W.place next) } rfl hmemo' (.jump (W.place next) { st with
          pc := W.place ret, pos := stop, parse := s, memo }) rfl
      exact ⟨hpc.live_next hlive, memo, hmemo', (hcall.trans hreach).trans hreturn⟩

theorem perform_dispatch {table : List InstrId} {target : InstrId} {st : State}
    (htarget : table[src.slot st.pos]? = some target) (next : Option InstrId) :
    perform (.dispatch table) next st src = (.jump target st, src) := by
  rw [perform, Resident.bind_run (byte?_run st.pos)]
  rcases hbyte : src.text[st.pos]? with - | b
  · have hentry : table[256]? = some target := by
      simpa [Resident.slot, hbyte, endSlot] using htarget
    simp only [hentry]
    rfl
  · have hentry : table[b.toNat]? = some target := by simpa [Resident.slot, hbyte] using htarget
    simp only [hentry]
    rfl

/-- A jump by the next byte. Each entry is code for a term that yields the same where the byte is
next. -/
theorem implements_dispatch {table : List InstrId} {terms : Nat → Term}
    (hlength : table.length = slotCount)
    (hterms : ∀ slot d pos s r, src.slot pos = slot → Yields W.grammar src d t pos s r →
      Yields W.grammar src d (terms slot) pos s r)
    (hentries : ∀ slot target, table[slot]? = some target →
      W.Implements src d (terms slot) target next)
    (hpc : W.Holds pc (.dispatch table) none) : W.Implements src d t pc next := by
  intro st r hlive hst hmemo hyields
  have hslot : src.slot st.pos < table.length := by
    rw [hlength]
    exact src.slot_lt st.pos
  obtain ⟨target, htarget⟩ : ∃ target, table[src.slot st.pos]? = some target :=
    ⟨_, List.getElem?_eq_getElem hslot⟩
  have hentry : (table.map W.place)[src.slot st.pos]? = some (W.place target) := by
    rw [List.getElem?_map, htarget]
    rfl
  have hjump := hpc.reaches hlive _ hst hmemo _ (perform_dispatch hentry none)
  have htarget' : W.live target := hpc.live_branch hlive (List.mem_of_getElem? htarget)
  have hyields' := hterms _ d st.pos st.parse r rfl hyields
  exact .of_reaches hjump (hentries _ _ htarget _ r htarget' rfl hmemo hyields')

/-- A switch goes on at its memoized path and changes nothing. -/
theorem Implements.switch {activated : InstrId} {plain : Option InstrId}
    (h : W.Implements src d t activated next)
    (hpc : W.Holds pc (.monitoredSwitch activated) plain) : W.Implements src d t pc next := by
  intro st r hlive hst hmemo hyields
  have hjump := hpc.reaches hlive _ hst hmemo (.jump (W.place activated) st) rfl
  exact .of_reaches hjump
    (h _ r (hpc.live_branch hlive (List.mem_singleton_self _)) rfl hmemo hyields)

/-! ### Memoized results -/

/-- A hit gives what the expression of the slot yields here. -/
theorem Records.eq_of_find? {m : MemoTable} (hm : W.Records src m) {use : MemoUse} {slot : MemoSlot}
    (hslot : W.memo[use.memo]? = some slot) {pos : Nat} {s : ParseState} {r : Match}
    {result : Option Nat} (hyields : Yields W.grammar src d (.node slot.expr) pos s r)
    (hfind : m.find? (memoIndex use pos s) = some result) :
    r = result.map fun stop ↦ (stop, s) := by
  obtain ⟨slot', hslot', d', hyields'⟩ := hm.find hfind
  rw [hslot] at hslot'
  cases hslot'
  exact hyields.unique hyields'

/-- A look-up finds what is kept for its memo, wherever the monitor of that memo is placed. -/
theorem perform_lookup {use : MemoUse} {found : Option (Option Nat)} {st : State}
    (hfind : st.memo.find? (memoIndex use st.pos st.parse) = found)
    {place : InstrId → InstrId} {child : Option Int} {onHit onMemoFail : InstrId}
    {next : Option InstrId} :
    perform (.lookup { use with monitor := use.monitor.map place } child onHit onMemoFail) next st
      src = (match found with
        | some (some stop) => .jump onHit { st with pos := stop }
        | some none => .fail st
        | none => .next { st with frames := frame st onMemoFail :: st.frames }, src) := by
  have hfind' : st.memo.find? (memoIndex { use with monitor := use.monitor.map place } st.pos
      st.parse) = found := hfind
  simp only [perform, hfind']
  rcases found with - | - | stop <;> rfl

/-- A result that is looked up, or computed and then recorded, also when it is a failure. -/
theorem Implements.memoized {use : MemoUse} {slot : MemoSlot} {child : Option Int}
    {memoize memoFail : InstrId} (h : W.Implements src d t mid memoize)
    (hslot : W.memo[use.memo]? = some slot) (hkey : use.key = slot.key)
    (href : Refines W.grammar src t (.node slot.expr))
    (hpc : W.Holds pc (.lookup use child next memoFail) (some mid))
    (hmemoize : W.Holds memoize (.memoize use child) (some next))
    (hmemoFail : W.Holds memoFail (.memoizeFail use) none) : W.Implements src d t pc next := by
  intro st r hlive hst hmemo hyields
  have hexpr := href _ _ _ _ hyields
  have hnext : W.live next := hpc.live_branch hlive List.mem_cons_self
  rcases hfind : st.memo.find? (memoIndex use st.pos st.parse) with - | result
  -- nothing is kept: the code in between runs under a frame that would record its failure
  · have hpush := hpc.reaches hlive st hst hmemo
      (.next { st with frames := frame st (W.place memoFail) :: st.frames })
      (perform_lookup hfind)
    have hends := h { st with
      pc := W.place mid, frames := frame st (W.place memoFail) :: st.frames } r
      (hpc.live_next hlive) rfl hmemo hyields
    rcases r with - | ⟨stop, s⟩
    · obtain ⟨memo, hmemo', hreach⟩ := hends.caught rfl rfl rfl
      have hlive' : W.live memoFail := hpc.live_branch hlive (by simp [Opcode.branches])
      have hrecord := hmemoFail.reaches hlive' { st with
        pc := W.place memoFail, memo } rfl hmemo' (.fail { st with
          pc := W.place memoFail, memo := memo.insert (memoIndex use st.pos st.parse) none }) rfl
      exact ends_none ((hpush.trans hreach).trans hrecord) (hmemo'.insert hslot hkey hexpr)
        ⟨rfl, ⟨[], rfl⟩, ⟨[], rfl⟩⟩
    · obtain ⟨hlive', memo, hmemo', hreach⟩ := hends
      have hrecord := hmemoize.reaches hlive' { st with
        pc := W.place memoize, pos := stop, parse := s, memo
        frames := frame st (W.place memoFail) :: st.frames } rfl hmemo' (.next { st with
          pc := W.place memoize, pos := stop, parse := s
          memo := memo.insert (memoIndex use st.pos st.parse) (some stop) }) rfl
      exact ⟨hnext, _, hmemo'.insert hslot hkey hexpr, (hpush.trans hreach).trans hrecord⟩
  -- what is kept is what the expression yields here
  · obtain rfl := hmemo.eq_of_find? hslot hexpr hfind
    rcases result with - | stop
    · have hhit := hpc.reaches hlive st hst hmemo (.fail st) (perform_lookup hfind)
      exact ends_none hhit hmemo (.refl st)
    · have hhit := hpc.reaches hlive st hst hmemo (.jump (W.place next) { st with pos := stop })
        (perform_lookup hfind)
      exact ⟨hnext, st.memo, hmemo, hhit⟩

/-! ### All shapes of code -/

/-- The code from `pc` to `next` is code for a term. -/
inductive Encodes (W : Image) (src : Resident) : Term → InstrId → InstrId → Prop
  | refines {t u : Term} {pc next : InstrId} (href : Refines W.grammar src t u)
    (h : Encodes W src u pc next) : Encodes W src t pc next
  | done (pc : InstrId) : Encodes W src .done pc pc
  | both {t u : Term} {pc mid next : InstrId} (h : Encodes W src t pc mid)
    (h' : Encodes W src u mid next) : Encodes W src (.both t u) pc next
  | prim {op : Opcode} {f : Nat → ParseState → Match} {pc next : InstrId} (hop : Computes src op f)
    (hpc : W.Holds pc op (some next)) : Encodes W src (.prim f) pc next
  | fails {pc : InstrId} (next : InstrId) (hpc : W.Holds pc .fail none) :
    Encodes W src .fails pc next
  | either {t u : Term} {pc mid pop rest next : InstrId} (h : Encodes W src t mid pop)
    (h' : Encodes W src u rest next) (hpc : W.Holds pc (.failPush rest) (some mid))
    (hpop : W.Holds pop .failPop (some next)) : Encodes W src (.either t u) pc next
  | not {t : Term} {pc mid pop fail next : InstrId} (h : Encodes W src t mid pop)
    (hpc : W.Holds pc (.failPush next) (some mid)) (hpop : W.Holds pop .failPop (some fail))
    (hfail : W.Holds fail .fail none) :
    Encodes W src (.around id t fun pos s r ↦ if r.isSome then none else some (pos, s)) pc next
  | loop {e : ExprId} {guarded : Bool} {pc start skip next : InstrId}
    (h : Encodes W src (.node e) start skip) (hpc : W.Holds pc (.failPush next) (some start))
    (hskip : W.Holds skip (.failSkip guarded) (some start))
    (hconsumes : guarded = false → W.grammar.Consumes e) : Encodes W src (.loop e) pc next
  | spanned {t : Term} {op : Opcode} {leave : Nat → ParseState → Match → Match}
    {pc mid close next : InstrId} (h : Encodes W src t mid close) (hop : Closes src op leave)
    (hpc : W.Holds pc .posPush (some mid)) (hclose : W.Holds close op (some next)) :
    Encodes W src (.around id t leave) pc next
  | block {t : Term} {pc mid pop popTable push failed fail next : InstrId}
    (h : Encodes W src t mid pop) (hpc : W.Holds pc .tablePush (some push))
    (hpush : W.Holds push (.failPush failed) (some mid))
    (hpop : W.Holds pop .failPop (some popTable))
    (hpopTable : W.Holds popTable .tablePop (some next))
    (hfailed : W.Holds failed .tablePop (some fail)) (hfail : W.Holds fail .fail none) :
    Encodes W src (.around ParseState.openScope t
      fun _ _ r ↦ r.map fun (stop, s) ↦ (stop, s.closeScope)) pc next
  | call {rule : RuleId} {pc next : InstrId} (hpc : W.Holds pc (.call rule none) (some next)) :
    Encodes W src (.call rule) pc next
  | dispatch {t : Term} {table : List InstrId} (terms : Nat → Term) {pc next : InstrId}
    (hlength : table.length = slotCount)
    (hterms : ∀ slot d pos s r, src.slot pos = slot → Yields W.grammar src d t pos s r →
      Yields W.grammar src d (terms slot) pos s r)
    (hentries : ∀ slot target, table[slot]? = some target → Encodes W src (terms slot) target next)
    (hpc : W.Holds pc (.dispatch table) none) : Encodes W src t pc next
  | switch {t : Term} {activated pc next : InstrId} {plain : Option InstrId}
    (h : Encodes W src t activated next) (hpc : W.Holds pc (.monitoredSwitch activated) plain) :
    Encodes W src t pc next
  | memoized {t : Term} {use : MemoUse} {slot : MemoSlot} {child : Option Int}
    {pc mid memoize memoFail next : InstrId} (h : Encodes W src t mid memoize)
    (hslot : W.memo[use.memo]? = some slot) (hkey : use.key = slot.key)
    (href : Refines W.grammar src t (.node slot.expr))
    (hpc : W.Holds pc (.lookup use child next memoFail) (some mid))
    (hmemoize : W.Holds memoize (.memoize use child) (some next))
    (hmemoFail : W.Holds memoFail (.memoizeFail use) none) : Encodes W src t pc next

/-- Code for a term implements it. -/
theorem Encodes.implements (hblocks : ∀ d' < d, W.Blocks src d') (h : W.Encodes src t pc next) :
    W.Implements src d t pc next := by
  induction h with
  | refines href _ ih => exact ih.of_refines href
  | done pc => exact implements_done pc
  | both _ _ ih ih' => exact ih.both ih'
  | prim hop hpc => exact implements_prim hop hpc
  | fails next hpc => exact implements_fails hpc
  | either _ _ hpc hpop ih ih' => exact ih.either ih' hpc hpop
  | not _ hpc hpop hfail ih => exact ih.not hpc hpop hfail
  | loop _ hpc hskip hconsumes ih => exact ih.loop hpc hskip hconsumes
  | spanned _ hop hpc hclose ih => exact ih.spanned hop hpc hclose
  | block _ hpc hpush hpop hpopTable hfailed hfail ih =>
    exact ih.block hpc hpush hpop hpopTable hfailed hfail
  | call hpc => exact implements_call hblocks hpc
  | dispatch terms hlength hterms _ hpc ih => exact implements_dispatch hlength hterms ih hpc
  | switch _ hpc ih => exact ih.switch hpc
  | memoized _ hslot hkey href hpc hmemoize hmemoFail ih =>
    exact ih.memoized hslot hkey href hpc hmemoize hmemoFail

/-! ### Whole programs -/

/-- The blocks of all rules are code for their bodies. -/
def Encoded (W : Image) (src : Resident) : Prop :=
  ∀ rule head body, W.target rule = some head → W.grammar.body? rule = some body →
    ∃ ret, W.Holds ret .ret none ∧ W.Encodes src (.node body) head ret

/-- Every block implements the body of its rule, for any number of nested rules. -/
theorem blocks_of_encoded (h : W.Encoded src) (d : Nat) : W.Blocks src d := by
  induction d using Nat.strongRecOn with
  | ind d ih =>
    intro rule head body htarget _ hbody
    obtain ⟨ret, hret, hcode⟩ := h rule head body htarget hbody
    exact ⟨ret, hret, hcode.implements ih⟩

/-- A program that starts at the block of a rule halts with what the body of the rule yields. -/
theorem halts_of_encoded (h : W.Encoded src) {rule : RuleId} {head body : ExprId}
    (htarget : W.target rule = some head) (hhead : W.live head)
    (hbody : W.grammar.body? rule = some body) (hentry : W.program.entry = W.place head) {r : Match}
    (hyields : Yields W.grammar src d (.node body) 0 {} r) :
    W.Reaches src (.running (start W.program)) (.halted r.outcome) := by
  obtain ⟨ret, hret, himpl⟩ := blocks_of_encoded h d rule head body htarget hhead hbody
  have hends := himpl (start W.program) r hhead hentry records_empty hyields
  rcases r with - | ⟨stop, s⟩
  · obtain ⟨st', -, ⟨hframes, -, -⟩, hreach⟩ := hends
    have hnone : st'.frames = [] := hframes
    rwa [backtrack, hnone] at hreach
  · obtain ⟨hlive, memo, hmemo, hreach⟩ := hends
    exact hreach.trans (hret.reaches hlive _ rfl hmemo (.accept stop) rfl)

end Image

end Machine

end ParsingMachine
