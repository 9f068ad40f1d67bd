import Mathlib.Data.Set.Defs
import ParsingMachine.Proofs.Semantics.Yields

/-!
# Walking and matching agree

`Grammar.eval` counts steps and bounds its depth; `Yields` does neither. Both find the same results:
a walk that ends finds a result of the relation, and every result of the relation is found by all
walks that are deep enough, with a number of steps of its own. So whatever is proved of matching
holds of walks, and no other module has to look into a walk.

In between stands the walk of a term (`Term.walk`), which evaluates nodes by `eval`. It differs from
the walk of an operator only in the parse state that a failure leaves (`Walk.Same`), and nothing
looks at that: every failure either is the end of the walk or leads to where the parse state is put
back.

From walks to results the induction is over the depth of the walk, with the recursion as a
parameter: walking a term finds a result of it if walking nodes does. A walk of depth `n` enters no
more than `n` rules inside one another, so the depth also serves as the number of levels.

From results to walks the induction is over the derivation, and what is proved has to be stronger
than that some walk ends: `Term.Walks` asks it of all walks that are deep enough, and for a fixed
number of steps that is taken from however many there are. Only so can the walks of two parts be put
together, since they start with different numbers of steps and share one depth.

## Main statements

* `evalOp_same`: an operator is walked as its term is.
* `Yields.of_eval`: a walk that ends finds a result.
* `Yields.eval`: a result is found by a walk of some depth and some steps.
* `Grammar.mem_results`: the results of walks are those of the relation.
* `Yields.of_interpret`: a parse that does not run out of steps ends with the result of the rule's
  body.
-/

namespace ParsingMachine

/-! ### Walking a term -/

namespace Walk

/-- Ends a walk with a result. -/
def settle (r : Match) : Walk (Option Nat) := fun st ↦
  match r with
  | some (stop, s) => some (some stop, { st with parse := s })
  | none => some (none, st)

/-- The result of a walk that ended. -/
def result (r : Option Nat) (s : ParseState) : Match :=
  r.map fun stop ↦ (stop, s)

/-- Ends of two walks that differ at most in the parse state after a failure. -/
def Same (x y : Option (Option Nat × WalkState)) : Prop :=
  x = y ∨ ∃ st st', x = some (none, st) ∧ y = some (none, st') ∧ st.steps = st'.steps

theorem Same.refl (x : Option (Option Nat × WalkState)) : Same x x :=
  .inl rfl

end Walk

/-- Walks a term, given how nodes are walked. -/
def Term.walk (g : Grammar) (rounds : Nat) (recur : ExprId → Nat → Walk (Option Nat)) :
    Term → Nat → Walk (Option Nat)
  | node e, pos => recur e pos
  | call rule, pos =>
    match g.body? rule with
    | some body => recur body pos
    | none => pure none
  | prim f, pos => do
    Walk.settle (f pos (← Walk.parseState))
  | around enter t leave, pos => do
    let s ← Walk.parseState
    Walk.setParseState (enter s)
    let r ← walk g rounds recur t pos
    Walk.settle (leave pos s (Walk.result r (← Walk.parseState)))
  | both t u, pos => do
    match ← walk g rounds recur t pos with
    | some mid => walk g rounds recur u mid
    | none => pure none
  | either t u, pos => do
    let s ← Walk.parseState
    match ← walk g rounds recur t pos with
    | some stop => pure (some stop)
    | none =>
      Walk.setParseState s
      walk g rounds recur u pos
  | loop e, pos => some <$> Walk.repeated recur e rounds pos

variable {g : Grammar} {src : Resident}

/-- The term of a sequence is walked as the items are, one after the other. -/
theorem walk_all (rounds : Nat) (recur : ExprId → Nat → Walk (Option Nat)) (items : List ExprId)
    (pos : Nat) :
    (Term.all (items.map .node)).walk g rounds recur pos = Walk.inSequence recur items pos := by
  induction items generalizing pos with
  | nil => rfl
  | cons item items ih =>
    rw [Walk.inSequence, ← funext ih]
    rfl

/-- The term of a choice is walked as the alternatives are, up to the first that succeeds. -/
theorem walk_any (rounds : Nat) (recur : ExprId → Nat → Walk (Option Nat)) (alts : List ExprId)
    (pos : Nat) :
    (Term.any (alts.map .node)).walk g rounds recur pos = Walk.inChoice recur alts pos := by
  induction alts generalizing pos with
  | nil => rfl
  | cons alt alts ih =>
    rw [Walk.inChoice, ← ih]
    rfl

theorem walk_consumes (test : UInt8 → Bool) (rounds : Nat)
    (recur : ExprId → Nat → Walk (Option Nat)) (pos : Nat) (st : WalkState) :
    (Term.consumes src test).walk g rounds recur pos st =
      some (if src.text[pos]?.any test then some (pos + 1) else none, st) := by
  show Walk.settle (if src.text[pos]?.any test then some (pos + 1, st.parse) else none) st = _
  split <;> rfl

/-- An operator is walked as its term is, up to the parse state that a failure leaves. -/
theorem evalOp_same (g : Grammar) (src : Resident) (rounds : Nat)
    (recur : ExprId → Nat → Walk (Option Nat)) (op : Operator) (pos : Nat) (st : WalkState) :
    Walk.Same (g.evalOp src rounds recur op pos st) ((op.term src).walk g rounds recur pos st) := by
  cases op with
  | empty | mark _ | fail | reference _ | link _ _ | defIndent => exact .refl _
  | anyByte =>
    rw [Operator.term, walk_consumes]
    left
    rcases h : src.text[pos]? with - | b <;> simp [Grammar.evalOp, h] <;> rfl
  | byte b =>
    rw [Operator.term, walk_consumes]
    left
    rcases h : src.text[pos]? with - | c <;> simp [Grammar.evalOp, h] <;> rfl
  | byteClass set =>
    rw [Operator.term, walk_consumes]
    left
    rcases h : src.text[pos]? with - | c
    · simp [Grammar.evalOp, h]
      rfl
    · by_cases hc : set.contains c <;> simp [Grammar.evalOp, h, hc, Option.filter] <;> rfl
  | sequence items | construct items _ =>
    rw [Operator.term, walk_all]
    exact .refl _
  | choice alts =>
    rw [Operator.term, walk_any]
    exact .refl _
  | star inner _ | plus inner _ | optional inner => exact .refl _
  | and inner =>
    left
    simp only [Grammar.evalOp, Operator.term, Term.walk]
    show (recur inner pos st).bind _ = (recur inner pos st).bind _
    rcases h : recur inner pos st with - | ⟨- | stop, st'⟩ <;> rfl
  | not inner =>
    show Walk.Same ((recur inner pos st).bind _) ((recur inner pos st).bind _)
    -- where the operand succeeds both fail, but in different states
    rcases h : recur inner pos st with - | ⟨- | stop, st'⟩
    · exact .refl _
    · exact .refl _
    · exact .inr ⟨_, _, rfl, rfl, rfl⟩
  | block inner =>
    have hrun : (g.evalOp src rounds recur (.block inner) pos st) =
        (recur inner pos { st with parse := st.parse.openScope }).bind fun x ↦
          some (x.1, { x.2 with parse := x.2.parse.closeScope }) := rfl
    rw [hrun]
    show Walk.Same _ ((recur inner pos _).bind _)
    -- the walker closes the scope after a failure too
    rcases recur inner pos { st with parse := st.parse.openScope } with - | ⟨- | stop, st'⟩
    · exact .refl _
    · exact .inr ⟨_, _, rfl, rfl, rfl⟩
    · exact .refl _
  | defSymbol table inner =>
    left
    show (recur inner pos st).bind _ = (recur inner pos st).bind _
    rcases recur inner pos st with - | ⟨- | stop, st'⟩ <;> rfl
  | isSymbol table inner lastOnly =>
    left
    show (recur inner pos st).bind _ = (recur inner pos st).bind _
    rcases recur inner pos st with - | ⟨- | stop, st'⟩
    · rfl
    · rfl
    · show some
          (if st'.parse.isSymbol table (src.subbytes pos stop) lastOnly then some stop else none,
            st') =
        Walk.settle (Option.filter (fun x ↦ x.2.isSymbol table (src.subbytes pos x.1) lastOnly)
          (some (stop, st'.parse))) st'
      cases h : st'.parse.isSymbol table (src.subbytes pos stop) lastOnly <;>
        simp only [Option.filter, h] <;> rfl
  | isIndent =>
    left
    show some (if src.matchesAt pos st.parse.lastIndent then _ else none, st) =
      Walk.settle (if src.matchesAt pos st.parse.lastIndent then _ else none) st
    split <;> rfl

/-! ### Results of walks -/

section

variable {d rounds : Nat} {recur : ExprId → Nat → Walk (Option Nat)}

/-- The rounds of a repetition find a result of it if walking nodes finds results. -/
theorem Yields.of_repeated {e : ExprId}
    (hrecur : ∀ pos st q st', recur e pos st = some (q, st') →
      Yields g src d (.node e) pos st.parse (Walk.result q st'.parse))
    (n pos : Nat) (st : WalkState) (stop : Nat) (st' : WalkState)
    (h : Walk.repeated recur e n pos st = some (stop, st')) :
    Yields g src d (.loop e) pos st.parse (some (stop, st'.parse)) := by
  induction n generalizing pos st with
  | zero => cases h
  | succ n ih =>
    change (recur e pos st).bind _ = _ at h
    rcases hround : recur e pos st with - | ⟨- | mid, st₁⟩
    · rw [hround] at h
      cases h
    · rw [hround] at h
      cases h
      exact .loopDone (hrecur _ st _ _ hround)
    · rw [hround] at h
      change (if mid = pos then pure pos else Walk.repeated recur e n mid : Walk Nat) st₁ = _ at h
      split at h
      · rename_i hmid
        cases h
        subst hmid
        exact .loopStill (hrecur mid st _ _ hround)
      · rename_i hmid
        exact .loopStep hmid (hrecur pos st _ _ hround) (ih mid st₁ h)

/-- Walking a term finds a result of it if walking nodes does. -/
theorem Yields.of_walk
    (hrecur : ∀ e pos st q st', recur e pos st = some (q, st') →
      Yields g src d (.node e) pos st.parse (Walk.result q st'.parse))
    (t : Term) (pos : Nat) (st : WalkState) (q : Option Nat) (st' : WalkState)
    (h : t.walk g rounds recur pos st = some (q, st')) :
    Yields g src (d + 1) t pos st.parse (Walk.result q st'.parse) := by
  induction t generalizing pos st q st' with
  | node e => exact (hrecur e pos st q st' h).mono (Nat.le_succ d)
  | call rule =>
    rcases hbody : g.body? rule with - | body
    · simp only [Term.walk, hbody] at h
      cases h
      exact .undefined hbody
    · simp only [Term.walk, hbody] at h
      exact .call hbody (hrecur body pos st q st' h)
  | prim f =>
    rw [Yields.prim_iff]
    change Walk.settle (f pos st.parse) st = some (q, st') at h
    rcases hf : f pos st.parse with - | ⟨stop, s⟩ <;> rw [hf] at h <;> cases h <;> rfl
  | around enter t leave ih =>
    change (t.walk g rounds recur pos { st with parse := enter st.parse }).bind _ = _ at h
    rcases ht : t.walk g rounds recur pos { st with parse := enter st.parse } with - | ⟨q₁, st₁⟩
    · rw [ht] at h
      cases h
    · rw [ht] at h
      change Walk.settle (leave pos st.parse (Walk.result q₁ st₁.parse)) st₁ = some (q, st') at h
      refine Yields.around_iff.mpr ⟨_, ih pos _ _ _ ht, ?_⟩
      rcases hleave : leave pos st.parse (Walk.result q₁ st₁.parse) with - | ⟨stop, s⟩ <;>
        rw [hleave] at h <;> cases h <;> rfl
  | both t u iht ihu =>
    change (t.walk g rounds recur pos st).bind _ = _ at h
    rcases ht : t.walk g rounds recur pos st with - | ⟨- | mid, st₁⟩
    · rw [ht] at h
      cases h
    · rw [ht] at h
      cases h
      exact .bothNone (iht pos st _ _ ht)
    · rw [ht] at h
      exact .bothSome (iht pos st _ _ ht) (ihu mid st₁ q st' h)
  | either t u iht ihu =>
    change (t.walk g rounds recur pos st).bind _ = _ at h
    rcases ht : t.walk g rounds recur pos st with - | ⟨- | stop, st₁⟩
    · rw [ht] at h
      cases h
    · rw [ht] at h
      exact .eitherNone (iht pos st _ _ ht) (ihu pos { st₁ with parse := st.parse } q st' h)
    · rw [ht] at h
      cases h
      exact .eitherSome (iht pos st _ _ ht)
  | loop e =>
    change (Walk.repeated recur e rounds pos st).bind
      (fun (stop, st) ↦ some (some stop, st)) = _ at h
    rcases hloop : Walk.repeated recur e rounds pos st with - | ⟨stop, st₁⟩
    · rw [hloop] at h
      cases h
    · rw [hloop] at h
      cases h
      exact (of_repeated (hrecur e) rounds pos st stop st' hloop).mono (Nat.le_succ d)

/-- A walk of enough steps is deep enough for each of its rounds. -/
theorem Yields.of_eval (n : Nat) (e : ExprId) (pos : Nat) (st : WalkState) (q : Option Nat)
    (st' : WalkState) (h : g.eval src n e pos st = some (q, st')) :
    Yields g src n (.node e) pos st.parse (Walk.result q st'.parse) := by
  induction n generalizing e pos st q st' with
  | zero => cases h
  | succ n ih =>
    obtain ⟨s, steps⟩ := st
    cases steps with
    | zero => cases h
    | succ steps =>
      change g.evalOp src n (g.eval src n) (g.op e) pos ⟨s, steps⟩ = some (q, st') at h
      refine .node ?_
      rcases evalOp_same g src n (g.eval src n) (g.op e) pos ⟨s, steps⟩ with
        hsame | ⟨st₁, st₂, hwalk, hterm, -⟩
      · rw [hsame] at h
        exact .of_walk ih _ pos ⟨s, steps⟩ q st' h
      · rw [hwalk] at h
        cases h
        exact .of_walk ih _ pos ⟨s, steps⟩ none st₂ hterm

end

/-! ### Walks of results -/

/-- Walks that are deep enough take a number of steps and find a result. -/
def Term.Walks (g : Grammar) (src : Resident) (t : Term) (pos : Nat) (s : ParseState) (r : Match)
    (depth steps : Nat) : Prop :=
  ∀ n ≥ depth, ∀ rounds ≥ depth, ∀ j, ∃ q s',
    t.walk g rounds (g.eval src n) pos ⟨s, j + steps⟩ = some (q, ⟨s', j⟩) ∧ r = Walk.result q s'

namespace Term.Walks

variable {t u : Term} {pos n rounds depth depth' steps steps' : Nat} {s : ParseState} {r : Match}

/-- Walks that are deeper do the same. -/
theorem mono (h : t.Walks g src pos s r depth steps) (hle : depth ≤ depth') :
    t.Walks g src pos s r depth' steps :=
  fun n hn rounds hrounds ↦ h n (Nat.le_trans hle hn) rounds (Nat.le_trans hle hrounds)

theorem walk_none (h : t.Walks g src pos s none depth steps) (hn : depth ≤ n)
    (hrounds : depth ≤ rounds) (j : Nat) :
    ∃ s', t.walk g rounds (g.eval src n) pos ⟨s, j + steps⟩ = some (none, ⟨s', j⟩) := by
  obtain ⟨- | stop, s', hwalk, hr⟩ := h n hn rounds hrounds j
  · exact ⟨s', hwalk⟩
  · cases hr

theorem walk_some {stop : Nat} {s' : ParseState}
    (h : t.Walks g src pos s (some (stop, s')) depth steps) (hn : depth ≤ n)
    (hrounds : depth ≤ rounds) (j : Nat) :
    t.walk g rounds (g.eval src n) pos ⟨s, j + steps⟩ = some (some stop, ⟨s', j⟩) := by
  obtain ⟨- | stop', s₁, hwalk, hr⟩ := h n hn rounds hrounds j
  · cases hr
  · cases hr
    exact hwalk

/-- A node costs one level and one step. -/
theorem node {e : ExprId} (h : ((g.op e).term src).Walks g src pos s r depth steps) :
    (Term.node e).Walks g src pos s r (depth + 1) (steps + 1) := by
  intro n hn rounds _ j
  -- the depth of a node is also the number of rounds of its loops
  obtain ⟨n, rfl⟩ : ∃ m, n = m + 1 := ⟨n - 1, by omega⟩
  obtain ⟨q, s', hq, hr⟩ := h n (by omega) n (by omega) j
  have hstep : g.eval src (n + 1) e pos ⟨s, j + (steps + 1)⟩ =
      g.evalOp src n (g.eval src n) (g.op e) pos ⟨s, j + steps⟩ := rfl
  rcases evalOp_same g src n (g.eval src n) (g.op e) pos ⟨s, j + steps⟩ with
    hsame | ⟨⟨s₁, j₁⟩, ⟨s₂, j₂⟩, hwalk₁, hwalk₂, hj⟩
  · exact ⟨q, s', by rw [Term.walk, hstep, hsame, hq], hr⟩
  · rw [hq] at hwalk₂
    cases hwalk₂
    cases hj
    exact ⟨none, s₁, by rw [Term.walk, hstep, hwalk₁], hr⟩

theorem around {enter : ParseState → ParseState} {leave : Nat → ParseState → Match → Match}
    (h : t.Walks g src pos (enter s) r depth steps) :
    (Term.around enter t leave).Walks g src pos s (leave pos s r) depth steps := by
  intro n hn rounds hrounds j
  obtain ⟨q, s₁, hq, rfl⟩ := h n hn rounds hrounds j
  show ∃ q' s', (t.walk g rounds (g.eval src n) pos ⟨enter s, j + steps⟩).bind _ = _ ∧ _
  rw [hq]
  show ∃ q' s', Walk.settle (leave pos s (Walk.result q s₁)) ⟨s₁, j⟩ = _ ∧ _
  rcases leave pos s (Walk.result q s₁) with - | ⟨stop, s'⟩
  · exact ⟨none, s₁, rfl, rfl⟩
  · exact ⟨some stop, s', rfl, rfl⟩

theorem both_none (h : t.Walks g src pos s none depth steps) :
    (Term.both t u).Walks g src pos s none depth steps := by
  intro n hn rounds hrounds j
  obtain ⟨s', hs⟩ := h.walk_none hn hrounds j
  refine ⟨none, s', ?_, rfl⟩
  show (t.walk g rounds (g.eval src n) pos ⟨s, j + steps⟩).bind _ = _
  rw [hs]
  rfl

/-- The steps of two parts are added up, and their depth is shared. -/
theorem both_some {mid : Nat} {s' : ParseState}
    (h : t.Walks g src pos s (some (mid, s')) depth steps)
    (h' : u.Walks g src mid s' r depth steps') :
    (Term.both t u).Walks g src pos s r depth (steps' + steps) := by
  intro n hn rounds hrounds j
  show ∃ q s', (t.walk g rounds (g.eval src n) pos ⟨s, j + (steps' + steps)⟩).bind _ = _ ∧ _
  rw [← Nat.add_assoc, h.walk_some hn hrounds (j + steps')]
  exact h' n hn rounds hrounds j

theorem either_some {x : Nat × ParseState} (h : t.Walks g src pos s (some x) depth steps) :
    (Term.either t u).Walks g src pos s (some x) depth steps := by
  intro n hn rounds hrounds j
  refine ⟨some x.1, x.2, ?_, rfl⟩
  show (t.walk g rounds (g.eval src n) pos ⟨s, j + steps⟩).bind _ = _
  rw [h.walk_some hn hrounds j]
  rfl

/-- The steps of a failing alternative count. -/
theorem either_none (h : t.Walks g src pos s none depth steps)
    (h' : u.Walks g src pos s r depth steps') :
    (Term.either t u).Walks g src pos s r depth (steps' + steps) := by
  intro n hn rounds hrounds j
  obtain ⟨s', hs⟩ := h.walk_none hn hrounds (j + steps')
  show ∃ q s', (t.walk g rounds (g.eval src n) pos ⟨s, j + (steps' + steps)⟩).bind _ = _ ∧ _
  rw [← Nat.add_assoc, hs]
  exact h' n hn rounds hrounds j

/-- A repetition ends at the first round that fails. -/
theorem loop_done {e : ExprId} (h : (Term.node e).Walks g src pos s none depth steps) :
    (Term.loop e).Walks g src pos s (some (pos, s)) (depth + 1) steps := by
  intro n hn rounds hrounds j
  obtain ⟨rounds, rfl⟩ : ∃ m, rounds = m + 1 := ⟨rounds - 1, by omega⟩
  have hdepth : depth ≤ n := by omega
  obtain ⟨s', hs⟩ := h.walk_none hdepth (Nat.le_of_succ_le_succ hrounds) j
  have hround : Walk.repeated (g.eval src n) e (rounds + 1) pos ⟨s, j + steps⟩ =
      some (pos, ⟨s, j⟩) := by
    show (g.eval src n e pos ⟨s, j + steps⟩).bind _ = _
    rw [Term.walk] at hs
    rw [hs]
    rfl
  refine ⟨some pos, s, ?_, rfl⟩
  show (Walk.repeated (g.eval src n) e (rounds + 1) pos ⟨s, j + steps⟩).bind _ = _
  rw [hround]
  rfl

/-- A round that succeeds ends the repetition if it consumes nothing, and is followed by others if
not. -/
theorem loop_some {e : ExprId} {mid : Nat} {s' : ParseState}
    (h : (Term.node e).Walks g src pos s (some (mid, s')) depth steps)
    (hr : if mid = pos then r = some (pos, s') ∧ steps' = 0
      else (Term.loop e).Walks g src mid s' r depth steps') :
    (Term.loop e).Walks g src pos s r (depth + 1) (steps' + steps) := by
  intro n hn rounds hrounds j
  obtain ⟨rounds, rfl⟩ : ∃ m, rounds = m + 1 := ⟨rounds - 1, by omega⟩
  have hdepth : depth ≤ n := by omega
  have hs := h.walk_some hdepth (Nat.le_of_succ_le_succ hrounds) (j + steps')
  have hround : Walk.repeated (g.eval src n) e (rounds + 1) pos ⟨s, j + (steps' + steps)⟩ =
      (if mid = pos then pure pos else Walk.repeated (g.eval src n) e rounds mid : Walk Nat)
        ⟨s', j + steps'⟩ := by
    show (g.eval src n e pos ⟨s, j + (steps' + steps)⟩).bind _ = _
    rw [Term.walk] at hs
    rw [← Nat.add_assoc, hs]
    rfl
  show ∃ q s', (Walk.repeated (g.eval src n) e (rounds + 1) pos _).bind _ = _ ∧ _
  rw [hround]
  split
  · rename_i hmid
    rw [if_pos hmid] at hr
    obtain ⟨rfl, rfl⟩ := hr
    exact ⟨some pos, s', rfl, rfl⟩
  · rename_i hmid
    rw [if_neg hmid] at hr
    exact hr n (by omega) rounds (by omega) j

end Term.Walks

/-- Every result is found by all walks that are deep enough, with some number of steps. -/
theorem Yields.walks {d pos : Nat} {s : ParseState} {t : Term} {r : Match}
    (h : Yields g src d t pos s r) : ∃ depth steps, t.Walks g src pos s r depth steps := by
  induction h with
  | node _ ih =>
    obtain ⟨depth, steps, hw⟩ := ih
    exact ⟨_, _, hw.node⟩
  | call hbody _ ih =>
    obtain ⟨depth, steps, hw⟩ := ih
    refine ⟨depth, steps, fun n hn rounds hrounds j ↦ ?_⟩
    simpa only [Term.walk, hbody] using hw n hn rounds hrounds j
  | @undefined d rule pos s hbody =>
    refine ⟨0, 0, fun n _ rounds _ j ↦ ⟨none, s, ?_, rfl⟩⟩
    simp only [Term.walk, hbody]
    rfl
  | @prim d f pos s =>
    refine ⟨0, 0, fun n _ rounds _ j ↦ ?_⟩
    show ∃ q s', Walk.settle (f pos s) ⟨s, j⟩ = _ ∧ _
    rcases f pos s with - | ⟨stop, s'⟩
    · exact ⟨none, s, rfl, rfl⟩
    · exact ⟨some stop, s', rfl, rfl⟩
  | around _ ih =>
    obtain ⟨depth, steps, hw⟩ := ih
    exact ⟨_, _, hw.around⟩
  | bothNone _ ih =>
    obtain ⟨depth, steps, hw⟩ := ih
    exact ⟨_, _, hw.both_none⟩
  | bothSome _ _ ih ih' =>
    obtain ⟨depth, steps, hw⟩ := ih
    obtain ⟨depth', steps', hw'⟩ := ih'
    exact ⟨max depth depth', _,
      (hw.mono (Nat.le_max_left _ _)).both_some (hw'.mono (Nat.le_max_right _ _))⟩
  | eitherSome _ ih =>
    obtain ⟨depth, steps, hw⟩ := ih
    exact ⟨_, _, hw.either_some⟩
  | eitherNone _ _ ih ih' =>
    obtain ⟨depth, steps, hw⟩ := ih
    obtain ⟨depth', steps', hw'⟩ := ih'
    exact ⟨max depth depth', _,
      (hw.mono (Nat.le_max_left _ _)).either_none (hw'.mono (Nat.le_max_right _ _))⟩
  | loopDone _ ih =>
    obtain ⟨depth, steps, hw⟩ := ih
    exact ⟨_, _, hw.loop_done⟩
  | loopStill _ ih =>
    obtain ⟨depth, steps, hw⟩ := ih
    refine ⟨_, 0 + steps, hw.loop_some ?_⟩
    rw [if_pos rfl]
    exact ⟨rfl, rfl⟩
  | loopStep hmid _ _ ih ih' =>
    obtain ⟨depth, steps, hw⟩ := ih
    obtain ⟨depth', steps', hw'⟩ := ih'
    refine ⟨max depth depth' + 1, steps' + steps,
      (hw.mono (Nat.le_max_left _ _)).loop_some ?_⟩
    rw [if_neg hmid]
    exact hw'.mono (Nat.le_max_right _ _)

/-- A node that yields a result evaluates to it. -/
theorem Yields.eval {d e pos : Nat} {s : ParseState} {r : Match}
    (h : Yields g src d (.node e) pos s r) :
    ∃ depth steps q st', g.eval src depth e pos { parse := s, steps } = some (q, st') ∧
      r = Walk.result q st'.parse := by
  obtain ⟨depth, steps, hw⟩ := h.walks
  obtain ⟨q, s', heval, hresult⟩ := hw depth (Nat.le_refl _) _ (Nat.le_refl _) 0
  exact ⟨depth, 0 + steps, q, _, heval, hresult⟩

/-- The results that walks from a node find, at a position in a parse state: one if walks that are
deep enough end, and none if there is no end. The parse state left by a failure is no part of it. -/
def Grammar.results (g : Grammar) (src : Resident) (e : ExprId) (pos : Nat) (s : ParseState) :
    Set Match :=
  {r | ∃ depth steps q st, g.eval src depth e pos { parse := s, steps } = some (q, st) ∧
    r = Walk.result q st.parse}

/-- The results that walks from a node find are those of matching the node. -/
theorem Grammar.mem_results {e pos : Nat} {s : ParseState} {r : Match} :
    r ∈ g.results src e pos s ↔ ∃ d, Yields g src d (.node e) pos s r := by
  constructor
  · rintro ⟨depth, steps, q, st, heval, rfl⟩
    exact ⟨depth, .of_eval depth e pos _ q st heval⟩
  · rintro ⟨d, h⟩
    exact h.eval

/-- Results are passed on to another node by what passes on those of matching. -/
theorem Grammar.results_subset {k : Grammar} {e other pos : Nat} {s : ParseState}
    (h : ∀ d r, Yields g src d (.node e) pos s r → Yields k src d (.node other) pos s r) :
    g.results src e pos s ⊆ k.results src other pos s := by
  intro r hr
  obtain ⟨d, hyields⟩ := mem_results.mp hr
  exact mem_results.mpr ⟨d, h d r hyields⟩

/-- A walk that ends finds the result that the body of the rule has. -/
theorem Yields.of_interpret {steps : Nat} {rule : RuleId} {input : Array UInt8} {body : ExprId}
    (hbody : g.body? rule = some body) (h : g.interpret steps rule input ≠ .diverged) :
    ∃ d r, Yields g { text := input } d (.node body) 0 {} r ∧
      g.interpret steps rule input = r.outcome := by
  rcases heval : g.eval { text := input } (steps + 1) body 0 { steps } with - | ⟨- | stop, st⟩
  · have hdiverged : g.interpret steps rule input = .diverged := by
      simp only [Grammar.interpret, hbody, StateT.run, heval]
    exact absurd hdiverged h
  · refine ⟨_, none, Yields.of_eval _ _ _ _ _ _ heval, ?_⟩
    simp only [Grammar.interpret, hbody, StateT.run, heval, Match.outcome]
  · refine ⟨_, some (stop, st.parse), Yields.of_eval _ _ _ _ _ _ heval, ?_⟩
    simp only [Grammar.interpret, hbody, StateT.run, heval, Match.outcome]

end ParsingMachine
