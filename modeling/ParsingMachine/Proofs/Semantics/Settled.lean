import ParsingMachine.Proofs.Grammar.Simplify

/-!
# Settled nodes have results

A match never goes back and never passes the end of the input (`Yields.moves`). So a repetition,
which stops at the first round that consumes nothing, makes finitely many rounds whether its flag is
raised or not: it has a result when its operand has results. The rounds that go on are counted by
what is left of the input.

What may keep a match from having a result is then only a rule that takes part in matching itself. A
node is settled when from it no node does. This is accessibility along the nodes that take part in a
match (`Grammar.Settled`), so results of a settled node are found by the induction that comes with
it, one form of term after the other (`Term.Total`). Finiteness of the grammar plays no part.

The condition is stronger than needed: a rule that enters itself only after a byte was consumed has
results, too. It is enough for what is used of it, the nodes that passes make and the grammars that
are built from shapes, and it speaks of nodes alone.

Whether a node is settled does not change while a grammar grows, since an old node leads to old
nodes only.

## Main statements

* `Yields.moves`: a match never goes back and never passes the end of the input.
* `Term.Total.loop`: a repetition has results when its operand has them.
* `Grammar.Extends.settled_iff`: old nodes are settled in a larger grammar if they were.
* `Grammar.Settled.exists_yields`: a settled node has a result on every input, at every position and
  in every parse state.
-/

namespace ParsingMachine

/-! ### Positions -/

/-- A match may go from one position to another: not back, and not past the end of the input. -/
def Resident.Moves (src : Resident) (pos stop : Nat) : Prop :=
  pos ≤ stop ∧ (stop = pos ∨ stop ≤ src.text.size)

/-- Two moves make one. -/
theorem Resident.Moves.trans {src : Resident} {pos mid stop : Nat} (h : src.Moves pos mid)
    (h' : src.Moves mid stop) : src.Moves pos stop := by
  obtain ⟨hle, hmid⟩ := h
  obtain ⟨hle', hstop⟩ := h'
  exact ⟨Nat.le_trans hle hle', by omega⟩

/-- The primitive parts of a term move on. -/
def Term.Forward (src : Resident) : Term → Prop
  | node _ | call _ | loop _ => True
  | prim f => ∀ pos s stop s', f pos s = some (stop, s') → src.Moves pos stop
  | around _ t leave => t.Forward src ∧ ∀ pos s r stop s', leave pos s r = some (stop, s') →
    stop = pos ∨ ∃ s₁, r = some (stop, s₁)
  | both t u | either t u => t.Forward src ∧ u.Forward src

section

variable {g : Grammar} {src : Resident} {d pos stop : Nat} {s s' : ParseState}

theorem Term.forward_consumes (test : UInt8 → Bool) : (Term.consumes src test).Forward src := by
  intro pos s stop s' h
  dsimp only at h
  split at h
  · rename_i htest
    cases h
    obtain ⟨b, hb, -⟩ := (Option.any_eq_true _ _).mp htest
    obtain ⟨hlt, -⟩ := Array.getElem?_eq_some_iff.mp hb
    exact ⟨Nat.le_succ pos, .inr hlt⟩
  · cases h

theorem Term.forward_done : Term.done.Forward src := by
  intro pos s stop s' h
  cases h
  exact ⟨Nat.le_refl pos, .inl rfl⟩

theorem Term.forward_all (items : List ExprId) : (Term.all (items.map .node)).Forward src := by
  induction items with
  | nil => exact forward_done
  | cons item items ih => exact ⟨trivial, ih⟩

theorem Term.forward_any (alts : List ExprId) : (Term.any (alts.map .node)).Forward src := by
  induction alts with
  | nil => exact fun _ _ _ _ h ↦ nomatch h
  | cons alt alts ih => exact ⟨trivial, ih⟩

/-- All operators move on in their primitive parts. -/
theorem Operator.forward_term (op : Operator) : (op.term src).Forward src := by
  cases op with
  | empty | mark _ => exact Term.forward_done
  | fail => exact fun _ _ _ _ h ↦ nomatch h
  | anyByte | byte _ | byteClass _ => exact Term.forward_consumes _
  | sequence items | construct items _ => exact Term.forward_all items
  | choice alts => exact Term.forward_any alts
  | star _ _ | reference _ | link _ _ => trivial
  | plus _ _ => exact ⟨trivial, trivial⟩
  | optional _ => exact ⟨trivial, Term.forward_done⟩
  | and inner =>
    refine ⟨trivial, fun pos s r stop s' h ↦ .inl ?_⟩
    obtain ⟨x, -, hx⟩ := Option.map_eq_some_iff.mp h
    exact (congrArg Prod.fst hx).symm
  | not inner =>
    refine ⟨trivial, fun pos s r stop s' h ↦ .inl ?_⟩
    dsimp only at h
    split at h
    · cases h
    · cases h
      rfl
  | block inner | defSymbol table inner =>
    refine ⟨trivial, fun pos s r stop s' h ↦ .inr ?_⟩
    obtain ⟨⟨mid, s₁⟩, hr, hx⟩ := Option.map_eq_some_iff.mp h
    cases hx
    exact ⟨s₁, hr⟩
  | isSymbol table inner lastOnly =>
    exact ⟨trivial, fun pos s r stop s' h ↦ .inr ⟨s', (Option.filter_eq_some_iff.mp h).1⟩⟩
  | defIndent =>
    intro pos s stop s' h
    cases h
    exact ⟨Nat.le_refl pos, .inl rfl⟩
  | isIndent =>
    intro pos s stop s' h
    dsimp only at h
    split at h
    · rename_i hmatch
      cases h
      rw [Resident.matchesAt, Bool.and_eq_true, decide_eq_true_eq] at hmatch
      exact ⟨Nat.le_add_right pos _, .inr hmatch.1⟩
    · cases h

/-- A match never goes back and never passes the end of the input. -/
theorem Yields.moves_term {t : Term} {r : Match} (ht : t.Forward src)
    (h : Yields g src d t pos s r) (hr : r = some (stop, s')) : src.Moves pos stop := by
  induction h generalizing stop s' with
  | node _ ih => exact ih (Operator.forward_term _) hr
  | call _ _ ih => exact ih trivial hr
  | undefined _ => cases hr
  | prim => exact ht _ _ _ _ hr
  | around _ ih =>
    rcases ht.2 _ _ _ _ _ hr with rfl | ⟨s₁, hs₁⟩
    · exact ⟨Nat.le_refl _, .inl rfl⟩
    · exact ih ht.1 hs₁
  | bothNone _ _ => cases hr
  | bothSome _ _ ih ih' => exact (ih ht.1 rfl).trans (ih' ht.2 hr)
  | eitherSome _ ih => exact ih ht.1 hr
  | eitherNone _ _ _ ih' => exact ih' ht.2 hr
  | loopDone _ _ =>
    cases hr
    exact ⟨Nat.le_refl _, .inl rfl⟩
  | loopStill _ _ =>
    cases hr
    exact ⟨Nat.le_refl _, .inl rfl⟩
  | loopStep _ _ _ ih ih' => exact (ih trivial rfl).trans (ih' trivial hr)

/-- A match of a node ends no earlier than it started and no later than the input ends. -/
theorem Yields.moves {e : ExprId} (h : Yields g src d (.node e) pos s (some (stop, s'))) :
    src.Moves pos stop :=
  h.moves_term (t := .node e) trivial rfl

end

/-! ### Terms with results -/

/-- The term has a result at every position and in every parse state. -/
def Term.Total (g : Grammar) (src : Resident) (t : Term) : Prop :=
  ∀ pos s, ∃ d r, Yields g src d t pos s r

namespace Term.Total

variable {g : Grammar} {src : Resident} {t u : Term}

theorem prim (f : Nat → ParseState → Match) : (Term.prim f).Total g src :=
  fun _ _ ↦ ⟨0, _, .prim⟩

theorem around {enter : ParseState → ParseState} {leave : Nat → ParseState → Match → Match}
    (h : t.Total g src) : (Term.around enter t leave).Total g src := by
  intro pos s
  obtain ⟨d, r, hr⟩ := h pos (enter s)
  exact ⟨d, _, .around hr⟩

/-- Two terms with results have results one after the other. -/
theorem both (h : t.Total g src) (h' : u.Total g src) : (Term.both t u).Total g src := by
  intro pos s
  obtain ⟨d, - | ⟨mid, s₁⟩, hr⟩ := h pos s
  · exact ⟨d, none, .bothNone hr⟩
  · obtain ⟨d', r', hr'⟩ := h' mid s₁
    exact ⟨max d d', r', .bothSome (hr.mono (Nat.le_max_left _ _))
      (hr'.mono (Nat.le_max_right _ _))⟩

/-- Two terms with results have results as alternatives. -/
theorem either (h : t.Total g src) (h' : u.Total g src) : (Term.either t u).Total g src := by
  intro pos s
  obtain ⟨d, - | x, hr⟩ := h pos s
  · obtain ⟨d', r', hr'⟩ := h' pos s
    exact ⟨max d d', r', .eitherNone (hr.mono (Nat.le_max_left _ _))
      (hr'.mono (Nat.le_max_right _ _))⟩
  · exact ⟨d, some x, .eitherSome hr⟩

theorem all {items : List ExprId} (h : ∀ e ∈ items, (Term.node e).Total g src) :
    (Term.all (items.map .node)).Total g src := by
  induction items with
  | nil => exact prim _
  | cons item items ih =>
    exact (h item List.mem_cons_self).both (ih fun e he ↦ h e (List.mem_cons_of_mem _ he))

theorem any {alts : List ExprId} (h : ∀ e ∈ alts, (Term.node e).Total g src) :
    (Term.any (alts.map .node)).Total g src := by
  induction alts with
  | nil => exact prim _
  | cons alt alts ih =>
    exact (h alt List.mem_cons_self).either (ih fun e he ↦ h e (List.mem_cons_of_mem _ he))

/-- The rounds of a repetition that go on move towards the end of the input. -/
theorem loop {e : ExprId} (h : (Term.node e).Total g src) : (Term.loop e).Total g src := by
  intro pos s
  induction hn : src.text.size - pos using Nat.strongRecOn generalizing pos s with
  | ind n ih =>
    obtain ⟨d, - | ⟨mid, s₁⟩, hr⟩ := h pos s
    · exact ⟨d, _, .loopDone hr⟩
    · by_cases hmid : mid = pos
      · subst hmid
        exact ⟨d, _, .loopStill hr⟩
      · obtain ⟨hle, hend⟩ := hr.moves
        obtain ⟨d', r', hr'⟩ := ih (src.text.size - mid) (by omega) mid s₁ rfl
        exact ⟨max d d', r', .loopStep hmid (hr.mono (Nat.le_max_left _ _))
          (hr'.mono (Nat.le_max_right _ _))⟩

/-- A reference has results if the body of its rule has, and fails without one. -/
theorem call {rule : RuleId} (h : ∀ body, g.body? rule = some body →
    (Term.node body).Total g src) : (Term.call rule).Total g src := by
  intro pos s
  rcases hbody : g.body? rule with - | body
  · exact ⟨0, none, .undefined hbody⟩
  · obtain ⟨d, r, hr⟩ := h body hbody pos s
    exact ⟨d + 1, r, .call hbody hr⟩

end Term.Total

/-! ### Settled nodes -/

namespace Grammar

variable {g h : Grammar} {e x : ExprId}

/-- From here on no node takes part in matching itself. -/
def Settled (g : Grammar) (e : ExprId) : Prop :=
  Acc (fun x e ↦ x ∈ g.successors e) e

/-- Nodes reached from a settled node are settled. -/
theorem Settled.reach (he : g.Settled e) (hx : g.Reach e x) : g.Settled x := by
  induction hx with
  | refl => exact he
  | tail _ hz ih => exact ih.inv hz

/-- A node without operands that is no reference is settled. -/
theorem settled_of_children_eq_nil (hchildren : (g.op e).children = [])
    (hreference : ∀ rule, g.op e ≠ .reference rule) : g.Settled e := by
  refine .intro e fun x hx ↦ ?_
  unfold successors at hx
  split at hx
  · exact absurd ‹_› (hreference _)
  · rw [hchildren] at hx
    cases hx

/-- A node that collapses to a test of bytes is settled. -/
theorem Collapses.settled (he : g.Collapses e) : g.Settled e := by
  induction he with
  -- a terminal has no operands and refers to no rule
  | @terminal e hop =>
    refine settled_of_children_eq_nil ?_ fun rule hrule ↦ ?_
    · generalize g.op e = op at hop
      cases op with
      | anyByte | byte _ | byteClass _ => rfl
      | _ => cases hop
    · rw [hrule] at hop
      cases hop
  | choice hop _ ih | sequence hop _ ih =>
    refine .intro _ fun x hx ↦ ih x ?_
    rwa [successors, hop] at hx
  | @not e inner hop _ ih =>
    refine .intro _ fun x hx ↦ ?_
    rw [successors, hop] at hx
    rwa [List.mem_singleton.mp hx]
  | @reference e rule body hop hbody _ ih =>
    refine .intro _ fun x hx ↦ ?_
    simp only [successors, hop, hbody, Option.toList_some, List.mem_singleton] at hx
    rwa [hx]

/-- A sequence of given bytes is settled. -/
theorem settled_of_literalBytes? {bytes : List UInt8} (hbytes : g.literalBytes? e = some bytes) :
    g.Settled e := by
  obtain ⟨items, hop, -, hitems⟩ := exists_bytes_of_literalBytes? hbytes
  refine (Collapses.sequence hop fun item hitem ↦ .terminal ?_).settled
  obtain ⟨b, hb⟩ := hitems item hitem
  rw [hb]
  rfl

/-- Old nodes are settled in a larger grammar if they were. -/
theorem Extends.settled_iff (hgh : g.Extends h) (hg : g.WellFormed) (he : e < g.size) :
    h.Settled e ↔ g.Settled e := by
  constructor
  · intro hsettled
    induction hsettled with
    | intro e _ ih =>
      refine .intro e fun x hx ↦ ih x ?_ (successors_lt hg he hx)
      rwa [hgh.successors_eq he]
  · intro hsettled
    induction hsettled with
    | intro e _ ih =>
      refine .intro e fun x hx ↦ ?_
      rw [hgh.successors_eq he] at hx
      exact ih x hx (successors_lt hg he hx)

/-- An operator has a result wherever the nodes that take part in matching it have results. -/
theorem total_term {src : Resident} (h : ∀ x ∈ g.successors e, (Term.node x).Total g src) :
    ((g.op e).term src).Total g src := by
  unfold successors at h
  cases hop : g.op e with rw [hop] at h
  | empty | mark _ | fail | anyByte | byte _ | byteClass _ | defIndent | isIndent => exact .prim _
  | sequence items | construct items _ => exact .all h
  | choice alts => exact .any h
  | star inner _ => exact (h inner (List.mem_singleton_self _)).loop
  | plus inner _ =>
    have hinner := h inner (List.mem_singleton_self _)
    exact hinner.both hinner.loop
  | optional inner => exact (h inner (List.mem_singleton_self _)).either (.prim _)
  | link inner _ => exact h inner (List.mem_singleton_self _)
  | and inner | not inner | block inner | defSymbol _ inner | isSymbol _ inner _ =>
    exact (h inner (List.mem_singleton_self _)).around
  | reference rule => exact .call fun body hbody ↦ h body (by simp [hbody])

/-- A settled node has a result on every input, at every position and in every parse state. -/
theorem Settled.exists_yields (he : g.Settled e) (src : Resident) :
    (Term.node e).Total g src := by
  induction he with
  | intro e _ ih =>
    intro pos s
    obtain ⟨d, r, hr⟩ := total_term ih pos s
    exact ⟨d, r, .node hr⟩

end Grammar

end ParsingMachine
