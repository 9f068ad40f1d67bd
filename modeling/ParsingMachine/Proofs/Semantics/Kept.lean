import ParsingMachine.Proofs.Grammar.Reach
import ParsingMachine.Proofs.Semantics.Adequacy
import ParsingMachine.Proofs.Semantics.Steady

/-!
# Results that may be kept

What is kept of a match is where it stopped, or that it failed. To use this again in another parse
state is right for an expression that leaves the parse state as it is whenever it succeeds
(`Grammar.LeavesState`), if the result was found in a parse state that is alike (`Grammar.Keeps`).
Both parts are needed. Without the first one a result that is used again would forget what the match
has added; without the second it could have another result here.

When an expression leaves the parse state is a question about all its matches. A condition that
looks at nodes only is that all definitions that take part in it are inside blocks, or under a
negation, and no indentation is recorded in these blocks (`Grammar.Contained`): a block closes the
symbols of its inside but not the indentations. Two searches decide it, so for a given grammar it is
checked by evaluation.

That a property of the parse states before and after a match is kept is proved once for an arbitrary
relation that is reflexive and transitive (`Yields.maintains`). It is used with equality of the
whole parse state and with equality of the recorded indentations, and leaves the callers only the
operators that touch the parse state.

## Main statements

* `Yields.kept`: the result of an expression whose results may be kept, in another parse state.
* `Yields.maintains`: a relation that all terms keep is kept by all matches.
* `Grammar.contained_iff`: searches decide whether definitions are contained.
* `Grammar.Contained.leavesState`: then the expression leaves the parse state as it is.
-/

namespace ParsingMachine

/-! ### Expressions that leave the parse state -/

/-- Whether results of the operator may be kept. -/
def Operator.isMemoized : Operator → Bool
  | reference _ | link _ _ => true
  | _ => false

/-- A success of the expression leaves the parse state as it is. -/
def Grammar.LeavesState (g : Grammar) (e : ExprId) : Prop :=
  ∀ src depth pos st stop st', g.eval src depth e pos st = some (some stop, st') →
    st'.parse = st.parse

/-- The same result in another parse state. -/
def Match.inState (r : Match) (s : ParseState) : Match :=
  r.map fun (stop, _) ↦ (stop, s)

/-- What is kept of results of the expression is right in all parse states that are alike. -/
structure Grammar.Keeps (g : Grammar) (reads : Bool) (e : ExprId) : Prop where
  /-- A success leaves the parse state as it is. -/
  leavesState : g.LeavesState e
  /-- The parse state is not read, unless `reads`. -/
  isStateQuery_eq : reads = false → ∀ x, g.Reach e x → (g.op x).isStateQuery = false

section

variable {g : Grammar} {src : Resident} {e : ExprId}

/-- An expression leaves the parse state if no match of it changes that. -/
theorem Grammar.leavesState_iff : g.LeavesState e ↔
    ∀ src d pos s stop s', Yields g src d (.node e) pos s (some (stop, s')) → s' = s := by
  constructor
  · intro he src d pos s stop s' h
    obtain ⟨depth, steps, q, st', heval, hresult⟩ := h.eval
    rcases q with - | stop'
    · cases hresult
    · cases hresult
      exact he src depth pos _ _ _ heval
  · intro he src depth pos st stop st' heval
    exact he src depth pos _ _ _ (Yields.of_eval _ _ _ _ _ _ heval)

/-- The result of an expression whose results may be kept, in another parse state. -/
theorem Yields.kept {reads : Bool} (he : g.Keeps reads e) {d pos : Nat} {s s' : ParseState}
    {r : Match} (hs : ParseState.Alike reads s s') (h : Yields g src d (.node e) pos s r) :
    Yields g src d (.node e) pos s' (r.inState s') := by
  have hblind : g.Blind reads (g.Reach e) :=
    ⟨fun hreads x hx ↦ he.isStateQuery_eq hreads x hx, fun x hx y hy ↦ hx.tail hy⟩
  obtain ⟨x, rfl, hx'⟩ := h.steady hblind (t := .node e) .refl hs
  rcases x with - | ⟨stop, a⟩
  · exact hx'
  · have hadd := Grammar.leavesState_iff.mp he.leavesState src d pos s stop _ h
    rw [ParseState.eq_empty_of_add_eq hadd] at hx' ⊢
    exact hx'

end

/-! ### What a match keeps of the parse state -/

/-- Whether the operator defines a symbol or records an indentation. -/
def Operator.isDefinition : Operator → Bool
  | defSymbol _ _ | defIndent => true
  | _ => false

/-- Of itself a success of the term keeps a relation between the parse states before and after. Its
nodes have a property. -/
def Term.Maintains (g : Grammar) (R : ParseState → ParseState → Prop) (P : ExprId → Prop) :
    Term → Prop
  | node e | loop e => P e
  | call rule => ∀ body, g.body? rule = some body → P body
  | prim f => ∀ pos s stop s', f pos s = some (stop, s') → R s s'
  | around enter t leave => t.Maintains g R P ∧ ∀ pos s r stop s',
      (∀ mid s₁, r = some (mid, s₁) → R (enter s) s₁) → leave pos s r = some (stop, s') → R s s'
  | both t u | either t u => t.Maintains g R P ∧ u.Maintains g R P

section

variable {g : Grammar} {src : Resident} {R : ParseState → ParseState → Prop} {P : ExprId → Prop}

/-- A relation is kept by all matches when the terms of the nodes keep it, or the nodes themselves
do. -/
theorem Yields.maintains (hrefl : ∀ s, R s s) (htrans : ∀ s s₁ s₂, R s s₁ → R s₁ s₂ → R s s₂)
    (hP : ∀ e, P e → ((g.op e).term src).Maintains g R P ∨
      ∀ d pos s stop s', Yields g src d (.node e) pos s (some (stop, s')) → R s s')
    {t : Term} (ht : t.Maintains g R P) {d pos stop : Nat} {s s' : ParseState} {r : Match}
    (h : Yields g src d t pos s r) (hr : r = some (stop, s')) : R s s' := by
  induction h generalizing stop s' with
  | node h ih =>
    rcases hP _ ht with hterm | hnode
    · exact ih hterm hr
    · exact hnode _ _ _ _ _ (.node (hr ▸ h))
  | call hbody _ ih => exact ih (ht _ hbody) hr
  | undefined _ => cases hr
  | prim => exact ht _ _ _ _ hr
  | around _ ih => exact ht.2 _ _ _ _ _ (fun mid s₁ hmid ↦ ih ht.1 hmid) hr
  | bothNone _ _ => cases hr
  | bothSome _ _ ih ih' => exact htrans _ _ _ (ih ht.1 rfl) (ih' ht.2 hr)
  | eitherSome _ ih => exact ih ht.1 hr
  | eitherNone _ _ _ ih' => exact ih' ht.2 hr
  | loopDone _ _ =>
    cases hr
    exact hrefl _
  | loopStill _ ih =>
    cases hr
    exact ih ht rfl
  | loopStep _ _ _ ih ih' => exact htrans _ _ _ (ih ht rfl) (ih' ht hr)

theorem Term.maintains_consumes (hrefl : ∀ s, R s s) (test : UInt8 → Bool) :
    (Term.consumes src test).Maintains g R P := by
  intro pos s stop s' h
  dsimp only at h
  split at h <;> cases h
  exact hrefl s

theorem Term.maintains_done (hrefl : ∀ s, R s s) : Term.done.Maintains g R P := by
  intro pos s stop s' h
  cases h
  exact hrefl s

/-- A sequence keeps what its items keep. -/
theorem Term.maintains_all (hrefl : ∀ s, R s s) {items : List ExprId} (h : ∀ e ∈ items, P e) :
    (Term.all (items.map .node)).Maintains g R P := by
  induction items with
  | nil => exact maintains_done hrefl
  | cons item items ih =>
    exact ⟨h item List.mem_cons_self, ih fun e he ↦ h e (List.mem_cons_of_mem _ he)⟩

/-- A choice keeps what its alternatives keep. -/
theorem Term.maintains_any {alts : List ExprId} (h : ∀ e ∈ alts, P e) :
    (Term.any (alts.map .node)).Maintains g R P := by
  induction alts with
  | nil => exact fun _ _ _ _ h ↦ (nomatch h)
  | cons alt alts ih =>
    exact ⟨h alt List.mem_cons_self, ih fun e he ↦ h e (List.mem_cons_of_mem _ he)⟩

/-- Operators other than blocks and definitions keep whatever their operands keep. -/
theorem Grammar.maintains_term (hrefl : ∀ s, R s s) {e : ExprId}
    (hop : (g.op e).isDefinition = false) (hblock : ∀ inner, g.op e ≠ .block inner)
    (hclosed : ∀ x ∈ g.successors e, P x) : ((g.op e).term src).Maintains g R P := by
  unfold Grammar.successors at hclosed
  cases hop' : g.op e with rw [hop'] at hop hclosed
  | defSymbol _ _ | defIndent => cases hop
  | block inner => exact absurd hop' (hblock inner)
  | empty | mark _ => exact Term.maintains_done hrefl
  | fail => exact fun _ _ _ _ h ↦ (nomatch h)
  | anyByte | byte _ | byteClass _ => exact Term.maintains_consumes hrefl _
  | sequence items | construct items _ => exact Term.maintains_all hrefl hclosed
  | choice alts => exact Term.maintains_any hclosed
  | star inner _ | link inner _ => exact hclosed inner (List.mem_singleton_self _)
  | plus inner _ =>
    have hinner := hclosed inner (List.mem_singleton_self _)
    exact ⟨hinner, hinner⟩
  | optional inner =>
    exact ⟨hclosed inner (List.mem_singleton_self _), Term.maintains_done hrefl⟩
  | reference rule =>
    intro body hbody
    exact hclosed body (by simp [hbody])
  | and inner =>
    refine ⟨hclosed inner (List.mem_singleton_self _), fun pos s r stop s' hr h ↦ ?_⟩
    obtain ⟨⟨mid, s₁⟩, rfl, heq⟩ := Option.map_eq_some_iff.mp h
    cases heq
    exact hr _ _ rfl
  | not inner =>
    refine ⟨hclosed inner (List.mem_singleton_self _), fun pos s r stop s' _ h ↦ ?_⟩
    dsimp only at h
    split at h <;> cases h
    exact hrefl s
  | isSymbol table inner lastOnly =>
    refine ⟨hclosed inner (List.mem_singleton_self _), fun pos s r stop s' hr h ↦ ?_⟩
    exact hr _ _ (Option.filter_eq_some_iff.mp h).1
  | isIndent =>
    intro pos s stop s' h
    dsimp only at h
    split at h <;> cases h
    exact hrefl s

/-- The recorded indentation stays as it is in a match that records none. -/
theorem Yields.indents_eq {e : ExprId} (he : ∀ x, g.Reach e x → g.op x ≠ .defIndent)
    {d pos stop : Nat} {s s' : ParseState}
    (h : Yields g src d (.node e) pos s (some (stop, s'))) : s'.indents = s.indents := by
  refine h.maintains (R := fun s s' ↦ s'.indents = s.indents) (P := g.Reach e) (fun _ ↦ rfl)
    (fun _ _ _ h h' ↦ h'.trans h) (fun x hx ↦ .inl ?_) (t := .node e) Relation.ReflTransGen.refl rfl
  have hclosed (y : ExprId) (hy : y ∈ g.successors x) : g.Reach e y := hx.tail hy
  by_cases hother : (g.op x).isDefinition = false ∧ ∀ inner, g.op x ≠ .block inner
  · exact Grammar.maintains_term (R := fun s s' ↦ s'.indents = s.indents) (fun _ ↦ rfl) hother.1
      hother.2 hclosed
  unfold Grammar.successors at hclosed
  cases hop : g.op x with rw [hop] at hother hclosed
  | defIndent => exact absurd hop (he x hx)
  | defSymbol table inner =>
    refine ⟨hclosed inner (List.mem_singleton_self _), fun pos s r stop s' hr h ↦ ?_⟩
    obtain ⟨⟨mid, s₁⟩, rfl, heq⟩ := Option.map_eq_some_iff.mp h
    cases heq
    exact hr stop s₁ rfl
  | block inner =>
    refine ⟨hclosed inner (List.mem_singleton_self _), fun pos s r stop s' hr h ↦ ?_⟩
    obtain ⟨⟨mid, s₁⟩, rfl, heq⟩ := Option.map_eq_some_iff.mp h
    cases heq
    have hindents := hr stop s₁ rfl
    unfold ParseState.closeScope
    split <;> exact hindents
  | _ => exact absurd ⟨rfl, fun _ h ↦ nomatch h⟩ hother

/-! ### Contained definitions -/

/-- The nodes that take part in matching a node and whose additions to the parse state stay with
those of the node. -/
def Grammar.exposed (g : Grammar) (e : ExprId) : List ExprId :=
  match g.op e with
  | .not _ | .block _ => []
  | _ => g.successors e

/-- All definitions that take part in matching the expression are inside blocks or under a negation,
and no indentation is recorded in these blocks. -/
def Grammar.Contained (g : Grammar) (e : ExprId) : Prop :=
  ∀ x, Relation.ReflTransGen (fun y z ↦ z ∈ g.exposed y) e x → (g.op x).isDefinition = false ∧
    ∀ inner, g.op x = .block inner → ∀ y, g.Reach inner y → g.op y ≠ .defIndent

/-- What a block encloses. -/
def Operator.enclosed : Operator → List ExprId
  | block inner => [inner]
  | _ => []

/-- Searches decide it. -/
theorem Grammar.contained_iff (g : Grammar) (e : ExprId) : g.Contained e ↔
    ∀ x ∈ Graph.explore g.exposed g.size [e] #[], (g.op x).isDefinition = false ∧
      ∀ y ∈ g.matchedFrom (g.op x).enclosed, g.op y ≠ .defIndent := by
  have hsucc (x : Nat) (hx : g.size ≤ x) : g.exposed x = [] := by
    rw [exposed, successors_of_size_le hx]
    split <;> rfl
  have hexplore (x : ExprId) := Graph.mem_explore hsucc [e] (x := x)
  simp only [List.mem_singleton, exists_eq_left] at hexplore
  refine forall_congr' fun x ↦ ?_
  rw [hexplore]
  refine imp_congr_right fun _ ↦ and_congr_right fun _ ↦ ?_
  cases g.op x <;> simp [mem_matchedFrom, Operator.enclosed]

instance (g : Grammar) (e : ExprId) : Decidable (g.Contained e) :=
  decidable_of_iff' _ (g.contained_iff e)

/-- A block in which no indentation is recorded leaves the parse state as it is. -/
theorem Yields.eq_of_block {e inner : ExprId} (hop : g.op e = .block inner)
    (hinner : ∀ x, g.Reach inner x → g.op x ≠ .defIndent) {d pos stop : Nat} {s s' : ParseState}
    (h : Yields g src d (.node e) pos s (some (stop, s'))) : s' = s := by
  rw [Yields.node_iff, hop] at h
  obtain ⟨r, hr, hresult⟩ := Yields.around_iff.mp h
  obtain ⟨⟨mid, s₁⟩, rfl, heq⟩ := Option.map_eq_some_iff.mp hresult.symm
  cases heq
  have hindents := hr.indents_eq hinner
  have hall : g.Blind true fun _ ↦ True := ⟨fun h ↦ (nomatch h), fun _ _ _ _ ↦ trivial⟩
  obtain ⟨x, hx, -⟩ := hr.steady hall (t := .node inner) trivial (.refl true _)
  rcases x with - | ⟨stop, a⟩
  · cases hx
  · cases hx
    rw [ParseState.closeScope_add_openScope]
    have hnone : a.indents = [] := by
      simpa [ParseState.add, List.append_left_eq_self] using hindents
    rw [hnone, ParseState.add_empty]

/-- An expression whose definitions are contained leaves the parse state as it is. -/
theorem Grammar.Contained.leavesState {e : ExprId} (he : g.Contained e) : g.LeavesState e := by
  rw [Grammar.leavesState_iff]
  intro src d pos s stop s' h
  refine h.maintains (R := fun s s' ↦ s' = s)
    (P := fun x ↦ Relation.ReflTransGen (fun y z ↦ z ∈ g.exposed y) e x) (fun _ ↦ rfl)
    (fun _ _ _ h h' ↦ h'.trans h) (fun x hx ↦ ?_) (t := .node e) Relation.ReflTransGen.refl rfl
  obtain ⟨hdefinition, hblock⟩ := he x hx
  have hclosed (y : ExprId) (hy : y ∈ g.exposed x) :
      Relation.ReflTransGen (fun y z ↦ z ∈ g.exposed y) e y := hx.tail hy
  cases hop : g.op x with
  | block inner =>
    rw [← hop]
    exact .inr fun d pos s stop s' h ↦ h.eq_of_block hop (hblock inner hop)
  | not inner =>
    refine .inr fun d pos s stop s' h ↦ ?_
    rw [Yields.node_iff, hop] at h
    obtain ⟨r, -, hresult⟩ := Yields.around_iff.mp h
    split at hresult <;> cases hresult
    rfl
  | _ =>
    rw [Grammar.exposed, hop] at hclosed
    rw [← hop]
    exact .inl (Grammar.maintains_term (R := fun s s' ↦ s' = s) (fun _ ↦ rfl) hdefinition
      (by simp [hop]) hclosed)

end

end ParsingMachine
