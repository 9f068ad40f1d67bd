import ParsingMachine.Proofs.Grammar.Evolution

/-!
# The order of simplification does not matter

Simplification of one node may meet others, and what it records for them is used when they are
simplified later. Still the answer for a node is the one that it would have been given first. Its
form is the form that is found without a record, so it does not depend on the order. What remains to
be said is where the answer stands and what its span is, for a form has no place.

That is decided by the node to which the given one leads through references and sequences of one
item (`Grammar.Leads`). If that is a terminal, it is the answer. Otherwise the answer is a new node
with its span, and which id is free for it is all that depends on the order. As a node leads to one
node only, two answers that stem from it stand at the same place (`Stems.eq`).

That all answers stem in this way is an invariant of the recursion, about the results in the record
and about the answers. `Answering` has the induction over the recursion in a form in which the
invariant is a parameter: what holds of a node that is left as it is and of recorded results, and is
passed on from one level to the next, holds of all results. How a node is simplified is reduced to
three cases for that purpose (`cases_simplifyNode`): the node itself, one made for it, or the result
of the node for which it stands.

Marks of nodes under way do no harm here, since a node that is its own result is one of the three
cases.

## Main statements

* `cases_simplifyNode`: the ways in which a node gets its result.
* `Answering.simplifyWithin`: the induction over the recursion.
* `derives_simplify`: whatever node is looked at, the answers stem from where nodes lead.
* `answersAlike_of_simplifiedBy`: the answer for a node does not depend on what was simplified
  before, is its own answer, and changes nothing that was there.
-/

namespace ParsingMachine.Grammar

open Builder

variable {g h k : Grammar} {e x x' next other : ExprId} {recur : ExprId → Builder ExprId}

/-! ### Where an answer comes from -/

/-- The node for which a sequence of one item or a reference stands. -/
def forward? (g : Grammar) (e : ExprId) : Option ExprId :=
  match g.op e with
  | .sequence [only] => some only
  | .reference rule => g.body? rule
  | _ => none

/-- A node leads to another one, which stands for no further node. -/
inductive Leads (g : Grammar) : ExprId → ExprId → Prop
  | here {e : ExprId} (h : g.forward? e = none) : Leads g e e
  | step {e next x : ExprId} (h : g.forward? e = some next) (rest : Leads g next x) : Leads g e x

/-- A node leads to one node only. -/
theorem Leads.eq (h : g.Leads e x) (h' : g.Leads e x') : x = x' := by
  induction h with
  | here hnone =>
    cases h' with
    | here _ => rfl
    | step hsome _ =>
      rw [hnone] at hsome
      cases hsome
  | step hsome _ ih =>
    cases h' with
    | here hnone =>
      rw [hnone] at hsome
      cases hsome
    | step hsome' rest =>
      rw [hsome] at hsome'
      cases hsome'
      exact ih rest

/-- A node answered for `e` stems from the node to which `e` leads: it is this node if that is a
terminal, and otherwise it was made for it. -/
def Stems (g h : Grammar) (e other : ExprId) : Prop :=
  ∃ x, g.Leads e x ∧ if (g.op x).isTerminal then other = x
    else g.size ≤ other ∧ h.span other = g.span x

/-- A result is the node itself or stems from where the node leads. -/
def Derived (g h : Grammar) (e other : ExprId) : Prop :=
  other < h.size ∧ (other = e ∨ g.Stems h e other)

/-- A grammar in use, in which the results for the old nodes are derived from these. -/
structure Traced (g h : Grammar) : Prop extends g.IntactIn h where
  /-- The results are derived. -/
  derived : ∀ e other, e < g.size → h.simplified? e = some other → g.Derived h e other

theorem span_push_of_lt (op : Operator) (span : Span) (he : e < g.size) :
    (g.push op span).span e = g.span e := by
  rw [Grammar.span, Grammar.span, push, Array.getElem?_push_lt he, Array.getElem?_eq_getElem he]

theorem span_push_self (g : Grammar) (op : Operator) (span : Span) :
    (g.push op span).span g.size = span := by
  rw [Grammar.span, push, size, Array.getElem?_push_size]

/-- An old node keeps its span. -/
theorem IntactIn.span_eq (hgh : g.IntactIn h) (he : e < g.size) : h.span e = g.span e := by
  rw [Grammar.span, Grammar.span, hgh.nodes_eq e he]

/-- What is derived stays so while nodes are appended. -/
theorem Derived.push (hd : g.Derived h e other) (op : Operator) (span : Span) :
    g.Derived (h.push op span) e other := by
  obtain ⟨hlt, hd⟩ := hd
  refine ⟨?_, hd.imp_right fun ⟨x, hx, hother⟩ ↦ ⟨x, hx, ?_⟩⟩
  · rw [size_push]
    exact Nat.lt_succ_of_lt hlt
  · rwa [span_push_of_lt op span hlt]

/-- A new node with the span of a node stems from it. -/
theorem Derived.of_made (hforward : g.forward? e = none)
    (hop : ¬(g.op e).isTerminal) (hlt : other < h.size) (hnew : g.size ≤ other)
    (hspan : h.span other = g.span e) : g.Derived h e other :=
  ⟨hlt, .inr ⟨e, .here hforward, by rw [if_neg hop]; exact ⟨hnew, hspan⟩⟩⟩

namespace Traced

theorem refl (hempty : g.simplified = {}) : g.Traced g where
  toIntactIn := .refl g
  derived e other _ hother := by
    rw [simplified?, hempty, Std.TreeMap.getElem?_emptyc] at hother
    cases hother

/-- Derived results stay derived while nodes are made. -/
theorem push (hh : g.Traced h) (op : Operator) (span : Span) : g.Traced (h.push op span) where
  toIntactIn := (enduring_intactIn g).push h op span hh.toIntactIn
  derived e other he hother := (hh.derived e other he hother).push op span

/-- A derived result may be recorded. -/
theorem setSimplified (hh : g.Traced h) (hother : e < g.size → g.Derived h e other) :
    g.Traced (h.setSimplified e other) where
  toIntactIn := (enduring_intactIn g).setSimplified h e other hh.toIntactIn
  derived x y hx hy := by
    rw [simplified?_setSimplified] at hy
    split at hy
    · rename_i heq
      cases hy
      subst heq
      exact hother hx
    · exact hh.derived x y hx hy

theorem lt (hh : g.Traced h) (he : e < g.size) : e < h.size :=
  Nat.lt_of_lt_of_le he hh.size_le

theorem derived_self (hh : g.Traced h) (he : e < g.size) : g.Derived h e e :=
  ⟨hh.lt he, .inl rfl⟩

/-- What is derived for the next node is derived for the node, if it is a terminal. -/
theorem derived_of_forward (hh : g.Traced h) (hnext : g.forward? e = some next)
    (hnextlt : next < g.size) (hd : g.Derived h next other) (hop : (h.op other).isTerminal) :
    g.Derived h e other := by
  obtain ⟨hlt, rfl | ⟨x, hx, hother⟩⟩ := hd
  · -- a terminal stands for no further node
    rw [hh.toExtends.op_eq other hnextlt] at hop
    have hforward : g.forward? other = none := by
      unfold forward?
      cases hop' : g.op other with rw [hop'] at hop
      | sequence _ | reference _ => cases hop
    exact ⟨hlt, .inr ⟨other, .step hnext (.here hforward), by rw [if_pos hop]⟩⟩
  · exact ⟨hlt, .inr ⟨x, .step hnext hx, hother⟩⟩

end Traced

/-! ### The result for a node -/

/-- A node was made last, with the span of a given one. -/
def MadeFor (P : Grammar → Prop) (e other : ExprId) (k : Grammar) : Prop :=
  ∃ h₀ h op, P h₀ ∧ P h ∧ k = h.push op (h₀.span e) ∧ other = h.size

section

variable {P : Grammar → Prop} (hpush : ∀ g op span, P g → P (g.push op span))
include hpush

/-- A node is made with the span of another one. -/
theorem ensures_madeFor (op : Operator) (hg : P g) (hh : P h) :
    Ensures (allocAt op (g.span e)) h fun other k ↦ P k ∧ MadeFor P e other k :=
  ⟨hpush h op _ hh, g, h, op, hg, hh, rfl, rfl⟩

variable (hrecur : ∀ x, Keeps P (recur x))
include hrecur

/-- A sequence of negations and any byte becomes a node that is made for it. -/
theorem madeFor_negatedLookahead (e : ExprId) (items : List ExprId) (hh : P h) :
    Ensures (negatedLookahead recur e items) h fun result k ↦
      P k ∧ ∀ other ∈ result, MadeFor P e other k := by
  have hnothing {h : Grammar} (hh : P h) : Ensures (pure none) h fun result k ↦
      P k ∧ ∀ other ∈ result, MadeFor P e other k :=
    ⟨hh, fun _ hother ↦ nomatch hother⟩
  unfold negatedLookahead
  split
  · exact hnothing hh
  · dsimp only
    split
    · exact hnothing hh
    · refine Ensures.bind (P := fun _ ↦ P) (hrecur _ h hh) fun last k hk ↦ .get ?_
      split
      · refine Ensures.bind (P := fun _ ↦ P) (keeps_negatedStarts _ _
        (fun _ _ _ _ inner _ ↦ hrecur inner) k hk) fun result k hk ↦ ?_
        split
        · exact hnothing hk
        · refine .get ((ensures_madeFor hpush _ hk hk).bind fun set m hset ↦ ?_)
          split
          · refine (ensures_madeFor hpush _ hk hset.1).bind fun any m hany ↦ .map ?_
            exact (ensures_madeFor hpush _ hk hany.1).imp fun _ _ hother ↦
              ⟨hother.1, fun _ hmem ↦ Option.some.inj hmem ▸ hother.2⟩
          · exact ⟨hset.1, fun _ hmem ↦ Option.some.inj hmem ▸ hset.2⟩
      · exact hnothing hk

/-- A node is its own result, or one is made for it, or the result is the one for the node for which
it stands, if this is a terminal. -/
theorem cases_simplifyNode (e : ExprId) (hh : P h) :
    Ensures (simplifyNode recur e) h fun other k ↦ P k ∧ (other = e ∨
      (h.forward? e = none ∧ ¬(h.op e).isTerminal ∧ MadeFor P e other k) ∨
      ∃ next, h.forward? e = some next ∧ recur next h = (other, k) ∧ (k.op other).isTerminal) := by
  have hterminalOr (next : ExprId) (hnext : h.forward? e = some next) :
      Ensures (terminalOr recur e next) h fun other k ↦ P k ∧ (other = e ∨
        (h.forward? e = none ∧ ¬(h.op e).isTerminal ∧ MadeFor P e other k) ∨
        ∃ next, h.forward? e = some next ∧ recur next h = (other, k) ∧
          (k.op other).isTerminal) := by
    have hanswer : Ensures (recur next) h fun other k ↦ P k ∧ recur next h = (other, k) :=
      ⟨hrecur next h hh, rfl⟩
    refine hanswer.bind fun other k hother ↦ .get ?_
    split
    · rename_i hop
      exact ⟨hother.1, .inr (.inr ⟨next, hnext, hother.2, hop⟩)⟩
    · exact ⟨hother.1, .inl rfl⟩
  refine Ensures.get ?_
  cases hop : h.op e with
  | choice alts =>
    refine Ensures.bind (P := fun _ ↦ P) (keeps_unionOf .empty (fun alt _ ↦ hrecur alt) h hh)
      fun union k hk ↦ ?_
    split
    · refine .get ((ensures_madeFor hpush _ hk hk).imp fun other m hother ↦ ⟨hother.1, ?_⟩)
      exact .inr (.inl ⟨by rw [forward?, hop], Bool.false_ne_true, hother.2⟩)
    · exact ⟨hk, .inl rfl⟩
  | sequence items =>
    have hlookahead (hforward : h.forward? e = none) :
        Ensures (do return (← negatedLookahead recur e items).getD e) h fun other k ↦
          P k ∧ (other = e ∨ (h.forward? e = none ∧ ¬(Operator.sequence items).isTerminal ∧
            MadeFor P e other k) ∨
          ∃ next, h.forward? e = some next ∧ recur next h = (other, k) ∧
            (k.op other).isTerminal) := by
      refine (madeFor_negatedLookahead hpush hrecur e items hh).bind fun result k hresult ↦ ?_
      rcases result with - | other
      · exact ⟨hresult.1, .inl rfl⟩
      · exact ⟨hresult.1, .inr (.inl ⟨hforward, Bool.false_ne_true, hresult.2 other rfl⟩)⟩
    rcases items with - | ⟨only, - | ⟨second, rest⟩⟩
    · exact hlookahead (by rw [forward?, hop])
    · rw [hop] at hterminalOr
      exact hterminalOr only (by rw [forward?, hop])
    · exact hlookahead (by rw [forward?, hop])
  | reference rule =>
    refine Ensures.get ?_
    rcases hbody : h.body? rule with - | body
    · exact ⟨hh, .inl rfl⟩
    · rw [hop] at hterminalOr
      exact hterminalOr body (by rw [forward?, hop]; exact hbody)
  | _ => exact ⟨hh, .inl rfl⟩

end

/-! ### The recursion -/

/-- Builders whose answers for nodes are of a kind, in grammars with a property. -/
def Answering (P : Grammar → Prop) (Q : Grammar → ExprId → ExprId → Prop)
    (recur : ExprId → Builder ExprId) : Prop :=
  ∀ x h, P h → Ensures (recur x) h fun other k ↦ P k ∧ Q k x other

/-- What holds of nodes that are left as they are and of recorded results, and is passed on from one
level of the recursion to the next, holds of all results. -/
theorem Answering.simplifyWithin {P : Grammar → Prop} {Q : Grammar → ExprId → ExprId → Prop}
    (hself : ∀ {h} e, P h → Q h e e)
    (hrecorded : ∀ {h e other}, P h → h.simplified? e = some other → Q h e other)
    (hset : ∀ {h e other}, P h → Q h e other → P (h.setSimplified e other))
    (hafter : ∀ {h e other}, Q h e other → Q (h.setSimplified e other) e other)
    (hnode : ∀ {recur}, Answering P Q recur → Answering P Q (simplifyNode recur)) (n : Nat) :
    Answering P Q (simplifyWithin n) := by
  induction n with
  | zero => exact fun x h hh ↦ ⟨hh, hself x hh⟩
  | succ n ih =>
    intro x h hh
    refine Ensures.get ?_
    split
    · rename_i done hdone
      exact ⟨hh, hrecorded hh hdone⟩
    · refine Ensures.bind (P := fun _ ↦ P) (hset hh (hself x hh)) fun _ k hk ↦ ?_
      exact (hnode ih x k hk).bind fun other m hother ↦ ⟨hset hother.1 hother.2, hafter hother.2⟩

/-! ### What simplification derives -/

/-- Whatever node is looked at, the grammar stays traced, and what is answered for an old node is
derived. -/
def Derives (g : Grammar) (recur : ExprId → Builder ExprId) : Prop :=
  Answering g.Traced (fun k x other ↦ x < g.size → g.Derived k x other) recur

theorem Derives.keeps (hrecur : g.Derives recur) (x : ExprId) : Keeps g.Traced (recur x) :=
  fun h hh ↦ (hrecur x h hh).1

/-- An old node stands for the same node in a larger grammar. -/
theorem Extends.forward?_eq (hgh : g.Extends h) (he : e < g.size) :
    h.forward? e = g.forward? e := by
  unfold forward?
  rw [hgh.op_eq e he]
  split
  · rfl
  · exact hgh.body?_eq _
  · rfl

theorem WellFormed.forward_lt (hg : g.WellFormed) (he : e < g.size)
    (hnext : g.forward? e = some next) : next < g.size := by
  unfold forward? at hnext
  split at hnext
  · rename_i only hop
    cases hnext
    exact Nat.lt_trans (hg.child_lt (by rw [hop]; exact List.mem_singleton_self next)) he
  · exact hg.body_lt _ next hnext
  · cases hnext

/-- What is answered for an old node is derived from it, given derived answers for others. -/
theorem derives_simplifyNode (hg : g.WellFormed) (hrecur : g.Derives recur) (he : e < g.size)
    (hh : g.Traced h) :
    Ensures (simplifyNode recur e) h fun other k ↦ g.Traced k ∧ g.Derived k e other := by
  refine (cases_simplifyNode (fun _ op span hh ↦ hh.push op span) hrecur.keeps e hh).imp
    fun other k ⟨hk, hother⟩ ↦ ⟨hk, ?_⟩
  rw [hh.toExtends.forward?_eq he, hh.toExtends.op_eq e he] at hother
  rcases hother with rfl | ⟨hforward, hop, m, m', op, hm, hm', rfl, rfl⟩ | ⟨next, hnext, heq, hop⟩
  · exact hk.derived_self he
  · refine .of_made hforward hop ?_ hm'.size_le ?_
    · exact Nat.lt_of_lt_of_eq (Nat.lt_succ_self _) (size_push m' op _).symm
    · rw [span_push_self, hm.span_eq he]
  · have hlt := hg.forward_lt he hnext
    have hd := hrecur next h hh
    rw [Ensures, heq] at hd
    exact hk.derived_of_forward hnext hlt (hd.2 hlt) hop

theorem derives_simplifyWithin (hg : g.WellFormed) (n : Nat) : g.Derives (simplifyWithin n) := by
  refine .simplifyWithin (fun e hh ↦ hh.derived_self) (fun hh hdone he ↦ hh.derived _ _ he hdone)
    (fun hh hother ↦ hh.setSimplified hother) (fun hother ↦ hother)
    (fun {recur} (hrecur : g.Derives recur) x h hh ↦ ?_) n
  by_cases hx : x < g.size
  · exact (derives_simplifyNode hg hrecur hx hh).imp fun _ _ hother ↦ ⟨hother.1, fun _ ↦ hother.2⟩
  · exact ⟨keeps_simplifyNode (D := fun _ ↦ True) (fun _ op span hh ↦ hh.push op span)
        (fun _ _ _ _ _ _ ↦ trivial) (fun x _ ↦ hrecur.keeps x) trivial h hh,
      fun hx' ↦ absurd hx' hx⟩

/-- What simplification answers for an old node is derived from it. -/
theorem derives_simplify (hg : g.WellFormed) : g.Derives simplify :=
  fun x h hh ↦ .get (derives_simplifyWithin hg _ x h hh)

/-! ### One call after others -/

/-- Nodes are simplified one after the other. -/
inductive SimplifiedBy (g : Grammar) : List ExprId → Grammar → Prop
  | nil : SimplifiedBy g [] g
  | snoc {es : List ExprId} {h : Grammar} (rest : SimplifiedBy g es h) {e : ExprId}
    (he : e < h.size) : SimplifiedBy g (es ++ [e]) (simplify e h).2

/-- Nothing recorded is a right record. -/
theorem Canonical.of_empty (hg : g.WellFormed) (hempty : g.simplified = {}) :
    g.Canonical (fun _ ↦ none) [] := by
  have hnone (e : ExprId) : g.simplified? e = none := by
    rw [simplified?, hempty, Std.TreeMap.getElem?_emptyc]
  exact {
    wellFormed := hg
    base_closed := fun _ _ h ↦ by cases h
    closed := fun e other hother ↦ by
      rw [hnone] at hother
      cases hother
    base_le := fun _ _ h ↦ by cases h
    marked := fun _ h ↦ by cases h
    right := fun e other hother ↦ by
      rw [hnone] at hother
      cases hother }

/-- After any calls the record is right, and its results are derived. -/
theorem SimplifiedBy.invariant (hg : g.WellFormed) (hempty : g.simplified = {})
    {es : List ExprId} (hh : g.SimplifiedBy es h) :
    h.Canonical (fun _ ↦ none) [] ∧ g.Traced h := by
  induction hh with
  | nil => exact ⟨.of_empty hg hempty, .refl hempty⟩
  | snoc _ he ih =>
    obtain ⟨hcanonical, htraced⟩ := ih
    exact ⟨(ensures_simplify_canonical hcanonical he).1.canonical,
      (derives_simplify hg _ _ htraced).1⟩

/-- What is found for a node is a terminal or a dispatch form. -/
theorem isSome_of_foundIn {forms : ExprId → Form} {f : Form} (hf : foundIn forms g e = some f) :
    f.terminal.isSome ∨ f.dispatch.isSome := by
  unfold foundIn at hf
  split at hf
  · obtain ⟨set, -, rfl⟩ := Option.map_eq_some_iff.mp hf
    exact .inl rfl
  · obtain ⟨op, -, rfl⟩ := Option.map_eq_some_iff.mp hf
    exact .inl rfl
  · exact isSome_of_lookaheadIn hf
  · obtain ⟨body, -, hf⟩ := Option.bind_eq_some_iff.mp hf
    obtain ⟨op, -, rfl⟩ := Option.map_eq_some_iff.mp hf
    exact .inl rfl
  · cases hf

/-- A dispatch form is itself what is found for it. -/
theorem found_eq_none_of_dispatch {fast : ByteSet} (he : g.dispatchForm? e = some fast) :
    g.found (fun _ ↦ none) e = none := by
  obtain ⟨set, any, hop, -, hany⟩ := dispatchForm?_eq_some he
  have hanyForm : g.formFound (fun _ ↦ none) any = .ofTerminal .anyByte := by
    have hform := form_eq_ofTerminal hany rfl
    have hnone : g.found (fun _ ↦ none) any = none := found_eq_none.mpr fun n ↦
      foundWithin_of_tells rfl (by rw [hform]; exact .inl rfl) n
    rw [formFound, hnone, Option.getD_none, hform]
  -- any byte is no byte set, so there is no union
  have hunion : unionIn (g.formFound fun _ ↦ none) .empty [set, any] = none := by
    rw [unionIn]
    refine Option.bind_eq_none_iff.mpr fun s _ ↦ ?_
    rw [unionIn, hanyForm]
    rfl
  rw [found_eq_foundIn rfl, foundIn, hop]
  dsimp only
  rw [hunion, Option.map_none]

/-- Nothing further is found for an answer. -/
theorem Right.found_eq_none (hr : g.Right (fun _ ↦ none) e other) :
    g.found (fun _ ↦ none) other = none := by
  by_cases heq : other = e
  · subst heq
    exact hr.trans (if_pos rfl)
  · have hf : g.found (fun _ ↦ none) e = some (g.form other) := hr.trans (if_neg heq)
    rw [found_eq_foundIn rfl] at hf
    rcases isSome_of_foundIn hf with hterminal | hdispatch
    · exact Grammar.found_eq_none.mpr fun n ↦ foundWithin_of_tells rfl (.inl hterminal) n
    · obtain ⟨fast, hfast⟩ := Option.isSome_iff_exists.mp hdispatch
      exact found_eq_none_of_dispatch hfast

/-! ### The same answer -/

/-- Two answers for a node of a grammar, each with the grammar in which it was given: the node
itself both times, the same terminal or the same dispatch form. Only a new node may have different
ids. -/
structure AnswersAlike (g : Grammar) (e : ExprId) (a b : ExprId × Grammar) : Prop where
  /-- The node is left unchanged, or a terminal or dispatch form is found for it. -/
  same : (a.1 = e ∧ b.1 = e) ∨ a.1 ≠ e ∧ b.1 ≠ e ∧
    ((∃ op, op.isTerminal ∧ a.2.op a.1 = op ∧ b.2.op b.1 = op) ∨
      ∃ fast, a.2.dispatchForm? a.1 = some fast ∧ b.2.dispatchForm? b.1 = some fast)
  /-- The answers stand at the same place of the text. -/
  span_eq : a.2.span a.1 = b.2.span b.1
  /-- If one of them is an old node, it is the other one. -/
  eq_of_lt : a.1 < g.size ∨ b.1 < g.size → a.1 = b.1

/-- Nodes that stem from the same node stand at the same place, and are the same unless both are
new. -/
theorem Stems.eq (hgh : g.IntactIn h) (hgk : g.IntactIn k) {other' : ExprId}
    (hother : g.Stems h e other) (hother' : g.Stems k e other') :
    h.span other = k.span other' ∧ (other < g.size ∨ other' < g.size → other = other') := by
  obtain ⟨x, hx, hother⟩ := hother
  obtain ⟨x', hx', hother'⟩ := hother'
  obtain rfl := hx.eq hx'
  by_cases hterminal : (g.op x).isTerminal
  · rw [if_pos hterminal] at hother hother'
    have hlt : x < g.size := lt_size_of_op_ne fun hop ↦ by
      rw [hop] at hterminal
      cases hterminal
    rw [hother, hother']
    exact ⟨(hgh.span_eq hlt).trans (hgk.span_eq hlt).symm, fun _ ↦ rfl⟩
  · rw [if_neg hterminal] at hother hother'
    refine ⟨hother.2.trans hother'.2.symm, fun hlt ↦ ?_⟩
    rcases hlt with hlt | hlt
    · exact absurd hlt (Nat.not_lt_of_le hother.1)
    · exact absurd hlt (Nat.not_lt_of_le hother'.1)

/-- A terminal or a dispatch form is the same in two grammars if it has one form. -/
theorem same_of_form_eq {other' : ExprId} (hform : h.form other = k.form other')
    (hsome : (h.form other).terminal.isSome ∨ (h.form other).dispatch.isSome) :
    (∃ op, op.isTerminal ∧ h.op other = op ∧ k.op other' = op) ∨
      ∃ fast, h.dispatchForm? other = some fast ∧ k.dispatchForm? other' = some fast := by
  rcases hsome with hterminal | hdispatch
  · obtain ⟨op, hop⟩ := Option.isSome_iff_exists.mp hterminal
    have hop' := hop
    rw [hform] at hop'
    exact .inl ⟨op, (terminal_form_eq_some.mp hop).2, (terminal_form_eq_some.mp hop).1,
      (terminal_form_eq_some.mp hop').1⟩
  · obtain ⟨fast, hfast⟩ := Option.isSome_iff_exists.mp hdispatch
    have hfast' := hfast
    rw [hform] at hfast'
    exact .inr ⟨fast, hfast, hfast'⟩

/-- Right answers that are derived from the same node are the same. -/
theorem answersAlike_of_derived {base : ExprId → Option ExprId} {other' : ExprId}
    (hg : g.WellFormed) (hbase : g.Closed base) (he : e < g.size) (hnone : base e = none)
    (hgh : g.IntactIn h) (hright : h.Right base e other) (hd : g.Derived h e other)
    (hgk : g.IntactIn k) (hright' : k.Right base e other') (hd' : g.Derived k e other') :
    g.AnswersAlike e (other, h) (other', k) := by
  have hfound : h.found base e = g.found base e := hgh.toExtends.found_eq hg hbase he
  have hfound' : k.found base e = g.found base e := hgk.toExtends.found_eq hg hbase he
  rw [Right, hfound] at hright
  rw [Right, hfound'] at hright'
  by_cases heq : other = e
  · -- nothing is found
    have heq' : other' = e := by
      by_contra hne
      rw [if_neg hne, if_pos heq] at *
      cases hright.symm.trans hright'
    subst heq heq'
    refine ⟨.inl ⟨rfl, rfl⟩, ?_, fun _ ↦ rfl⟩
    exact (hgh.span_eq he).trans (hgk.span_eq he).symm
  · have hne' : other' ≠ e := by
      intro heq'
      rw [if_pos heq'] at hright'
      rw [if_neg heq] at hright
      cases hright.symm.trans hright'
    rw [if_neg heq] at hright
    rw [if_neg hne'] at hright'
    have hform : h.form other = k.form other' := Option.some.inj (hright.symm.trans hright')
    obtain ⟨hspan, heq_of_lt⟩ :=
      Stems.eq hgh hgk (hd.2.resolve_left heq) (hd'.2.resolve_left hne')
    have hsame : (∃ op, op.isTerminal ∧ h.op other = op ∧ k.op other' = op) ∨
        ∃ fast, h.dispatchForm? other = some fast ∧ k.dispatchForm? other' = some fast := by
      have hfoundIn : foundIn (g.formFound base) g e = some (h.form other) := by
        rw [← found_eq_foundIn hnone]
        exact hright
      exact same_of_form_eq hform (isSome_of_foundIn hfoundIn)
    exact ⟨.inr ⟨heq, hne', hsame⟩, hspan, heq_of_lt⟩

/-- However many nodes were simplified before, the answer for a node of the grammar is the same as
when it is simplified first. An answer is its own answer. Nothing that was there before a call is
changed by it. -/
theorem answersAlike_of_simplifiedBy (hg : g.WellFormed) (hempty : g.simplified = {})
    {es : List ExprId} (hh : g.SimplifiedBy es h) :
    (∀ e < g.size, g.AnswersAlike e (simplify e g) (simplify e h)) ∧
      (∀ e < h.size, (simplify (simplify e h).1 (simplify e h).2).1 = (simplify e h).1) ∧
      ∀ e, h.IntactIn (simplify e h).2 := by
  obtain ⟨hcanonical, htraced⟩ := hh.invariant hg hempty
  refine ⟨fun e he ↦ ?_, fun e he ↦ ?_, fun e ↦
    keeps_simplify (enduring_intactIn h) e h (.refl h)⟩
  · have hgcanonical := Canonical.of_empty hg hempty
    obtain ⟨-, -, hright⟩ := ensures_simplify_canonical hgcanonical he
    obtain ⟨hgtraced, hd⟩ := derives_simplify hg e g (.refl hempty)
    obtain ⟨-, -, hright'⟩ := ensures_simplify_canonical hcanonical (htraced.lt he)
    obtain ⟨hktraced, hd'⟩ := derives_simplify hg e h htraced
    exact answersAlike_of_derived hg hgcanonical.base_closed he rfl hgtraced.toIntactIn hright
      (hd he) hktraced.toIntactIn hright' (hd' he)
  · obtain ⟨hfills, hlt, hright⟩ := ensures_simplify_canonical hcanonical he
    obtain ⟨hfills', -, hright'⟩ := ensures_simplify_canonical hfills.canonical hlt
    rw [Right, hfills'.toExtends.found_eq hfills.canonical.wellFormed hfills.canonical.base_closed
      hlt, hright.found_eq_none] at hright'
    by_contra hne
    rw [if_neg hne] at hright'
    cases hright'

/-- `S = !T . / S` and `T = [a] / [b]`. -/
def recursiveLookahead : Grammar where
  nodes := #[⟨.byte 97, .synthetic⟩, ⟨.byte 98, .synthetic⟩, ⟨.choice [0, 1], .synthetic⟩,
    ⟨.reference 1, .synthetic⟩, ⟨.not 3, .synthetic⟩, ⟨.anyByte, .synthetic⟩,
    ⟨.sequence [4, 5], .synthetic⟩, ⟨.reference 0, .synthetic⟩, ⟨.choice [6, 7], .synthetic⟩]
  rules := #[{ name := "S", body := some 8 }, { name := "T", body := some 2 }]

/-- The first alternative of `S` becomes a byte class, also when it is met while a reference to `S`
is under way. -/
theorem answersAlike_of_simplifiedBy_recursiveLookahead :
    recursiveLookahead.WellFormed ∧ recursiveLookahead.simplified = {} ∧
      recursiveLookahead.SimplifiedBy [7] (simplify 7 recursiveLookahead).2 ∧
      (∀ e < recursiveLookahead.size, recursiveLookahead.AnswersAlike e
        (simplify e recursiveLookahead) (simplify e (simplify 7 recursiveLookahead).2)) ∧
      (∀ e < (simplify 7 recursiveLookahead).2.size,
        (simplify (simplify e (simplify 7 recursiveLookahead).2).1
          (simplify e (simplify 7 recursiveLookahead).2).2).1 =
            (simplify e (simplify 7 recursiveLookahead).2).1) ∧
      ∀ e, (simplify 7 recursiveLookahead).2.IntactIn
        (simplify e (simplify 7 recursiveLookahead).2).2 := by
  have hg : recursiveLookahead.WellFormed := by decide
  have hh : recursiveLookahead.SimplifiedBy [7] (simplify 7 recursiveLookahead).2 :=
    .snoc .nil (by decide)
  exact ⟨hg, rfl, hh, answersAlike_of_simplifiedBy hg rfl hh⟩

end ParsingMachine.Grammar
