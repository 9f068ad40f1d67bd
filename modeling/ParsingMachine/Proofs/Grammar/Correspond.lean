import Mathlib.Data.List.Forall2
import Mathlib.Logic.Relation
import ParsingMachine.Proofs.Grammar.Factor
import ParsingMachine.Proofs.Grammar.Reach

/-!
# Factoring looks at the operands of a choice only

Factoring compares nodes and takes lists of operands apart, so it does the same in two grammars in
which nodes correspond one to one (`Grammar.Related`), and what it makes corresponds again. The
proof goes through the functions of factoring and has one lemma for each: given nodes that
correspond, the answers correspond.

A correspondence is a relation between ids that is one to one and under which corresponding nodes
have corresponding operators. Operands have to correspond in sequences and choices only, and bodies
where a rule is referred to, because factoring looks into nothing else (`Operator.Corresponds`); an
operator of any other kind has to be the same on both sides, operands included. The nodes that are
made next in the two grammars correspond by assumption, which makes the relation an invariant: it
needs no change when nodes are made on both sides.

This is used for two things, by two different correspondences.

In a larger grammar factoring makes the same nodes at other places. Old nodes correspond to
themselves and new ones are moved (`Moved`). So which old nodes a factored choice is made of does
not depend on what else was added in between.

When a node corresponds to itself if it has a property, what factoring makes is made of nodes with
that property (`Among`). With the property of taking part in matching one of the alternatives, this
says where the parts of a factored choice come from.

## Main statements

* `Related.resolve`, `Related.elements`, `Related.splitAtShared`: what is taken apart corresponds.
* `Related.factorCommonHead`: factored choices correspond.
* `embeds_iff_of_grows`: in a larger grammar factoring makes nodes of the same old ones.
* `reach_of_embeds`: what a factored choice is made of takes part in matching one of its
  alternatives.
-/

namespace ParsingMachine

/-! ### Corresponding operators -/

/-- The operands of sequences and choices correspond, and so do the bodies of referenced rules. -/
inductive Operator.Corresponds (R : ExprId → ExprId → Prop) (body body' : RuleId → Option ExprId) :
    Operator → Operator → Prop
  | sequence {xs ys : List ExprId} (h : List.Forall₂ R xs ys) :
    Corresponds R body body' (.sequence xs) (.sequence ys)
  | choice {xs ys : List ExprId} (h : List.Forall₂ R xs ys) :
    Corresponds R body body' (.choice xs) (.choice ys)
  | reference (rule : RuleId) (h : Option.Rel R (body rule) (body' rule)) :
    Corresponds R body body' (.reference rule) (.reference rule)
  | same {op : Operator} (hsequence : ∀ xs, op ≠ .sequence xs) (hchoice : ∀ xs, op ≠ .choice xs)
    (hreference : ∀ rule, op ≠ .reference rule) : Corresponds R body body' op op

/-- The operands of glue correspond. -/
theorem Operator.Corresponds.children {R : ExprId → ExprId → Prop}
    {body body' : RuleId → Option ExprId}
    {op op' : Operator} (h : op.Corresponds R body body' op') (hop : op.isGlue) :
    List.Forall₂ R op.children op'.children := by
  cases h with
  | sequence h | choice h => exact h
  | reference _ _ => cases hop
  | same hsequence hchoice _ =>
    cases op with
    | sequence xs => exact absurd rfl (hsequence xs)
    | choice xs => exact absurd rfl (hchoice xs)
    | empty | fail | anyByte | byteClass _ => exact .nil
    | _ => cases hop

/-- Correspondence can be read from either side. -/
theorem Operator.Corresponds.symm {R : ExprId → ExprId → Prop} {body body' : RuleId → Option ExprId}
    {op op' : Operator} (h : op.Corresponds R body body' op') :
    op'.Corresponds (fun x a ↦ R a x) body' body op := by
  cases h with
  | sequence h => exact .sequence h.flip
  | choice h => exact .choice h.flip
  | reference rule h =>
    refine .reference rule ?_
    generalize body rule = b, body' rule = b' at h ⊢
    cases h with
    | none => exact .none
    | some h => exact .some h
  | same hsequence hchoice hreference => exact .same hsequence hchoice hreference

/-- An operator corresponds to itself when its operands and what it refers to do. -/
theorem Operator.corresponds_self {R : ExprId → ExprId → Prop} {body : RuleId → Option ExprId}
    {op : Operator} (hchild : ∀ e ∈ op.children, R e e)
    (hbody : ∀ rule e, op = .reference rule → body rule = some e → R e e) :
    op.Corresponds R body body op := by
  have hall (xs : List ExprId) (h : ∀ e ∈ xs, R e e) : List.Forall₂ R xs xs :=
    List.forall₂_same.mpr h
  cases op with
  | sequence xs => exact .sequence (hall xs hchild)
  | choice xs => exact .choice (hall xs hchild)
  | reference rule =>
    refine .reference rule ?_
    rcases hb : body rule with - | e
    · exact .none
    · exact .some (hbody rule e rfl hb)
  | _ => exact .same (fun _ h ↦ nomatch h) (fun _ h ↦ nomatch h) fun _ h ↦ nomatch h

namespace Grammar

/-- Corresponding nodes have corresponding operators, and so will nodes that are made next. -/
structure Related (R : ExprId → ExprId → Prop) (g h : Grammar) : Prop where
  /-- Nodes correspond one to one. -/
  unique : ∀ {a b x y}, R a x → R b y → (a = b ↔ x = y)
  /-- Their operators correspond. -/
  op : ∀ {a x}, R a x → (g.op a).Corresponds R g.body? h.body? (h.op x)
  /-- There are as many rules. -/
  ruleCount_eq : h.ruleCount = g.ruleCount
  /-- Nodes that are made next correspond. -/
  next : ∀ n, R (g.size + n) (h.size + n)

variable {R : ExprId → ExprId → Prop} {g h : Grammar} {a b x y : ExprId}

namespace Related

/-! ### Taking apart -/

/-- References are followed in step, through the same rules. -/
theorem resolveSteps (hr : g.Related R h) (n : Nat) (followed : List RuleId) (ha : R a x) :
    R (g.resolveSteps n followed a) (h.resolveSteps n followed x) := by
  induction n generalizing followed a x with
  | zero => exact ha
  | succ n ih =>
    have hop := hr.op ha
    rw [Grammar.resolveSteps, Grammar.resolveSteps]
    generalize g.op a = op at hop ⊢
    generalize h.op x = op' at hop ⊢
    cases hop with
    | reference rule hbody =>
      dsimp only
      split
      · exact ha
      · generalize g.body? rule = body at hbody ⊢
        generalize h.body? rule = body' at hbody ⊢
        cases hbody with
        | none => exact ha
        | some hbody => exact ih _ hbody
    | sequence _ | choice _ => exact ha
    | same _ _ hreference =>
      split
      · exact absurd rfl (hreference _)
      · exact ha

/-- What references come down to corresponds. -/
theorem resolve (hr : g.Related R h) (ha : R a x) : R (g.resolve a) (h.resolve x) := by
  rw [Grammar.resolve, Grammar.resolve, hr.ruleCount_eq]
  exact hr.resolveSteps _ _ ha

/-- The elements of corresponding alternatives correspond one by one. -/
theorem elements (hr : g.Related R h) (ha : R a x) :
    List.Forall₂ R (g.elements a) (h.elements x) := by
  have hresolve := hr.resolve ha
  have hop := hr.op hresolve
  unfold Grammar.elements
  dsimp only
  generalize g.op (g.resolve a) = op at hop ⊢
  generalize h.op (h.resolve x) = op' at hop ⊢
  cases hop with
  | sequence hitems => exact hitems
  | choice _ | reference _ _ => exact .cons hresolve .nil
  | same hsequence _ _ =>
    split
    · exact absurd rfl (hsequence _)
    · exact .cons hresolve .nil

/-- So do the items that nodes contribute to a sequence. -/
theorem sequenceItems (hr : g.Related R h) (ha : R a x) :
    List.Forall₂ R (g.sequenceItems a) (h.sequenceItems x) := by
  have hop := hr.op ha
  unfold Grammar.sequenceItems
  generalize g.op a = op at hop ⊢
  generalize h.op x = op' at hop ⊢
  cases hop with
  | sequence hitems => exact hitems
  | choice _ | reference _ _ => exact .cons ha .nil
  | same hsequence _ _ =>
    split
    · exact absurd rfl (hsequence _)
    · exact .nil
    · exact .cons ha .nil

/-- And the alternatives that they contribute to a choice. -/
theorem choiceItems (hr : g.Related R h) (ha : R a x) :
    List.Forall₂ R (g.choiceItems a) (h.choiceItems x) := by
  have hop := hr.op ha
  unfold Grammar.choiceItems
  generalize g.op a = op at hop ⊢
  generalize h.op x = op' at hop ⊢
  cases hop with
  | choice halts => exact halts
  | sequence _ | reference _ _ => exact .cons ha .nil
  | same _ hchoice _ =>
    split
    · exact absurd rfl (hchoice _)
    · exact .cons ha .nil

/-- Whether two alternatives begin alike is the same on both sides, since nodes correspond one to
one. -/
theorem sameHead (hr : g.Related R h) (ha : R a x) (hb : R b y) :
    g.sameHead a b = h.sameHead x y := by
  have hxs := hr.elements ha
  have hys := hr.elements hb
  unfold Grammar.sameHead
  generalize g.elements a = xs at hxs ⊢
  generalize h.elements x = xs' at hxs ⊢
  generalize g.elements b = ys at hys ⊢
  generalize h.elements y = ys' at hys ⊢
  cases hxs with
  | nil => rfl
  | cons hx _ =>
    cases hys with
    | nil => rfl
    | cons hy _ =>
      have hiff := hr.unique hx hy
      simp only [List.head?_cons, beq_eq_decide]
      exact decide_eq_decide.mpr hiff

/-- The shared beginnings are equally long and correspond. -/
theorem sharedHead (hr : g.Related R h) {xs ys xs' ys' : List ExprId} (hxs : List.Forall₂ R xs xs')
    (hys : List.Forall₂ R ys ys') :
    List.Forall₂ R (Grammar.sharedHead xs ys) (Grammar.sharedHead xs' ys') := by
  induction hxs generalizing ys ys' with
  | nil => exact .nil
  | @cons a x _ _ hx _ ih =>
    cases hys with
    | nil => exact .nil
    | @cons b y _ _ hy hys =>
      rw [Grammar.sharedHead, Grammar.sharedHead]
      by_cases heq : a = b
      · rw [if_pos heq, if_pos ((hr.unique hx hy).mp heq)]
        exact .cons hx (ih hys)
      · rw [if_neg heq, if_neg fun h ↦ heq ((hr.unique hx hy).mpr h)]
        exact .nil

/-- The parts of a split list correspond. -/
theorem splitAtShared (hr : g.Related R h) {alts alts' : List ExprId}
    (halts : List.Forall₂ R alts alts') :
    Option.Rel (fun p q ↦ List.Forall₂ R p.1 q.1 ∧ R p.2.1 q.2.1 ∧ R p.2.2.1 q.2.2.1 ∧
      List.Forall₂ R p.2.2.2 q.2.2.2) (g.splitAtShared alts) (h.splitAtShared alts') := by
  induction halts with
  | nil => exact .none
  | cons ha halts ih =>
    cases halts with
    | nil => exact .none
    | @cons b y rest rest' hb hrest =>
      rw [Grammar.splitAtShared, Grammar.splitAtShared, hr.sameHead ha hb]
      split
      · exact .some ⟨.nil, ha, hb, hrest⟩
      · generalize g.splitAtShared (b :: rest) = parts at ih ⊢
        generalize h.splitAtShared (y :: rest') = parts' at ih ⊢
        cases ih with
        | none => exact .none
        | some hpair => exact .some ⟨.cons ha hpair.1, hpair.2⟩

end Related

end Grammar

/-! ### Builders -/

/-- Two builders keep grammars related, and their answers correspond. -/
def Builder.Relates {α β : Type} (R : ExprId → ExprId → Prop) (m : Builder α) (m' : Builder β)
    (g h : Grammar) (Q : α → β → Prop) : Prop :=
  (m g).2.Related R (m' h).2 ∧ Q (m g).1 (m' h).1

namespace Builder

variable {α β γ δ : Type} {R : ExprId → ExprId → Prop} {g h : Grammar}

theorem Relates.pure {Q : α → β → Prop} {a : α} {b : β} (hr : g.Related R h) (hab : Q a b) :
    Relates R (Pure.pure a) (Pure.pure b) g h Q :=
  ⟨hr, hab⟩

/-- Two builders after two others. -/
theorem Relates.bind {m : Builder α} {m' : Builder β} {f : α → Builder γ} {f' : β → Builder δ}
    {P : α → β → Prop} {Q : γ → δ → Prop} (hm : Relates R m m' g h P)
    (hf : ∀ a b g h, g.Related R h → P a b → Relates R (f a) (f' b) g h Q) :
    Relates R (m >>= f) (m' >>= f') g h Q :=
  hf _ _ _ _ hm.1 hm.2

theorem Relates.map {m : Builder α} {m' : Builder β} {f : α → γ} {f' : β → δ} {Q : γ → δ → Prop}
    (hm : Relates R m m' g h fun a b ↦ Q (f a) (f' b)) : Relates R (f <$> m) (f' <$> m') g h Q :=
  hm

/-- Looking at the grammars, each at its own. -/
theorem Relates.get {f f' : Grammar → Builder α} {Q : α → α → Prop}
    (hf : Relates R (f g) (f' h) g h Q) :
    Relates R (MonadState.get >>= f) (MonadState.get >>= f') g h Q :=
  hf

end Builder

namespace Grammar

variable {R : ExprId → ExprId → Prop} {g h : Grammar} {a b x y : ExprId}

open Builder

namespace Related

/-- A node may be made. -/
theorem alloc (hr : g.Related R h) {op op' : Operator}
    (hop : op.Corresponds R g.body? h.body? op') :
    Relates R (Grammar.alloc op) (Grammar.alloc op') g h R := by
  have hnew : R g.size h.size := hr.next 0
  refine ⟨⟨hr.unique, fun {a x} ha ↦ ?_, hr.ruleCount_eq, fun n ↦ ?_⟩, hnew⟩
  · show Operator.Corresponds R g.body? h.body? ((g.push op .synthetic).op a)
      ((h.push op' .synthetic).op x)
    rw [op_push, op_push]
    by_cases heq : a = g.size
    · rw [if_pos heq, if_pos ((hr.unique ha hnew).mp heq)]
      exact hop
    · rw [if_neg heq, if_neg fun h ↦ heq ((hr.unique ha hnew).mpr h)]
      exact hr.op ha
  · show R ((g.push op .synthetic).size + n) ((h.push op' .synthetic).size + n)
    rw [size_push, size_push, Nat.add_assoc, Nat.add_assoc]
    exact hr.next (1 + n)

/-- A node may be made that is neither sequence nor choice nor reference. -/
theorem alloc_same (hr : g.Related R h) {op : Operator} (hsequence : ∀ xs, op ≠ .sequence xs)
    (hchoice : ∀ xs, op ≠ .choice xs) (hreference : ∀ rule, op ≠ .reference rule) :
    Relates R (Grammar.alloc op) (Grammar.alloc op) g h R :=
  hr.alloc (.same hsequence hchoice hreference)

/-- The sequences of corresponding nodes correspond, whether a node is made for them or not. -/
theorem sequence (hr : g.Related R h) {xs ys : List ExprId} (hxs : List.Forall₂ R xs ys) :
    Relates R (Grammar.sequence xs) (Grammar.sequence ys) g h R := by
  cases hxs with
  | nil => exact hr.alloc_same (fun _ h ↦ nomatch h) (fun _ h ↦ nomatch h) fun _ h ↦ nomatch h
  | cons hx hxs =>
    cases hxs with
    | nil => exact .pure hr hx
    | cons hy hxs => exact hr.alloc (.sequence (.cons hx (.cons hy hxs)))

/-- So do the choices. -/
theorem choice (hr : g.Related R h) {xs ys : List ExprId} (hxs : List.Forall₂ R xs ys) :
    Relates R (Grammar.choice xs) (Grammar.choice ys) g h R := by
  cases hxs with
  | nil => exact hr.alloc_same (fun _ h ↦ nomatch h) (fun _ h ↦ nomatch h) fun _ h ↦ nomatch h
  | cons hx hxs =>
    cases hxs with
    | nil => exact .pure hr hx
    | cons hy hxs => exact hr.alloc (.choice (.cons hx (.cons hy hxs)))

/-- And the flat sequences, as the same items are taken apart. -/
theorem flatSequence (hr : g.Related R h) {xs ys : List ExprId} (hxs : List.Forall₂ R xs ys) :
    Relates R (Grammar.flatSequence xs) (Grammar.flatSequence ys) g h R :=
  .get (hr.sequence (List.rel_flatMap hxs fun _ _ hx ↦ hr.sequenceItems hx))

/-- Alternatives are merged on both sides or on neither. -/
theorem mergeAlternatives (hr : g.Related R h) (ha : R a x) (hb : R b y) :
    Relates R (Grammar.mergeAlternatives a b) (Grammar.mergeAlternatives x y) g h
      (Option.Rel R) := by
  refine .get ?_
  have hxs := hr.elements ha
  have hys := hr.elements hb
  have hshared := hr.sharedHead hxs hys
  dsimp only
  generalize g.elements a = xs, h.elements x = xs', g.elements b = ys, h.elements y = ys' at *
  generalize Grammar.sharedHead xs ys = shared, Grammar.sharedHead xs' ys' = shared' at *
  -- both share something or neither does, and then the same number of nodes
  cases hshared with
  | nil => exact .pure hr .none
  | cons hz hshared =>
    have hall := List.Forall₂.cons hz hshared
    rw [hall.length_eq]
    refine (hr.flatSequence (List.forall₂_drop _ hxs)).bind fun rest rest' g h hr hrest ↦ ?_
    refine (hr.flatSequence (List.forall₂_drop _ hys)).bind fun other other' g h hr hother ↦ .get ?_
    refine (hr.choice (List.rel_append (hr.choiceItems hrest) (hr.choiceItems hother))).bind
      fun suffix suffix' g h hr hsuffix ↦ .get (.map ?_)
    obtain ⟨hr', hmerged⟩ := hr.flatSequence (List.rel_append hall (hr.sequenceItems hsuffix))
    exact ⟨hr', .some hmerged⟩

/-- The alternatives left after merging correspond one by one. -/
theorem mergeFollowing (hr : g.Related R h) {xs ys : List ExprId} (ha : R a x)
    (hxs : List.Forall₂ R xs ys) :
    Relates R (Grammar.mergeFollowing a xs) (Grammar.mergeFollowing x ys) g h (List.Forall₂ R) := by
  induction hxs generalizing g h a x with
  | nil => exact .pure hr (.cons ha .nil)
  | cons hb _ ih =>
    refine (hr.mergeAlternatives ha hb).bind fun merged merged' g h hr hmerged ↦ ?_
    cases hmerged with
    | some hmerged => exact ih hr hmerged
    | none =>
      refine (ih hr hb).bind fun results results' g h hr hresults ↦ ?_
      exact .pure hr (.cons ha hresults)

/-- Factoring nodes with corresponding operators in related grammars. -/
theorem factorCommonHead (hr : g.Related R h)
    (hop : (g.op a).Corresponds R g.body? h.body? (h.op x)) :
    Relates R (Grammar.factorCommonHead a) (Grammar.factorCommonHead x) g h (Option.Rel R) := by
  refine .get ?_
  generalize g.op a = op, h.op x = op' at hop ⊢
  cases hop with
  | sequence _ | reference _ _ => exact .pure hr .none
  | same _ hchoice _ =>
    split
    · exact absurd rfl (hchoice _)
    · exact .pure hr .none
  | @choice xs ys halts =>
    have hparts := hr.splitAtShared halts
    dsimp only
    generalize g.splitAtShared xs = parts, h.splitAtShared ys = parts' at hparts ⊢
    cases hparts with
    | none => exact .pure hr .none
    | some hparts =>
      obtain ⟨hbefore, ha, hb, hrest⟩ := hparts
      refine (hr.mergeAlternatives ha hb).bind fun merged merged' g h hr hmerged ↦ ?_
      cases hmerged with
      | none => exact .pure hr .none
      | some hmerged =>
        refine (hr.mergeFollowing hmerged hrest).bind fun results results' g h hr hresults ↦ .map ?_
        obtain ⟨hr', hfactored⟩ := hr.choice (List.rel_append hbefore hresults)
        exact ⟨hr', .some hfactored⟩

end Related

/-! ### What new nodes are made of -/

/-- An old node is reached through new ones, where the nodes below `n` are old. -/
def Embeds (n : Nat) (g : Grammar) (e x : ExprId) : Prop :=
  x < n ∧ Relation.ReflTransGen (fun a b ↦ n ≤ a ∧ b ∈ (g.op a).children) e x

theorem exists_of_forall₂ {xs ys : List ExprId} (h : List.Forall₂ R xs ys) (ha : a ∈ xs) :
    ∃ x ∈ ys, R a x := by
  induction h with
  | nil => cases ha
  | @cons b y _ _ hb _ ih =>
    rcases List.mem_cons.mp ha with rfl | ha
    · exact ⟨y, List.mem_cons_self, hb⟩
    · obtain ⟨x, hx, hax⟩ := ih ha
      exact ⟨x, List.mem_cons_of_mem _ hx, hax⟩

/-- Related grammars are related the other way round. -/
theorem Related.symm (hr : g.Related R h) : h.Related (fun x a ↦ R a x) g where
  unique ha hb := (hr.unique ha hb).symm
  op ha := (hr.op ha).symm
  ruleCount_eq := hr.ruleCount_eq.symm
  next := hr.next

/-- What is reached through new glue corresponds. -/
theorem Related.reaches (hr : g.Related R h) {m n : Nat} (hnew : ∀ a x, R a x → m ≤ a → n ≤ x)
    (hglue : ∀ a, m ≤ a → (g.op a).isGlue) (ha : R a x)
    (hb : Relation.ReflTransGen (fun a b ↦ m ≤ a ∧ b ∈ (g.op a).children) a b) :
    ∃ y, R b y ∧ Relation.ReflTransGen (fun x y ↦ n ≤ x ∧ y ∈ (h.op x).children) x y := by
  induction hb with
  | refl => exact ⟨x, ha, .refl⟩
  | @tail b c _ hc ih =>
    obtain ⟨hle, hmem⟩ := hc
    obtain ⟨y, hy, hpath⟩ := ih
    obtain ⟨z, hz, hcz⟩ := exists_of_forall₂ ((hr.op hy).children (hglue b hle)) hmem
    exact ⟨z, hcz, hpath.tail ⟨hnew b y hy hle, hz⟩⟩

/-! ### Larger grammars -/

/-- Old nodes stay where they are, and new ones are moved by the same distance. -/
def Moved (n m a x : Nat) : Prop :=
  x = if a < n then a else a - n + m

section

variable {n m a b x y : Nat}

theorem moved_of_lt (ha : a < n) : Moved n m a a := by
  rw [Moved, if_pos ha]

theorem moved_add (n m k : Nat) : Moved n m (n + k) (m + k) := by
  rw [Moved, if_neg (by omega)]
  omega

theorem Moved.eq_of_lt (h : Moved n m a x) (ha : a < n) : x = a := by
  rw [h, if_pos ha]

theorem Moved.add_eq (h : Moved n m a x) (ha : n ≤ a) : x + n = a + m := by
  rw [h, if_neg (by omega)]
  omega

/-- Old nodes correspond to old ones only. -/
theorem Moved.lt_iff (h : Moved n m a x) (hle : n ≤ m) : a < n ↔ x < m := by
  by_cases ha : a < n
  · rw [h.eq_of_lt ha]
    omega
  · have heq := h.add_eq (Nat.le_of_not_lt ha)
    omega

/-- Nodes are moved one to one. -/
theorem Moved.unique (h : Moved n m a x) (h' : Moved n m b y) (hle : n ≤ m) : a = b ↔ x = y := by
  unfold Moved at h h'
  split at h <;> split at h' <;> omega

end

/-- A grammar is related to a larger one by moving the nodes that are made next. -/
theorem related_of_grows (hg : g.WellFormed) (hgh : g.Grows h) :
    g.Related (Moved g.size h.size) h where
  unique ha hb := ha.unique hb hgh.size_le
  op {a x} hx := by
    by_cases ha : a < g.size
    · rw [hx.eq_of_lt ha, hgh.op_eq a ha, funext hgh.body?_eq]
      exact Operator.corresponds_self (fun b hb ↦ moved_of_lt (Nat.lt_trans (hg.child_lt hb) ha))
        fun rule b _ hbody ↦ moved_of_lt (hg.body_lt rule b hbody)
    · have hx' : ¬x < h.size := fun hlt ↦ ha ((hx.lt_iff hgh.size_le).mpr hlt)
      rw [op_of_size_le (Nat.le_of_not_lt ha), op_of_size_le (Nat.le_of_not_lt hx')]
      exact .same (fun _ h ↦ nomatch h) (fun _ h ↦ nomatch h) fun _ h ↦ nomatch h
  ruleCount_eq := hgh.ruleCount_eq
  next := moved_add _ _

/-- In a larger grammar factoring makes nodes of the same old ones. -/
theorem embeds_iff_of_grows (hg : g.WellFormed) (hgh : g.Grows h) (ha : a < g.size) :
    Option.Rel (fun e f ↦ ∀ x, Embeds g.size (factorCommonHead a g).2 e x ↔
      Embeds h.size (factorCommonHead a h).2 f x) (factorCommonHead a g).1
        (factorCommonHead a h).1 := by
  -- factor both, and follow paths through what is new on either side
  have hr := related_of_grows hg hgh
  have hle := hgh.size_le
  obtain ⟨hr', hresult⟩ := hr.factorCommonHead (hr.op (moved_of_lt ha))
  obtain ⟨⟨hgrows, -, -⟩, -⟩ := ensures_factorCommonHead hg a
  obtain ⟨⟨hgrows', -, -⟩, -⟩ := ensures_factorCommonHead (hgh.wellFormed hg) a
  generalize (factorCommonHead a g).1 = result, (factorCommonHead a h).1 = result' at hresult ⊢
  cases hresult with
  | none => exact .none
  | @some e f hef =>
    refine .some fun x ↦ ⟨fun ⟨hx, hpath⟩ ↦ ?_, fun ⟨hx, hpath⟩ ↦ ?_⟩
    · have hnew (b y : ExprId) (hy : Moved g.size h.size b y) (hb : g.size ≤ b) : h.size ≤ y :=
        Nat.le_of_not_lt fun hlt ↦ Nat.not_lt.mpr hb ((hy.lt_iff hle).mpr hlt)
      obtain ⟨y, hy, hpath'⟩ := hr'.reaches hnew hgrows.isGlue hef hpath
      rw [hy.eq_of_lt hx] at hpath'
      exact ⟨Nat.lt_of_lt_of_le hx hle, hpath'⟩
    · have hnew (y b : ExprId) (hy : Moved g.size h.size b y) (hb : h.size ≤ y) : g.size ≤ b :=
        Nat.le_of_not_lt fun hlt ↦ Nat.not_lt.mpr hb ((hy.lt_iff hle).mp hlt)
      obtain ⟨b, hb, hpath'⟩ := hr'.symm.reaches hnew hgrows'.isGlue hef hpath
      have hlt : b < g.size := (Moved.lt_iff hb hle).mpr hx
      rw [Moved.eq_of_lt hb hlt]
      exact ⟨hlt, hpath'⟩

/-! ### Parts of factored choices -/

/-- Nodes that have a property, and new ones, correspond to themselves. -/
def Among (P : ExprId → Prop) (n : Nat) (a x : ExprId) : Prop :=
  x = a ∧ (P a ∨ n ≤ a)

/-- A grammar is related to itself on every set of nodes that is closed under what takes part. -/
theorem related_self {P : ExprId → Prop} (hP : ∀ e, P e → ∀ x ∈ g.successors e, P x) :
    g.Related (Among P g.size) g where
  unique := by
    rintro a b _ _ ⟨rfl, -⟩ ⟨rfl, -⟩
    rfl
  op := by
    rintro a _ ⟨rfl, ha⟩
    rcases ha with ha | ha
    · have hsucc := hP _ ha
      unfold successors at hsucc
      refine Operator.corresponds_self (fun e he ↦ ⟨rfl, .inl (hsucc e ?_)⟩)
        fun rule e hop hbody ↦ ⟨rfl, .inl (hsucc e ?_)⟩
      · split
        · rename_i rule hop
          rw [hop] at he
          cases he
        · exact he
      · rw [hop]
        exact Option.mem_toList.mpr hbody
    · rw [op_of_size_le ha]
      exact .same (fun _ h ↦ nomatch h) (fun _ h ↦ nomatch h) fun _ h ↦ nomatch h
  ruleCount_eq := rfl
  next k := ⟨rfl, .inr (Nat.le_add_right _ k)⟩

/-- What a factored choice is made of takes part in matching one of its alternatives. -/
theorem reach_of_embeds (hg : g.WellFormed) {alts : List ExprId} (hop : g.op a = .choice alts)
    {e : ExprId} (he : (factorCommonHead a g).1 = some e)
    (hx : Embeds g.size (factorCommonHead a g).2 e x) : ∃ alt ∈ alts, g.Reach alt x := by
  obtain ⟨hlt, hpath⟩ := hx
  -- factoring one grammar twice: a node corresponds to itself if an alternative reaches it
  have hr : g.Related (Among (fun x ↦ ∃ alt ∈ alts, g.Reach alt x) g.size) g :=
    related_self fun y ⟨alt, halt, hreach⟩ z hz ↦ ⟨alt, halt, hreach.tail hz⟩
  obtain ⟨hr', hresult⟩ := hr.factorCommonHead (a := a) (x := a) (by
    rw [hop]
    exact .choice (List.forall₂_same.mpr fun alt halt ↦ ⟨rfl, .inl ⟨alt, halt, .refl⟩⟩))
  obtain ⟨⟨hgrows, -, -⟩, -⟩ := ensures_factorCommonHead hg a
  rw [he] at hresult
  cases hresult with
  | some hself =>
    obtain ⟨y, ⟨rfl, hy⟩, -⟩ := hr'.reaches (fun _ _ h hle ↦ h.1 ▸ hle) hgrows.isGlue hself hpath
    exact hy.resolve_right (Nat.not_le_of_lt hlt)

end Grammar

end ParsingMachine
