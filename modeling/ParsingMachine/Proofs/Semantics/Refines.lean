import ParsingMachine.Proofs.Semantics.Yields

/-!
# Refinement of terms

A term refines another one when it has every result that the other one has, with no more nested
rules. What is encoded in place of an expression has to refine it. Only one direction is asked for:
since results are unique, a term that has all results of another one can have further results only
where that one has none, and where an expression has no result there is nothing to be kept.

With the number of nested rules in the statement, refinement may be used below an induction on that
number; and it does not compare the depths of terms, so a nested sequence may be flattened and a
reference be replaced by what it leads to.

Refinement is kept by sequencing and by ordered choice, and nested sequences and choices can be
flattened. The laws are those of two operations that are associative and have a neutral element,
each in both directions, because neither follows from the other. From them follow the laws of lists
of operands by induction over the list, and no proof elsewhere takes a match of a list apart.

A common beginning of two alternatives can be taken out of the choice. This is the one law that
rests on uniqueness: when what follows the beginning in the first alternative fails, the second
alternative starts over, and the beginning has the same result again.

## Main statements

* `Refines.both`, `Refines.either`: refinement passes through sequencing and ordered choice.
* `refines_all_append`, `refines_any_append`: two sequences or choices make one.
* `refines_all_flatMap`: items may be replaced by sequences that refine them.
* `refines_factored`: a common beginning of two alternatives can be taken out.
* `refines_consumes`: a terminal tests one byte.
-/

namespace ParsingMachine

/-- Every result of `t` is a result of `u`. -/
def Refines (g : Grammar) (src : Resident) (t u : Term) : Prop :=
  ∀ d pos s r, Yields g src d t pos s r → Yields g src d u pos s r

section

variable {g : Grammar} {src : Resident} {t t' u u' v : Term}

namespace Refines

theorem refl (t : Term) : Refines g src t t :=
  fun _ _ _ _ h ↦ h

theorem trans (h : Refines g src t u) (h' : Refines g src u v) : Refines g src t v :=
  fun d pos s r ht ↦ h' d pos s r (h d pos s r ht)

/-- Refinement passes through sequencing. -/
theorem both (ht : Refines g src t t') (hu : Refines g src u u') :
    Refines g src (.both t u) (.both t' u') := by
  intro d pos s r h
  rcases Yields.both_iff.mp h with ⟨h₁, rfl⟩ | ⟨mid, s', h₁, h₂⟩
  · exact .bothNone (ht _ _ _ _ h₁)
  · exact .bothSome (ht _ _ _ _ h₁) (hu _ _ _ _ h₂)

/-- Refinement passes through ordered choice. -/
theorem either (ht : Refines g src t t') (hu : Refines g src u u') :
    Refines g src (.either t u) (.either t' u') := by
  intro d pos s r h
  rcases Yields.either_iff.mp h with ⟨hr, h₁⟩ | ⟨h₁, h₂⟩
  · exact Yields.either_iff.mpr (.inl ⟨hr, ht _ _ _ _ h₁⟩)
  · exact .eitherNone (ht _ _ _ _ h₁) (hu _ _ _ _ h₂)

end Refines

/-! ### Nodes -/

theorem refines_of_node (g : Grammar) (src : Resident) (e : ExprId) :
    Refines g src (.node e) ((g.op e).term src) :=
  fun _ _ _ _ ↦ Yields.node_iff.mp

theorem refines_node (g : Grammar) (src : Resident) (e : ExprId) :
    Refines g src ((g.op e).term src) (.node e) :=
  fun _ _ _ _ ↦ Yields.node

/-- A reference does what the body of its rule does. -/
theorem refines_body {rule : RuleId} {body : ExprId} (hbody : g.body? rule = some body) :
    Refines g src (.call rule) (.node body) := by
  intro d pos s r h
  rcases Yields.call_iff.mp h with ⟨hnone, -⟩ | ⟨body', d', hbody', rfl, h'⟩
  · rw [hbody] at hnone
    cases hnone
  · rw [hbody] at hbody'
    cases hbody'
    exact h'.mono (Nat.le_succ d')

/-! ### Sequences -/

theorem refines_done_both (t : Term) : Refines g src t (.both .done t) :=
  fun _ _ _ _ h ↦ .bothSome (Yields.done_iff.mpr rfl) h

theorem refines_of_done_both (t : Term) : Refines g src (.both .done t) t := by
  intro d pos s r h
  rcases Yields.both_iff.mp h with ⟨h₁, -⟩ | ⟨mid, s', h₁, h₂⟩
  · cases Yields.done_iff.mp h₁
  · cases Yields.done_iff.mp h₁
    exact h₂

/-- Nothing to be done after a term adds nothing to it. -/
theorem refines_both_done (t : Term) : Refines g src t (.both t .done) := by
  intro d pos s r h
  rcases r with - | ⟨stop, s'⟩
  · exact .bothNone h
  · exact .bothSome h (Yields.done_iff.mpr rfl)

theorem refines_of_both_done (t : Term) : Refines g src (.both t .done) t := by
  intro d pos s r h
  rcases Yields.both_iff.mp h with ⟨h₁, rfl⟩ | ⟨mid, s', h₁, h₂⟩
  · exact h₁
  · rw [Yields.done_iff.mp h₂]
    exact h₁

/-- Sequencing is associative. -/
theorem refines_both_assoc (t u v : Term) :
    Refines g src (.both (.both t u) v) (.both t (.both u v)) := by
  intro d pos s r h
  rcases Yields.both_iff.mp h with ⟨h₁, rfl⟩ | ⟨mid, s', h₁, h₂⟩
  · rcases Yields.both_iff.mp h₁ with ⟨h₃, -⟩ | ⟨mid, s', h₃, h₄⟩
    · exact .bothNone h₃
    · exact .bothSome h₃ (.bothNone h₄)
  · rcases Yields.both_iff.mp h₁ with ⟨-, hr⟩ | ⟨mid', s'', h₃, h₄⟩
    · cases hr
    · exact .bothSome h₃ (.bothSome h₄ h₂)

theorem refines_of_both_assoc (t u v : Term) :
    Refines g src (.both t (.both u v)) (.both (.both t u) v) := by
  intro d pos s r h
  rcases Yields.both_iff.mp h with ⟨h₁, rfl⟩ | ⟨mid, s', h₁, h₂⟩
  · exact .bothNone (.bothNone h₁)
  · rcases Yields.both_iff.mp h₂ with ⟨h₃, rfl⟩ | ⟨mid', s'', h₃, h₄⟩
    · exact .bothNone (.bothSome h₁ h₃)
    · exact .bothSome (.bothSome h₁ h₃) h₄

/-- A sequence of two parts may be run part after part. -/
theorem refines_all_append (ts us : List Term) :
    Refines g src (.all (ts ++ us)) (.both (.all ts) (.all us)) := by
  induction ts with
  | nil => exact refines_done_both _
  | cons t ts ih => exact ((Refines.refl t).both ih).trans (refines_of_both_assoc _ _ _)

/-- Two sequences, one after the other, make one sequence. -/
theorem refines_of_all_append (ts us : List Term) :
    Refines g src (.both (.all ts) (.all us)) (.all (ts ++ us)) := by
  induction ts with
  | nil => exact refines_of_done_both _
  | cons t ts ih => exact (refines_both_assoc _ _ _).trans ((Refines.refl t).both ih)

/-- Items may be replaced by sequences that refine them. -/
theorem refines_all_flatMap (items : List ExprId) (f : ExprId → List ExprId)
    (hf : ∀ e ∈ items, Refines g src (.node e) (.all ((f e).map .node))) :
    Refines g src (.all (items.map .node)) (.all ((items.flatMap f).map .node)) := by
  induction items with
  | nil => exact .refl _
  | cons item items ih =>
    rw [List.flatMap_cons, List.map_append]
    refine .trans ?_ (refines_of_all_append _ _)
    exact (hf item List.mem_cons_self).both (ih fun e he ↦ hf e (List.mem_cons_of_mem _ he))

/-! ### Choices -/

/-- A failure as the last alternative adds nothing. -/
theorem refines_either_fails (t : Term) : Refines g src t (.either t .fails) := by
  intro d pos s r h
  rcases r with - | x
  · exact .eitherNone h (Yields.fails_iff.mpr rfl)
  · exact .eitherSome h

theorem refines_of_either_fails (t : Term) : Refines g src (.either t .fails) t := by
  intro d pos s r h
  rcases Yields.either_iff.mp h with ⟨-, h₁⟩ | ⟨h₁, h₂⟩
  · exact h₁
  · rw [Yields.fails_iff.mp h₂]
    exact h₁

/-- Ordered choice is associative. -/
theorem refines_either_assoc (t u v : Term) :
    Refines g src (.either (.either t u) v) (.either t (.either u v)) := by
  intro d pos s r h
  rcases Yields.either_iff.mp h with ⟨hr, h₁⟩ | ⟨h₁, h₂⟩
  · rcases Yields.either_iff.mp h₁ with ⟨-, h₃⟩ | ⟨h₃, h₄⟩
    · exact Yields.either_iff.mpr (.inl ⟨hr, h₃⟩)
    · exact .eitherNone h₃ (Yields.either_iff.mpr (.inl ⟨hr, h₄⟩))
  · rcases Yields.either_iff.mp h₁ with ⟨hr, -⟩ | ⟨h₃, h₄⟩
    · cases hr
    · exact .eitherNone h₃ (.eitherNone h₄ h₂)

theorem refines_of_either_assoc (t u v : Term) :
    Refines g src (.either t (.either u v)) (.either (.either t u) v) := by
  intro d pos s r h
  rcases Yields.either_iff.mp h with ⟨hr, h₁⟩ | ⟨h₁, h₂⟩
  · obtain ⟨x, rfl⟩ := Option.isSome_iff_exists.mp hr
    exact .eitherSome (.eitherSome h₁)
  · rcases Yields.either_iff.mp h₂ with ⟨hr, h₃⟩ | ⟨h₃, h₄⟩
    · obtain ⟨x, rfl⟩ := Option.isSome_iff_exists.mp hr
      exact .eitherSome (.eitherNone h₁ h₃)
    · exact .eitherNone (.eitherNone h₁ h₃) h₄

/-- A byte of either set is a byte of the union. -/
theorem refines_union (a b : ByteSet) :
    Refines g src (.either (.consumes src a.contains) (.consumes src b.contains))
      (.consumes src (a.union b).contains) := by
  intro d pos s r h
  rw [Yields.either_iff, Yields.consumes_iff, Yields.consumes_iff, Yields.consumes_iff] at h
  rw [Yields.consumes_iff]
  generalize src.text[pos]? = byte at h ⊢
  rcases byte with - | c
  · rcases h with ⟨hr, rfl⟩ | ⟨-, h⟩
    · cases hr
    · exact h
  · simp only [Option.any_some, ByteSet.contains_union] at h ⊢
    cases ha : a.contains c
    · rcases h with ⟨hr, rfl⟩ | ⟨-, h⟩
      · simp [ha] at hr
      · simpa using h
    · rcases h with ⟨-, h⟩ | ⟨h, -⟩
      · simpa [ha] using h
      · simp [ha] at h

/-- A choice between two choices is a choice between all alternatives. -/
theorem refines_any_append (ts us : List Term) :
    Refines g src (.either (.any ts) (.any us)) (.any (ts ++ us)) := by
  induction ts with
  | nil =>
    intro d pos s r h
    rcases Yields.either_iff.mp h with ⟨hr, h₁⟩ | ⟨-, h₂⟩
    · rw [Yields.fails_iff.mp h₁] at hr
      cases hr
    · exact h₂
  | cons t ts ih => exact (refines_either_assoc _ _ _).trans ((Refines.refl t).either ih)

/-- The alternatives from some point on may be replaced. -/
theorem refines_any_tail (before : List Term) {ts us : List Term}
    (h : Refines g src (.any ts) (.any us)) :
    Refines g src (.any (before ++ ts)) (.any (before ++ us)) := by
  induction before with
  | nil => exact h
  | cons t before ih => exact (Refines.refl t).either ih

/-! ### Common beginnings -/

/-- A common beginning of two alternatives can be taken out. If what follows it in the first
alternative fails, the second alternative gets the same result from it again. -/
theorem refines_factored (p t u : Term) :
    Refines g src (.either (.both p t) (.both p u)) (.both p (.either t u)) := by
  intro d pos s r h
  rcases Yields.either_iff.mp h with ⟨hr, h₁⟩ | ⟨h₁, h₂⟩
  · rcases Yields.both_iff.mp h₁ with ⟨-, rfl⟩ | ⟨mid, s', h₃, h₄⟩
    · cases hr
    · exact .bothSome h₃ (Yields.either_iff.mpr (.inl ⟨hr, h₄⟩))
  · rcases Yields.both_iff.mp h₁ with ⟨h₃, -⟩ | ⟨mid, s', h₃, h₄⟩
    · rcases Yields.both_iff.mp h₂ with ⟨-, rfl⟩ | ⟨mid, s', h₅, -⟩
      · exact .bothNone h₃
      · cases h₃.unique h₅
    · rcases Yields.both_iff.mp h₂ with ⟨h₅, -⟩ | ⟨mid', s'', h₅, h₆⟩
      · cases h₃.unique h₅
      · cases h₃.unique h₅
        exact .bothSome h₃ (.eitherNone h₄ h₆)

end

/-! ### Terminals -/

/-- The test of a byte that a terminal makes. -/
def Operator.test? : Operator → Option (UInt8 → Bool)
  | anyByte => some fun _ ↦ true
  | op => op.byteSet?.map ByteSet.contains

/-- A terminal consumes a byte that passes its test. -/
theorem Operator.term_of_test? {op : Operator} {test : UInt8 → Bool} (h : op.test? = some test)
    (src : Resident) : op.term src = .consumes src test := by
  cases op with
  | anyByte =>
    cases h
    rfl
  | byte b =>
    cases h
    have htest : (ByteSet.singleton b).contains = (· == b) :=
      funext fun c ↦ ByteSet.contains_singleton b c
    rw [htest]
    rfl
  | byteClass set =>
    cases h
    rfl
  | _ => cases h

/-- The test of a byte class is membership. -/
theorem Operator.test?_of_byteSet? {op : Operator} {set : ByteSet} (h : op.byteSet? = some set) :
    op.test? = some set.contains := by
  cases op with
  | byte | byteClass =>
    cases h
    rfl
  | _ => cases h

/-- The test of a given byte is equality with it. -/
theorem Operator.test?_of_byte? {op : Operator} {b : UInt8} (h : op.byte? = some b) :
    op.test? = some (· == b) := by
  cases op with
  | byte c =>
    cases h
    exact congrArg some (funext (ByteSet.contains_singleton b))
  | _ => cases h

/-- Every terminal makes a test. -/
theorem Operator.test?_of_isTerminal {op : Operator} (h : op.isTerminal) :
    ∃ test, op.test? = some test := by
  cases op with
  | anyByte | byte | byteClass => exact ⟨_, rfl⟩
  | _ => cases h

theorem Operator.isTerminal_of_test? {op : Operator} {test : UInt8 → Bool}
    (h : op.test? = some test) : op.isTerminal := by
  cases op with
  | anyByte | byte | byteClass => rfl
  | _ => cases h

/-- A terminal consumes a byte that passes its test, and such a term may stand for it. -/
theorem refines_consumes {g : Grammar} {src : Resident} {e : ExprId} {test : UInt8 → Bool}
    (h : (g.op e).test? = some test) : Refines g src (.node e) (.consumes src test) := by
  rw [← Operator.term_of_test? h src]
  exact refines_of_node g src e

end ParsingMachine
