import ParsingMachine.Semantics.Walk

/-!
# Matching as a relation

An operator is a term over the nodes that are its operands. Terms have few forms (primitive tests,
sequencing, ordered choice, iteration, calls), so facts about matching are proved once for each form
and not once for each operator. The two-place forms are binary; a sequence or a choice of many
operands is a fold of them, and the empty one is the primitive that is done or that fails.

`Yields g src d t pos s r` says that the term `t` at position `pos` in the parse state `s` ends with
the result `r` and that at most `d` rules are entered inside one another on the way. A failure has
no parse state: what a walk leaves in it after a failure is looked at by nobody, and here it cannot
be. That a match goes on for ever is not a result; such a term yields nothing.

The number of nested rules is what the correctness of calls is proved by induction on. Nothing else
depends on it: more of it changes no result, and results are unique whatever it is. It is not the
depth of a walk, which counts operands too; that depth stays out of the relation so that a term may
be replaced by one whose operands are nested differently.

A repetition goes on as long as its operand succeeds and consumes. A round that consumes nothing is
its last one, and the parse state that this round leaves is kept (`loopStill`).

## Main statements

* `Yields.call_iff`, `Yields.both_iff`, `Yields.either_iff` and so on: the results by the form of
  the term, which is how all later modules take a match apart.
* `Yields.mono`: more levels change no result.
* `Yields.unique`: a term has at most one result, whatever the levels.
-/

namespace ParsingMachine

/-- How a match ends: at a position and in a parse state, or with a failure. -/
abbrev Match := Option (Nat × ParseState)

/-- How a parse ends that matches so. -/
def Match.outcome : Match → Outcome
  | some (stop, _) => .matched stop
  | none => .failed

/-- What an operator does with its operands. -/
inductive Term where
  /-- Matches a node. -/
  | node (e : ExprId)
  /-- Enters a rule. -/
  | call (rule : RuleId)
  /-- Looks at the input and the parse state only. -/
  | prim (f : Nat → ParseState → Match)
  /-- Changes the parse state, matches a term, and makes its own result of that, of the position and
  of the parse state at the beginning. -/
  | around (enter : ParseState → ParseState) (t : Term) (leave : Nat → ParseState → Match → Match)
  /-- One after the other. -/
  | both (t u : Term)
  /-- The first that succeeds. -/
  | either (t u : Term)
  /-- Matches a node as long as it succeeds and consumes. -/
  | loop (e : ExprId)

namespace Term

/-- Succeeds and changes nothing. -/
def done : Term :=
  prim fun pos s ↦ some (pos, s)

/-- Fails. -/
def fails : Term :=
  prim fun _ _ ↦ none

/-- Consumes a byte that passes a test. -/
def consumes (src : Resident) (test : UInt8 → Bool) : Term :=
  prim fun pos s ↦ if src.text[pos]?.any test then some (pos + 1, s) else none

/-- Terms one after the other. -/
def all (terms : List Term) : Term :=
  terms.foldr both done

/-- The first of several terms that succeeds. -/
def any (terms : List Term) : Term :=
  terms.foldr either fails

end Term

/-- What an operator does. -/
def Operator.term (src : Resident) : Operator → Term
  | empty | mark _ => .done
  | fail => .fails
  | anyByte => .consumes src fun _ ↦ true
  | byte b => .consumes src (· == b)
  | byteClass set => .consumes src set.contains
  | sequence items | construct items _ => .all (items.map .node)
  | choice alts => .any (alts.map .node)
  | star inner _ => .loop inner
  | plus inner _ => .both (.node inner) (.loop inner)
  | optional inner => .either (.node inner) .done
  | and inner => .around id (.node inner) fun pos _ r ↦ r.map fun (_, s) ↦ (pos, s)
  | not inner => .around id (.node inner) fun pos s r ↦ if r.isSome then none else some (pos, s)
  | reference rule => .call rule
  | link inner _ => .node inner
  | block inner =>
    .around ParseState.openScope (.node inner) fun _ _ r ↦ r.map fun (stop, s) ↦
      (stop, s.closeScope)
  | defSymbol table inner =>
    .around id (.node inner) fun pos _ r ↦
      r.map fun (stop, s) ↦ (stop, s.define table (src.subbytes pos stop))
  | isSymbol table inner lastOnly =>
    .around id (.node inner) fun pos _ r ↦
      r.filter fun (stop, s) ↦ s.isSymbol table (src.subbytes pos stop) lastOnly
  | defIndent => .prim fun pos s ↦ some (pos, s.pushIndent (Buffer.indent pos src).1)
  | isIndent => .prim fun pos s ↦
    if src.matchesAt pos s.lastIndent then some (pos + s.lastIndent.length, s) else none

/-- The results of terms. -/
inductive Yields (g : Grammar) (src : Resident) : Nat → Term → Nat → ParseState → Match → Prop
  | node {d e pos s r} (h : Yields g src d ((g.op e).term src) pos s r) :
    Yields g src d (.node e) pos s r
  | call {d rule body pos s r} (hbody : g.body? rule = some body)
    (h : Yields g src d (.node body) pos s r) : Yields g src (d + 1) (.call rule) pos s r
  | undefined {d rule pos s} (hbody : g.body? rule = none) : Yields g src d (.call rule) pos s none
  | prim {d f pos s} : Yields g src d (.prim f) pos s (f pos s)
  | around {d enter t leave pos s r} (h : Yields g src d t pos (enter s) r) :
    Yields g src d (.around enter t leave) pos s (leave pos s r)
  | bothNone {d t u pos s} (h : Yields g src d t pos s none) : Yields g src d (.both t u) pos s none
  | bothSome {d t u pos s mid s' r} (h : Yields g src d t pos s (some (mid, s')))
    (h' : Yields g src d u mid s' r) : Yields g src d (.both t u) pos s r
  | eitherSome {d t u pos s x} (h : Yields g src d t pos s (some x)) :
    Yields g src d (.either t u) pos s (some x)
  | eitherNone {d t u pos s r} (h : Yields g src d t pos s none) (h' : Yields g src d u pos s r) :
    Yields g src d (.either t u) pos s r
  | loopDone {d e pos s} (h : Yields g src d (.node e) pos s none) :
    Yields g src d (.loop e) pos s (some (pos, s))
  | loopStill {d e pos s s'} (h : Yields g src d (.node e) pos s (some (pos, s'))) :
    Yields g src d (.loop e) pos s (some (pos, s'))
  | loopStep {d e pos s mid s' r} (hmid : mid ≠ pos)
    (h : Yields g src d (.node e) pos s (some (mid, s'))) (h' : Yields g src d (.loop e) mid s' r) :
    Yields g src d (.loop e) pos s r

namespace Yields

variable {g : Grammar} {src : Resident} {d d' pos : Nat} {s : ParseState} {r r' : Match}

/-! ### Results by the form of the term -/

theorem node_iff {e : ExprId} :
    Yields g src d (.node e) pos s r ↔ Yields g src d ((g.op e).term src) pos s r := by
  constructor
  · intro h
    cases h with
    | node h => exact h
  · exact .node

/-- A rule is entered at the cost of one level. -/
theorem call_iff {rule : RuleId} :
    Yields g src d (.call rule) pos s r ↔
      (g.body? rule = none ∧ r = none) ∨
        ∃ body d', g.body? rule = some body ∧ d = d' + 1 ∧
          Yields g src d' (.node body) pos s r := by
  constructor
  · intro h
    cases h with
    | call hbody h => exact .inr ⟨_, _, hbody, rfl, h⟩
    | undefined hbody => exact .inl ⟨hbody, rfl⟩
  · rintro (⟨hbody, rfl⟩ | ⟨body, d', hbody, rfl, h⟩)
    · exact .undefined hbody
    · exact .call hbody h

theorem prim_iff {f : Nat → ParseState → Match} :
    Yields g src d (.prim f) pos s r ↔ r = f pos s := by
  constructor
  · intro h
    cases h
    rfl
  · rintro rfl
    exact .prim

/-- What surrounds a term makes its result of that of the term. -/
theorem around_iff {enter : ParseState → ParseState} {t : Term}
    {leave : Nat → ParseState → Match → Match} :
    Yields g src d (.around enter t leave) pos s r ↔
      ∃ x, Yields g src d t pos (enter s) x ∧ r = leave pos s x := by
  constructor
  · intro h
    cases h with
    | around h => exact ⟨_, h, rfl⟩
  · rintro ⟨x, h, rfl⟩
    exact .around h

/-- A sequence fails in its first part, or has the result of the second part where the first one
ends. -/
theorem both_iff {t u : Term} :
    Yields g src d (.both t u) pos s r ↔
      (Yields g src d t pos s none ∧ r = none) ∨
        ∃ mid s', Yields g src d t pos s (some (mid, s')) ∧ Yields g src d u mid s' r := by
  constructor
  · intro h
    cases h with
    | bothNone h => exact .inl ⟨h, rfl⟩
    | bothSome h h' => exact .inr ⟨_, _, h, h'⟩
  · rintro (⟨h, rfl⟩ | ⟨mid, s', h, h'⟩)
    · exact .bothNone h
    · exact .bothSome h h'

/-- A choice succeeds as its first part does, or has the result of the second part if the first
fails. -/
theorem either_iff {t u : Term} :
    Yields g src d (.either t u) pos s r ↔
      (r.isSome ∧ Yields g src d t pos s r) ∨
        (Yields g src d t pos s none ∧ Yields g src d u pos s r) := by
  constructor
  · intro h
    cases h with
    | eitherSome h => exact .inl ⟨rfl, h⟩
    | eitherNone h h' => exact .inr ⟨h, h'⟩
  · rintro (⟨hr, h⟩ | ⟨h, h'⟩)
    · obtain ⟨x, rfl⟩ := Option.isSome_iff_exists.mp hr
      exact .eitherSome h
    · exact .eitherNone h h'

theorem done_iff : Yields g src d .done pos s r ↔ r = some (pos, s) :=
  prim_iff

theorem fails_iff : Yields g src d .fails pos s r ↔ r = none :=
  prim_iff

/-- A test of the next byte consumes it or fails. -/
theorem consumes_iff {test : UInt8 → Bool} :
    Yields g src d (.consumes src test) pos s r ↔
      r = if src.text[pos]?.any test then some (pos + 1, s) else none :=
  prim_iff

/-! ### Levels and uniqueness -/

/-- More levels change no result. -/
theorem mono {t : Term} (h : Yields g src d t pos s r) (hd : d ≤ d') :
    Yields g src d' t pos s r := by
  induction h generalizing d' with
  | node _ ih => exact .node (ih hd)
  -- only calls spend levels
  | call hbody _ ih =>
    obtain ⟨k, rfl⟩ : ∃ k, d' = k + 1 := ⟨d' - 1, by omega⟩
    exact .call hbody (ih (by omega))
  | undefined hbody => exact .undefined hbody
  | prim => exact .prim
  | around _ ih => exact .around (ih hd)
  | bothNone _ ih => exact .bothNone (ih hd)
  | bothSome _ _ ih ih' => exact .bothSome (ih hd) (ih' hd)
  | eitherSome _ ih => exact .eitherSome (ih hd)
  | eitherNone _ _ ih ih' => exact .eitherNone (ih hd) (ih' hd)
  | loopDone _ ih => exact .loopDone (ih hd)
  | loopStill _ ih => exact .loopStill (ih hd)
  | loopStep hmid _ _ ih ih' => exact .loopStep hmid (ih hd) (ih' hd)

/-- A term has at most one result, whatever the levels. -/
theorem unique {t : Term} (h : Yields g src d t pos s r) (h' : Yields g src d' t pos s r') :
    r = r' := by
  induction h generalizing d' r' with
  | node _ ih =>
    cases h' with
    | node h' => exact ih h'
  | call hbody _ ih =>
    cases h' with
    | call hbody' h' =>
      rw [hbody] at hbody'
      cases hbody'
      exact ih h'
    | undefined hbody' =>
      rw [hbody] at hbody'
      cases hbody'
  | undefined hbody =>
    cases h' with
    | call hbody' _ =>
      rw [hbody] at hbody'
      cases hbody'
    | undefined _ => rfl
  | prim => exact (prim_iff.mp h').symm
  | around _ ih =>
    obtain ⟨x, hx, rfl⟩ := around_iff.mp h'
    rw [ih hx]
  | bothNone _ ih =>
    cases h' with
    | bothNone _ => rfl
    | bothSome h' _ => cases ih h'
  | bothSome _ _ ih₁ ih₂ =>
    cases h' with
    | bothNone h' => cases ih₁ h'
    | bothSome h' h'' =>
      cases ih₁ h'
      exact ih₂ h''
  | eitherSome _ ih =>
    cases h' with
    | eitherSome h' => exact ih h'
    | eitherNone h' _ => cases ih h'
  | eitherNone _ _ ih₁ ih₂ =>
    cases h' with
    | eitherSome h' => cases ih₁ h'
    | eitherNone _ h'' => exact ih₂ h''
  | loopDone _ ih =>
    cases h' with
    | loopDone _ => rfl
    | loopStill h' => cases ih h'
    | loopStep _ h' _ => cases ih h'
  | loopStill _ ih =>
    cases h' with
    | loopDone h' => cases ih h'
    | loopStill h' => exact ih h'
    | loopStep hmid h' _ =>
      cases ih h'
      exact absurd rfl hmid
  | loopStep hmid _ _ ih₁ ih₂ =>
    cases h' with
    | loopDone h' => cases ih₁ h'
    | loopStill h' =>
      cases ih₁ h'
      exact absurd rfl hmid
    | loopStep _ h' h'' =>
      cases ih₁ h'
      exact ih₂ h''

end Yields

end ParsingMachine
