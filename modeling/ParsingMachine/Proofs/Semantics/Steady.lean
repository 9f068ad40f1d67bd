import ParsingMachine.Proofs.Grammar.Reach

/-!
# How matching depends on the parse state

A match only adds symbols and recorded indentations to the parse state. What it adds and where it
stops depend on the symbols and the recorded indentation before, and on these only if the match
reaches a query of them.

Two parse states are compared by what queries can read of them (`ParseState.Alike`), and only if
they may be read at all: the flag `reads` covers both cases in one statement. Where they may not,
any two parse states are alike, and a match has the same gain in all of them.

Since a match only adds, its result in one parse state can be given apart from that state, as a
position and what is added (`Gain`). Steadiness is that one and the same gain is the result in all
parse states that are alike. In this form it passes through sequencing, as the additions of the
first part leave parse states alike, and through blocks, as closing a block drops just what was
added in it (`ParseState.closeScope_add_openScope`).

Which nodes take part is a set given by a property and closed under what is reached (`Blind`); the
terms of its nodes look at the parse state only as far as the flag says, operator by operator.

## Main statements

* `ParseState.closeScope_add_openScope`: closing a block drops the symbols that were added in it.
* `Grammar.Blind.steady_term`: operators that are no queries do not look at the parse state.
* `Yields.steady`: a match stops at the same position and adds the same in all parse states that are
  alike.
-/

namespace ParsingMachine

/-! ### Parse states that are alike -/

/-- The symbols and the recorded indentation are the same, if they are read. -/
def ParseState.Alike (reads : Bool) (s s' : ParseState) : Prop :=
  reads → s.symbols = s'.symbols ∧ s.indents = s'.indents

/-- What matching adds to a parse state: symbols and indentations, each newest first. -/
structure Additions where
  /-- The symbols. -/
  symbols : List (String × List UInt8) := []
  /-- The indentations. -/
  indents : List (List UInt8) := []

/-- One after the other. -/
def Additions.after (later earlier : Additions) : Additions where
  symbols := later.symbols ++ earlier.symbols
  indents := later.indents ++ earlier.indents

namespace ParseState

variable {reads : Bool} {s s' : ParseState}

/-- The parse state with additions. -/
def add (s : ParseState) (a : Additions) : ParseState :=
  { s with symbols := a.symbols ++ s.symbols, indents := a.indents ++ s.indents }

@[simp] theorem add_empty (s : ParseState) : s.add {} = s := rfl

/-- Additions are put together, the later ones first. -/
theorem add_add (s : ParseState) (a b : Additions) : (s.add a).add b = s.add (b.after a) := by
  simp [add, Additions.after]

/-- Additions that leave a parse state as it is are none. -/
theorem eq_empty_of_add_eq {a : Additions} (h : s.add a = s) : a = {} := by
  obtain ⟨symbols, indents⟩ := a
  have hsymbols := congrArg ParseState.symbols h
  have hindents := congrArg ParseState.indents h
  simp only [add, List.append_left_eq_self] at hsymbols hindents
  rw [hsymbols, hindents]

theorem Alike.refl (reads : Bool) (s : ParseState) : s.Alike reads s :=
  fun _ ↦ ⟨rfl, rfl⟩

/-- Parse states that are alike stay alike with the same additions. -/
theorem Alike.add (h : Alike reads s s') (a : Additions) : Alike reads (s.add a) (s'.add a) := by
  intro hreads
  obtain ⟨hsymbols, hindents⟩ := h hreads
  exact ⟨congrArg (a.symbols ++ ·) hsymbols, congrArg (a.indents ++ ·) hindents⟩

/-- Queries of symbols have the same answer in parse states that are alike. -/
theorem Alike.isSymbol_eq (h : Alike true s s') (table : String) (text : List UInt8)
    (lastOnly : Bool) : s'.isSymbol table text lastOnly = s.isSymbol table text lastOnly := by
  simp only [isSymbol, lastSymbol?, (h rfl).1]

/-- So have queries of the indentation. -/
theorem Alike.lastIndent_eq (h : Alike true s s') : s'.lastIndent = s.lastIndent := by
  simp only [lastIndent, (h rfl).2]

/-- Closing a block drops the symbols that were added in it. -/
theorem closeScope_add_openScope (s : ParseState) (a : Additions) :
    (s.openScope.add a).closeScope = s.add { indents := a.indents } := by
  simp [openScope, add, closeScope]

end ParseState

/-- Where a match stops and what it adds to the parse state. -/
abbrev Gain := Option (Nat × Additions)

/-- The result in a parse state. -/
def Gain.from (x : Gain) (s : ParseState) : Match :=
  x.map fun (stop, a) ↦ (stop, s.add a)

/-- The result of going on after additions. -/
theorem Gain.from_add (x : Gain) (s : ParseState) (a : Additions) :
    x.from (s.add a) = Gain.from (x.map fun (stop, b) ↦ (stop, b.after a)) s := by
  rcases x with - | ⟨stop, b⟩
  · rfl
  · simp [Gain.from, ParseState.add_add]

/-! ### Steady terms -/

/-- Of itself the term only adds to the parse state, and reads no more of it than the symbols and
the recorded indentation, if `reads`. Its nodes have a property. -/
def Term.Steady (g : Grammar) (reads : Bool) (P : ExprId → Prop) : Term → Prop
  | node e | loop e => P e
  | call rule => ∀ body, g.body? rule = some body → P body
  | prim f => ∀ pos s s', ParseState.Alike reads s s' →
      ∃ x : Gain, f pos s = x.from s ∧ f pos s' = x.from s'
  | around enter t leave => t.Steady g reads P ∧ ∀ s s', ParseState.Alike reads s s' →
      ParseState.Alike reads (enter s) (enter s') ∧ ∀ pos (x : Gain), ∃ y : Gain,
        leave pos s (x.from (enter s)) = y.from s ∧ leave pos s' (x.from (enter s')) = y.from s'
  | both t u | either t u => t.Steady g reads P ∧ u.Steady g reads P

section

variable {g : Grammar} {src : Resident} {reads : Bool} {P : ExprId → Prop}

theorem Term.steady_done : Term.done.Steady g reads P :=
  fun pos _ _ _ ↦ ⟨some (pos, {}), rfl, rfl⟩

theorem Term.steady_fails : Term.fails.Steady g reads P :=
  fun _ _ _ _ ↦ ⟨none, rfl, rfl⟩

/-- Tests of bytes do not look at the parse state. -/
theorem Term.steady_consumes (test : UInt8 → Bool) : (Term.consumes src test).Steady g reads P := by
  intro pos s s' _
  dsimp only
  split
  · exact ⟨some (pos + 1, {}), rfl, rfl⟩
  · exact ⟨none, rfl, rfl⟩

/-- A sequence does not look at the parse state of itself. -/
theorem Term.steady_all {items : List ExprId} (h : ∀ e ∈ items, P e) :
    (Term.all (items.map .node)).Steady g reads P := by
  induction items with
  | nil => exact steady_done
  | cons item items ih =>
    exact ⟨h item List.mem_cons_self, ih fun e he ↦ h e (List.mem_cons_of_mem _ he)⟩

/-- Neither does a choice. -/
theorem Term.steady_any {alts : List ExprId} (h : ∀ e ∈ alts, P e) :
    (Term.any (alts.map .node)).Steady g reads P := by
  induction alts with
  | nil => exact steady_fails
  | cons alt alts ih =>
    exact ⟨h alt List.mem_cons_self, ih fun e he ↦ h e (List.mem_cons_of_mem _ he)⟩

/-- The nodes are no queries of the parse state, unless `reads`, and what is reached from them is
among them. -/
structure Grammar.Blind (g : Grammar) (reads : Bool) (P : ExprId → Prop) : Prop where
  /-- No queries, unless they are allowed. -/
  isStateQuery_eq : reads = false → ∀ e, P e → (g.op e).isStateQuery = false
  /-- Nothing else is reached. -/
  closed : ∀ e, P e → ∀ x ∈ g.successors e, P x

/-- There are queries only where the parse state may be read. -/
theorem Grammar.Blind.reads_of_query (hb : g.Blind reads P) {e : ExprId} (he : P e)
    (hquery : (g.op e).isStateQuery) : reads = true := by
  cases reads with
  | true => rfl
  | false =>
    rw [hb.isStateQuery_eq rfl e he] at hquery
    cases hquery

/-- The terms of such nodes add to the parse state, and look at it only if they may. -/
theorem Grammar.Blind.steady_term (hb : g.Blind reads P) {e : ExprId} (he : P e) :
    ((g.op e).term src).Steady g reads P := by
  have hquery := hb.reads_of_query he
  have hclosed := hb.closed e he
  unfold Grammar.successors at hclosed
  cases hop : g.op e with rw [hop] at hquery hclosed
  | empty | mark _ => exact Term.steady_done
  | fail => exact Term.steady_fails
  | anyByte | byte _ | byteClass _ => exact Term.steady_consumes _
  | sequence items | construct items _ => exact Term.steady_all hclosed
  | choice alts => exact Term.steady_any hclosed
  | star inner _ | link inner _ => exact hclosed inner (List.mem_singleton_self _)
  | plus inner _ =>
    have hinner := hclosed inner (List.mem_singleton_self _)
    exact ⟨hinner, hinner⟩
  | optional inner => exact ⟨hclosed inner (List.mem_singleton_self _), Term.steady_done⟩
  | reference rule =>
    intro body hbody
    exact hclosed body (by simp [hbody])
  | and inner =>
    refine ⟨hclosed inner (List.mem_singleton_self _), fun s s' hs ↦ ⟨hs, fun pos x ↦ ?_⟩⟩
    refine ⟨x.map fun (_, a) ↦ (pos, a), ?_⟩
    rcases x with - | ⟨stop, a⟩ <;> exact ⟨rfl, rfl⟩
  | not inner =>
    refine ⟨hclosed inner (List.mem_singleton_self _), fun s s' hs ↦ ⟨hs, fun pos x ↦ ?_⟩⟩
    rcases x with - | ⟨stop, a⟩
    · exact ⟨some (pos, {}), rfl, rfl⟩
    · exact ⟨none, rfl, rfl⟩
  | block inner =>
    refine ⟨hclosed inner (List.mem_singleton_self _), fun s s' hs ↦ ⟨hs, fun pos x ↦ ?_⟩⟩
    refine ⟨x.map fun (stop, a) ↦ (stop, { indents := a.indents }), ?_⟩
    rcases x with - | ⟨stop, a⟩
    · exact ⟨rfl, rfl⟩
    · simp [Gain.from, ParseState.closeScope_add_openScope]
  | defSymbol table inner =>
    refine ⟨hclosed inner (List.mem_singleton_self _), fun s s' hs ↦ ⟨hs, fun pos x ↦ ?_⟩⟩
    refine ⟨x.map fun (stop, a) ↦
      (stop, { a with symbols := (table, src.subbytes pos stop) :: a.symbols }), ?_⟩
    rcases x with - | ⟨stop, a⟩ <;> exact ⟨rfl, rfl⟩
  | isSymbol table inner lastOnly =>
    refine ⟨hclosed inner (List.mem_singleton_self _), fun s s' hs ↦ ⟨hs, fun pos x ↦ ?_⟩⟩
    rw [hquery rfl] at hs
    refine ⟨x.filter fun (stop, a) ↦
      (s.add a).isSymbol table (src.subbytes pos stop) lastOnly, ?_⟩
    rcases x with - | ⟨stop, a⟩
    · exact ⟨rfl, rfl⟩
    · have heq := (hs.add a).isSymbol_eq table (src.subbytes pos stop) lastOnly
      cases hsym : (s.add a).isSymbol table (src.subbytes pos stop) lastOnly <;>
        simp [Gain.from, Option.filter, heq, hsym]
  | defIndent => exact fun pos _ _ _ ↦ ⟨some (pos, { indents := [_] }), rfl, rfl⟩
  | isIndent =>
    intro pos s s' hs
    rw [hquery rfl] at hs
    dsimp only
    rw [hs.lastIndent_eq]
    split
    · exact ⟨some (pos + s.lastIndent.length, {}), rfl, rfl⟩
    · exact ⟨none, rfl, rfl⟩

/-- A match stops at the same position and adds the same in all parse states that are alike. -/
theorem Yields.steady (hb : g.Blind reads P) {d pos : Nat} {s s' : ParseState} {t : Term}
    {r : Match} (ht : t.Steady g reads P) (hs : ParseState.Alike reads s s')
    (h : Yields g src d t pos s r) :
    ∃ x : Gain, r = x.from s ∧ Yields g src d t pos s' (x.from s') := by
  induction h generalizing s' with
  | node _ ih =>
    obtain ⟨x, hx, hx'⟩ := ih (hb.steady_term ht) hs
    exact ⟨x, hx, .node hx'⟩
  | call hbody _ ih =>
    obtain ⟨x, hx, hx'⟩ := ih (ht _ hbody) hs
    exact ⟨x, hx, .call hbody hx'⟩
  | undefined hbody => exact ⟨none, rfl, .undefined hbody⟩
  | prim =>
    obtain ⟨x, hx, hx'⟩ := ht _ _ _ hs
    exact ⟨x, hx, Yields.prim_iff.mpr hx'.symm⟩
  | @around d enter t leave pos s r _ ih =>
    obtain ⟨ht, henter⟩ := ht
    obtain ⟨halike, hleave⟩ := henter s s' hs
    obtain ⟨x, rfl, hx'⟩ := ih ht halike
    obtain ⟨y, hy, hy'⟩ := hleave pos x
    exact ⟨y, hy, Yields.around_iff.mpr ⟨_, hx', hy'.symm⟩⟩
  | bothNone _ ih =>
    obtain ⟨x, hx, hx'⟩ := ih ht.1 hs
    cases x with
    | none => exact ⟨none, rfl, .bothNone hx'⟩
    | some x => cases hx
  | bothSome _ _ ih ih' =>
    obtain ⟨x, hx, hx'⟩ := ih ht.1 hs
    rcases x with - | ⟨mid, a⟩
    · cases hx
    · cases hx
      -- what follows begins with the additions
      obtain ⟨y, rfl, hy'⟩ := ih' ht.2 (hs.add a)
      rw [Gain.from_add] at hy' ⊢
      exact ⟨_, rfl, .bothSome hx' hy'⟩
  | eitherSome _ ih =>
    obtain ⟨x, hx, hx'⟩ := ih ht.1 hs
    cases x with
    | none => cases hx
    | some x => exact ⟨some x, hx, .eitherSome hx'⟩
  | eitherNone _ _ ih ih' =>
    obtain ⟨x, hx, hx'⟩ := ih ht.1 hs
    obtain ⟨y, hy, hy'⟩ := ih' ht.2 hs
    cases x with
    | none => exact ⟨y, hy, .eitherNone hx' hy'⟩
    | some x => cases hx
  | @loopDone d e pos s _ ih =>
    obtain ⟨x, hx, hx'⟩ := ih ht hs
    cases x with
    | none => exact ⟨some (pos, {}), rfl, .loopDone hx'⟩
    | some x => cases hx
  | loopStill _ ih =>
    obtain ⟨x, hx, hx'⟩ := ih ht hs
    rcases x with - | ⟨mid, a⟩
    · cases hx
    · cases hx
      exact ⟨some (_, a), rfl, .loopStill hx'⟩
  | loopStep hmid _ _ ih ih' =>
    obtain ⟨x, hx, hx'⟩ := ih ht hs
    rcases x with - | ⟨mid, a⟩
    · cases hx
    · cases hx
      obtain ⟨y, rfl, hy'⟩ := ih' ht (hs.add a)
      rw [Gain.from_add] at hy' ⊢
      exact ⟨_, rfl, .loopStep hmid hx' hy'⟩

end

end ParsingMachine
