import Mathlib.Data.List.Basic
import ParsingMachine.Grammar.Simplify
import ParsingMachine.Proofs.Grammar.Reach

/-!
# Simplification is sound

What `simplify` answers for an expression may be encoded in its place (`Simplifies`): a terminal
that has every result of the expression, or a dispatch form, whose fast bytes the expression
consumes. A dispatch form does not have the results of the expression. It is a hint, of which no
more is said than that where a fast byte is next, the expression consumes just this byte (`Skips`).

This may be done in every grammar that agrees on the expression, so results that were recorded stay
right while nodes are added and rules are defined. It stops being so when a rule that takes part
gets another body, and that is why the condition is agreement on the expression and not extension of
the grammar.

The results recorded in a grammar are of this kind (`SoundSimplified`), simplification keeps it so,
and its answer is one. The proof for one node takes the results for others as given (`SimplifiesBy`)
and has one lemma for each shape that is looked for. The induction is over the depth. That a node
counts as its own result while it is being simplified is no gap in it, as a node may always stand
for itself.

The longest shape is a sequence of negations in front of any byte. While its negations are gone
through, it is known which bytes start one of their operands (`NegatedBy`): with no such byte next
all negations pass, and as long as no literal was met, each such byte makes one of them fail. With a
literal only the first of these two remains, and the dispatch form needs no more.

An expression that becomes another terminal does so for a reason that can be read off the grammar
(`Collapses`): from it only terminals are reached, through choices, sequences, negations and
references.

## Main statements

* `ensures_unionOf`: the union of the sets of alternatives is the set of their choice.
* `Lookahead.simplifies_dispatch`, `Lookahead.simplifies_class`: what negations in front of any byte
  become.
* `ensures_simplifyNode`: the answer for one node, given the answers for others.
* `ensures_simplify`: what simplification answers may be encoded in place of the expression.
-/

namespace ParsingMachine

/-! ### Byte strings in the input -/

theorem Resident.matchesAt_nil (src : Resident) (pos : Nat) :
    src.matchesAt pos [] = decide (pos ≤ src.text.size) := by
  simp [matchesAt, subbytes]

theorem Resident.matchesAt_cons (src : Resident) (pos : Nat) (b : UInt8) (bytes : List UInt8) :
    src.matchesAt pos (b :: bytes) =
      (src.text[pos]?.any (· == b) && src.matchesAt (pos + 1) bytes) := by
  by_cases hpos : pos < src.text.size
  · have hsub : src.subbytes pos (pos + (bytes.length + 1)) =
        src.text[pos] :: src.subbytes (pos + 1) (pos + 1 + bytes.length) := by
      have hlen : pos + (bytes.length + 1) - pos = bytes.length + 1 := by omega
      have hlen' : pos + 1 + bytes.length - (pos + 1) = bytes.length := by omega
      rw [subbytes, subbytes, Array.toList_extract, Array.toList_extract, List.extract_eq_take_drop,
        List.extract_eq_take_drop, hlen, hlen', List.drop_eq_getElem_cons (by simpa using hpos),
        List.take_succ_cons, Array.getElem_toList]
    have hle : pos + (bytes.length + 1) ≤ src.text.size ↔
        pos + 1 + bytes.length ≤ src.text.size := by
      omega
    rw [matchesAt, matchesAt, List.length_cons, hsub, Array.getElem?_eq_getElem hpos]
    simp only [hle, Option.any_some, List.cons_beq_cons]
    exact Bool.and_left_comm _ _ _
  · rw [matchesAt, Array.getElem?_eq_none (Nat.le_of_not_lt hpos), List.length_cons]
    have hle : ¬pos + (bytes.length + 1) ≤ src.text.size := by omega
    simp [hle]

namespace Grammar

variable {g h k : Grammar}

/-! ### What simplification may answer -/

/-- Only terminals are reached, through choices, sequences, negations and references. -/
inductive Collapses (g : Grammar) : ExprId → Prop
  | terminal {e : ExprId} (hop : (g.op e).isTerminal) : Collapses g e
  | choice {e : ExprId} {alts : List ExprId} (hop : g.op e = .choice alts)
    (halts : ∀ alt ∈ alts, Collapses g alt) : Collapses g e
  | sequence {e : ExprId} {items : List ExprId} (hop : g.op e = .sequence items)
    (hitems : ∀ item ∈ items, Collapses g item) : Collapses g e
  | not {e inner : ExprId} (hop : g.op e = .not inner) (hinner : Collapses g inner) : Collapses g e
  | reference {e : ExprId} {rule : RuleId} {body : ExprId} (hop : g.op e = .reference rule)
    (hbody : g.body? rule = some body) (hcollapses : Collapses g body) : Collapses g e

/-- When a byte of a set is next, exactly this byte is consumed. -/
def Skips (g : Grammar) (src : Resident) (e : ExprId) (fast : ByteSet) : Prop :=
  ∀ d pos s r b, src.text[pos]? = some b → fast.contains b → Yields g src d (.node e) pos s r →
    r = some (pos + 1, s)

/-- `other` may be encoded in place of `e`. -/
inductive Simplifies (g : Grammar) (e : ExprId) : ExprId → Prop
  | self : Simplifies g e e
  | terminal {other : ExprId} {test : UInt8 → Bool} (htest : (g.op other).test? = some test)
    (hcollapses : g.Collapses e)
    (hrefines : ∀ k, g.Agrees e k → ∀ src, Refines k src (.node e) (.consumes src test)) :
    Simplifies g e other
  | dispatch {other : ExprId} {fast : ByteSet} (hform : g.dispatchForm? other = some fast)
    (hskips : ∀ k, g.Agrees e k → ∀ src, k.Skips src e fast) : Simplifies g e other

/-- The recorded results are right. -/
def SoundSimplified (g : Grammar) : Prop :=
  ∀ e other, g.simplified? e = some other → other < g.size ∧ g.Simplifies e other

variable {e other : ExprId}

theorem mem_successors_of_not {item inner : ExprId} (hop : g.op item = .not inner) :
    inner ∈ g.successors item :=
  mem_successors_of_mem_children (by rw [hop]; exact List.mem_singleton_self inner)

/-- What collapses to terminals does so in a grammar that agrees on it. -/
theorem Collapses.agrees (he : g.Collapses e) (hgh : g.Agrees e h) : h.Collapses e := by
  induction he with
  | terminal hop =>
    refine .terminal ?_
    rwa [hgh.op_eq_of_ne fun hfail ↦ by rw [hfail] at hop; cases hop]
  | choice hop _ ih =>
    exact .choice ((hgh.op_eq_of_ne (by simp [hop])).trans hop) fun alt halt ↦
      ih alt halt (hgh.of_mem (mem_successors_of_mem_children (by rwa [hop])))
  | sequence hop _ ih =>
    exact .sequence ((hgh.op_eq_of_ne (by simp [hop])).trans hop) fun item hitem ↦
      ih item hitem (hgh.of_mem (mem_successors_of_mem_children (by rwa [hop])))
  | not hop _ ih =>
    exact .not ((hgh.op_eq_of_ne (by simp [hop])).trans hop)
      (ih (hgh.of_mem (mem_successors_of_not hop)))
  | reference hop hbody _ ih =>
    exact .reference ((hgh.op_eq_of_ne (by simp [hop])).trans hop) (hgh.body?_of_op hop hbody)
      (ih (hgh.of_mem (mem_successors_of_body? hop hbody)))

/-- A dispatch form is a choice of a byte class and any byte. -/
theorem dispatchForm?_eq_some {fast : ByteSet} (hform : g.dispatchForm? other = some fast) :
    ∃ set any, g.op other = .choice [set, any] ∧ g.op set = .byteClass fast ∧
      g.op any = .anyByte := by
  unfold dispatchForm? at hform
  split at hform
  · rename_i set any hother
    split at hform
    · rename_i fast' hset hany
      cases hform
      exact ⟨set, any, hother, hset, hany⟩
    · cases hform
  · cases hform

theorem literalBytes?_eq_some {bytes : List UInt8} (hbytes : g.literalBytes? e = some bytes) :
    ∃ items, g.op e = .sequence items ∧ items.mapM (fun item ↦ (g.op item).byte?) = some bytes := by
  unfold literalBytes? at hbytes
  split at hbytes
  · rename_i items hop
    split at hbytes
    · cases hbytes
    · exact ⟨items, hop, hbytes⟩
  · cases hbytes

/-- A literal is a sequence of two or more bytes. -/
theorem exists_bytes_of_literalBytes? {bytes : List UInt8}
    (hbytes : g.literalBytes? e = some bytes) :
    ∃ items, g.op e = .sequence items ∧ 2 ≤ items.length ∧
      ∀ item ∈ items, ∃ b, g.op item = .byte b := by
  obtain ⟨items, hop, hitems⟩ := literalBytes?_eq_some hbytes
  refine ⟨items, hop, ?_, ?_⟩
  · by_contra hlt
    simp [literalBytes?, hop, Nat.lt_of_not_le hlt] at hbytes
  · clear hop hbytes
    induction items generalizing bytes with
    | nil => exact fun _ h ↦ nomatch h
    | cons first items ih =>
      rw [List.mapM_cons] at hitems
      obtain ⟨b, hb, hitems⟩ := Option.bind_eq_some_iff.mp hitems
      obtain ⟨rest, hrest, -⟩ := Option.bind_eq_some_iff.mp hitems
      intro item hitem
      rcases List.mem_cons.mp hitem with rfl | hitem
      · refine ⟨b, ?_⟩
        generalize g.op item = op at hb
        cases op with
        | byte _ =>
          cases hb
          rfl
        | _ => cases hb
      · exact ih hrest item hitem

/-- Dispatch forms keep their class. -/
theorem Agrees.dispatchForm?_eq (hgh : g.Agrees e h) {fast : ByteSet}
    (hform : g.dispatchForm? other = some fast) : h.dispatchForm? other = some fast := by
  obtain ⟨set, any, hother, hset, hany⟩ := dispatchForm?_eq_some hform
  have h₁ := (hgh.op_eq_of_ne (by simp [hother])).trans hother
  have h₂ := (hgh.op_eq_of_ne (by simp [hset])).trans hset
  have h₃ := (hgh.op_eq_of_ne (by simp [hany])).trans hany
  simp only [dispatchForm?, h₁, h₂, h₃]

/-- What may stand for an expression may do so in a grammar that agrees on it. -/
theorem Simplifies.agrees (he : g.Simplifies e other) (hgh : g.Agrees e h) :
    h.Simplifies e other := by
  cases he with
  | self => exact .self
  | @terminal _ test htest hcollapses hrefines =>
    refine .terminal (?_ : _ = some test) (hcollapses.agrees hgh) fun k hk ↦
      hrefines k (hgh.trans hk)
    rwa [hgh.op_eq_of_ne fun hfail ↦ by rw [hfail] at htest; cases htest]
  | dispatch hform hskips =>
    exact .dispatch (hgh.dispatchForm?_eq hform) fun k hk ↦ hskips k (hgh.trans hk)

/-- A simplified form that is a terminal has every result of the expression. -/
theorem Simplifies.refines (he : g.Simplifies e other) {test : UInt8 → Bool}
    (htest : (g.op other).test? = some test) (hgk : g.Agrees e k) (src : Resident) :
    Refines k src (.node e) (.consumes src test) := by
  cases he with
  | self =>
    refine refines_consumes ?_
    rwa [hgk.op_eq_of_ne fun hfail ↦ by rw [hfail] at htest; cases htest]
  | terminal htest' _ hrefines =>
    rw [htest] at htest'
    cases htest'
    exact hrefines k hgk src
  | dispatch hform =>
    obtain ⟨set, any, hother, -⟩ := dispatchForm?_eq_some hform
    rw [hother] at htest
    cases htest

/-- Only an expression that collapses becomes a terminal. -/
theorem Simplifies.collapses (he : g.Simplifies e other) {test : UInt8 → Bool}
    (htest : (g.op other).test? = some test) : g.Collapses e := by
  cases he with
  | self => exact .terminal (Operator.isTerminal_of_test? htest)
  | terminal _ hcollapses => exact hcollapses
  | dispatch hform =>
    obtain ⟨set, any, hother, -⟩ := dispatchForm?_eq_some hform
    rw [hother] at htest
    cases htest

/-- A dispatch form tells where the expression consumes one byte. -/
theorem Simplifies.skips (he : g.Simplifies e other) (hne : other ≠ e) {fast : ByteSet}
    (hform : g.dispatchForm? other = some fast) (k : Grammar) (hgk : g.Agrees e k)
    (src : Resident) : k.Skips src e fast := by
  cases he with
  | self => exact absurd rfl hne
  | terminal htest =>
    obtain ⟨set, any, hother, -⟩ := dispatchForm?_eq_some hform
    rw [hother] at htest
    cases htest
  | dispatch hform' hskips =>
    rw [hform] at hform'
    cases hform'
    exact hskips k hgk src

/-- Only a literal is simplified to a literal. -/
theorem Simplifies.eq_of_literalBytes? (he : g.Simplifies e other) {bytes : List UInt8}
    (hbytes : g.literalBytes? other = some bytes) : other = e := by
  cases he with
  | self => rfl
  | terminal htest =>
    obtain ⟨items, hop, -⟩ := literalBytes?_eq_some hbytes
    rw [hop] at htest
    cases htest
  | dispatch hform =>
    obtain ⟨set, any, hother, -⟩ := dispatchForm?_eq_some hform
    simp [literalBytes?, hother] at hbytes

/-! ### One node -/

/-- What is left by a computation that records simpler nodes. -/
structure Records (g h : Grammar) : Prop extends g.Grows h where
  /-- The jump tables are the same. -/
  tables_eq : h.tables = g.tables
  /-- What is recorded is right. -/
  sound : h.SoundSimplified

namespace Records

theorem refl (hg : g.SoundSimplified) : g.Records g :=
  ⟨.refl g, rfl, hg⟩

/-- Records are made one after the other. -/
theorem trans (hgh : g.Records h) (hhk : h.Records k) : g.Records k :=
  ⟨hgh.toGrows.trans hhk.toGrows, hhk.tables_eq.trans hgh.tables_eq, hhk.sound⟩

end Records

/-- What is recorded stays right in a grammar that agrees on the expressions for which another node
was found. -/
theorem SoundSimplified.agrees (hg : g.SoundSimplified) (hsize : g.size ≤ h.size)
    (hsimplified : h.simplified = g.simplified)
    (hgh : ∀ e other, g.simplified? e = some other → other ≠ e → g.Agrees e h) :
    h.SoundSimplified := by
  intro e other hother
  rw [simplified?, hsimplified] at hother
  obtain ⟨hlt, hsimp⟩ := hg e other hother
  refine ⟨Nat.lt_of_lt_of_le hlt hsize, ?_⟩
  by_cases hself : other = e
  · rw [hself]
    exact .self
  · exact hsimp.agrees (hgh e other hother hself)

/-- What is recorded stays right in a larger grammar. -/
theorem SoundSimplified.extends (hg : g.SoundSimplified) (hgh : g.Extends h)
    (hsimplified : h.simplified = g.simplified) : h.SoundSimplified :=
  hg.agrees hgh.size_le hsimplified fun e _ _ _ ↦ hgh.agrees e

/-- Nodes may be made in between. -/
theorem SoundSimplified.appends (hg : g.SoundSimplified) (hgh : g.Appends h) : g.Records h :=
  ⟨hgh.toGrows, hgh.tables_eq, hg.extends hgh.toExtends hgh.simplified_eq⟩

/-- What is asked of the results for other nodes. -/
def SimplifiesBy (recur : ExprId → Builder ExprId) : Prop :=
  ∀ g : Grammar, g.WellFormed → g.SoundSimplified → ∀ e < g.size,
    Builder.Ensures (recur e) g fun other h ↦ g.Records h ∧ other < h.size ∧ h.Simplifies e other

section

variable {recur : ExprId → Builder ExprId} (hrecur : SimplifiesBy recur)

include hrecur in
/-- The union of the sets of alternatives is the set of their choice. -/
theorem ensures_unionOf (alts : List ExprId) (set : ByteSet) (hg : g.WellFormed)
    (hs : g.SoundSimplified) (halts : ∀ alt ∈ alts, alt < g.size) :
    Builder.Ensures (unionOf recur set alts) g fun result h ↦ g.Records h ∧
      ∀ union, result = some union → (∀ alt ∈ alts, h.Collapses alt) ∧
        ∀ k, (∀ alt ∈ alts, h.Agrees alt k) → ∀ src, Refines k src
          (.either (.consumes src set.contains) (.any (alts.map .node)))
          (.consumes src union.contains) := by
  induction alts generalizing g set with
  | nil =>
    refine ⟨.refl hs, fun union hunion ↦ ⟨fun _ h ↦ (nomatch h), fun k _ src ↦ ?_⟩⟩
    cases hunion
    exact refines_of_either_fails _
  | cons alt alts ih =>
    refine (hrecur g hg hs alt (halts alt List.mem_cons_self)).bind fun other h hrec ↦ ?_
    obtain ⟨hgh, hlt, hsimp⟩ := hrec
    refine Builder.Ensures.get ?_
    split
    · rename_i s hset
      -- the set found so far goes on, in the grammar that the alternative left
      have hrest := ih (set.union s) (hgh.wellFormed hg) hgh.sound fun alt halt ↦
        Nat.lt_of_lt_of_le (halts alt (List.mem_cons_of_mem _ halt)) hgh.size_le
      refine hrest.imp fun result k hk ↦ ⟨hgh.trans hk.1, fun union hunion ↦ ?_⟩
      obtain ⟨hcollapses, hrefines⟩ := hk.2 union hunion
      refine ⟨fun a ha ↦ ?_, fun m hm src ↦ ?_⟩
      · rcases List.mem_cons.mp ha with rfl | ha
        · exact (hsimp.collapses (Operator.test?_of_byteSet? hset)).agrees (hk.1.agrees a)
        · exact hcollapses a ha
      · have hhm := (hk.1.toExtends.agrees alt).trans (hm alt List.mem_cons_self)
        have halt : Refines m src (.node alt) (.consumes src s.contains) :=
          hsimp.refines (Operator.test?_of_byteSet? hset) hhm src
        have hrest := hrefines m (fun a ha ↦ hm a (List.mem_cons_of_mem _ ha)) src
        exact ((Refines.refl _).either (halt.either (.refl _))).trans
          (((refines_of_either_assoc _ _ _).trans ((refines_union set s).either (.refl _))).trans
            hrest)
    · refine ⟨hgh, fun union hunion ↦ ?_⟩
      cases hunion

end

/-! ### Negations before any byte -/

/-- The item consumes nothing when no byte of a set is next. -/
def Passes (g : Grammar) (src : Resident) (item : ExprId) (starts : ByteSet) : Prop :=
  ∀ d pos s r, (∀ b, src.text[pos]? = some b → starts.contains b = false) →
    Yields g src d (.node item) pos s r → r = some (pos, s)

/-- The item fails when a byte is next. -/
def Stops (g : Grammar) (src : Resident) (item : ExprId) (b : UInt8) : Prop :=
  ∀ d pos s r, src.text[pos]? = some b → Yields g src d (.node item) pos s r → r = none

/-- What is known of negations and the bytes that start their operands. -/
structure NegatedBy (g : Grammar) (nots : List ExprId) (starts starts' : ByteSet)
    (hasLiteral hasLiteral' : Bool) : Prop where
  /-- Nothing is lost. -/
  mono : ∀ b, starts.contains b → starts'.contains b
  /-- A literal is not forgotten. -/
  literal : hasLiteral → hasLiteral'
  /-- The items are negations. -/
  not : ∀ item ∈ nots, ∃ inner, g.op item = .not inner
  /-- Other bytes start none of the operands. -/
  passes : ∀ item ∈ nots, ∀ k, g.Agrees item k → ∀ src, k.Passes src item starts'
  /-- Without a literal every byte found here starts an operand. -/
  stops : hasLiteral' = false → ∀ b, starts'.contains b →
    starts.contains b ∨ ∃ item ∈ nots, ∀ k, g.Agrees item k → ∀ src, k.Stops src item b
  /-- Without a literal only terminals are reached. -/
  collapses : hasLiteral' = false → ∀ item ∈ nots, g.Collapses item

/-- A negation has the result of its operand turned round, at the same position. -/
theorem yields_not {src : Resident} {item inner : ExprId} {d pos : Nat} {s : ParseState} {r : Match}
    (hop : g.op item = .not inner) (hyields : Yields g src d (.node item) pos s r) :
    ∃ x, Yields g src d (.node inner) pos s x ∧ r = if x.isSome then none else some (pos, s) := by
  rw [Yields.node_iff, hop] at hyields
  exact Yields.around_iff.mp hyields

/-- A negation passes where its operand fails. -/
theorem passes_of_fails {src : Resident} {item inner : ExprId} {starts : ByteSet}
    (hop : g.op item = .not inner)
    (hfails : ∀ d pos s x, (∀ b, src.text[pos]? = some b → starts.contains b = false) →
      Yields g src d (.node inner) pos s x → x = none) : g.Passes src item starts := by
  intro d pos s r hnone hyields
  obtain ⟨x, hx, rfl⟩ := yields_not hop hyields
  rw [hfails d pos s x hnone hx]
  rfl

/-- Given bytes, one after the other, succeed exactly where they are next. -/
theorem isSome_of_bytes {src : Resident} (hgk : g.Agrees e k) (items : List ExprId)
    {bytes : List UInt8}
    (hbytes : items.mapM (fun item ↦ (g.op item).byte?) = some bytes) {d pos : Nat} {s : ParseState}
    {r : Match} (hpos : pos ≤ src.text.size ∨ items ≠ [])
    (hyields : Yields k src d (.all (items.map .node)) pos s r) :
    r.isSome = src.matchesAt pos bytes := by
  induction items generalizing bytes pos s with
  | nil =>
    rw [List.mapM_nil] at hbytes
    cases hbytes
    have hle := hpos.resolve_right fun hne ↦ hne rfl
    rw [Yields.done_iff.mp hyields, src.matchesAt_nil, decide_eq_true hle]
    rfl
  | cons item items ih =>
    rw [List.mapM_cons] at hbytes
    obtain ⟨b, hb, hbytes⟩ := Option.bind_eq_some_iff.mp hbytes
    obtain ⟨rest, hrest, hbytes⟩ := Option.bind_eq_some_iff.mp hbytes
    cases hbytes
    have htest : (k.op item).test? = some (· == b) := by
      rw [hgk.op_eq_of_ne (by rintro hfail; rw [hfail] at hb; cases hb)]
      exact Operator.test?_of_byte? hb
    have hitem {r : Match} (hr : Yields k src d (.node item) pos s r) :=
      Yields.consumes_iff.mp (refines_consumes htest d pos s r hr)
    rw [src.matchesAt_cons]
    rcases Yields.both_iff.mp hyields with ⟨h₁, rfl⟩ | ⟨mid, s', h₁, h₂⟩
    · have hnone := hitem h₁
      split at hnone
      · cases hnone
      · rename_i hb'
        rw [Bool.eq_false_iff.mpr hb']
        rfl
    · have hsome := hitem h₁
      split at hsome
      · rename_i hb'
        cases hsome
        obtain ⟨c, hc, -⟩ := (Option.any_eq_true _ _).mp hb'
        obtain ⟨hlt, -⟩ := Array.getElem?_eq_some_iff.mp hc
        rw [hb', ih hrest (.inl hlt) h₂]
        rfl
      · cases hsome

/-- A literal succeeds exactly where its bytes are next. -/
theorem isSome_of_literal {src : Resident} (hgk : g.Agrees e k) {bytes : List UInt8}
    (hbytes : g.literalBytes? e = some bytes) {d pos : Nat} {s : ParseState} {r : Match}
    (hyields : Yields k src d (.node e) pos s r) : r.isSome = src.matchesAt pos bytes := by
  obtain ⟨items, hop, hitems⟩ := literalBytes?_eq_some hbytes
  have hne : items ≠ [] := by
    rintro rfl
    simp [literalBytes?, hop] at hbytes
  rw [Yields.node_iff, hgk.op_eq_of_ne (by simp [hop]), hop] at hyields
  exact isSome_of_bytes hgk items hitems (.inr hne) hyields

/-- A literal fails unless its first byte is next. -/
theorem fails_of_literal {src : Resident} {inner : ExprId} {first : UInt8} {bytes : List UInt8}
    (hbytes : g.literalBytes? inner = some (first :: bytes)) (hgk : g.Agrees inner k) {d pos : Nat}
    {s : ParseState} {x : Match} (hnext : src.text[pos]? ≠ some first)
    (hyields : Yields k src d (.node inner) pos s x) : x = none := by
  have hfirst : src.text[pos]?.any (· == first) = false := by
    rcases hc : src.text[pos]? with - | c
    · rfl
    · rw [hc] at hnext
      simpa using hnext
  have hsome := isSome_of_literal hgk hbytes hyields
  rw [src.matchesAt_cons, hfirst, Bool.false_and] at hsome
  exact Option.isNone_iff_eq_none.mp (by simpa using hsome)

theorem Passes.mono {src : Resident} {item : ExprId} {starts starts' : ByteSet}
    (h : g.Passes src item starts) (hmono : ∀ b, starts.contains b → starts'.contains b) :
    g.Passes src item starts' := by
  refine fun d pos s r hnone ↦ h d pos s r fun b hb ↦ ?_
  have hb' := hnone b hb
  rw [Bool.eq_false_iff] at hb' ⊢
  exact fun hc ↦ hb' (hmono b hc)

/-- Another negation in front. -/
theorem NegatedBy.cons {item inner : ExprId} {items : List ExprId}
    {starts added starts' : ByteSet} {hasLiteral addedLiteral hasLiteral' : Bool}
    (hitems : g.NegatedBy items added starts' addedLiteral hasLiteral')
    (hop : g.op item = .not inner) (hmono : ∀ b, starts.contains b → added.contains b)
    (hliteral : hasLiteral → addedLiteral)
    (hpasses : ∀ k, g.Agrees item k → ∀ src, k.Passes src item added)
    (hstops : addedLiteral = false → g.Collapses inner ∧ ∀ b, added.contains b →
      starts.contains b ∨ ∀ k, g.Agrees item k → ∀ src, k.Stops src item b) :
    g.NegatedBy (item :: items) starts starts' hasLiteral hasLiteral' := by
  have hnone : hasLiteral' = false → addedLiteral = false := fun h ↦ by
    rw [Bool.eq_false_iff] at h ⊢
    exact fun ha ↦ h (hitems.literal ha)
  constructor
  · exact fun b hb ↦ hitems.mono b (hmono b hb)
  · exact fun h ↦ hitems.literal (hliteral h)
  · intro x hx
    rcases List.mem_cons.mp hx with rfl | hx
    · exact ⟨inner, hop⟩
    · exact hitems.not x hx
  · intro x hx k hk src
    rcases List.mem_cons.mp hx with rfl | hx
    · exact (hpasses k hk src).mono hitems.mono
    · exact hitems.passes x hx k hk src
  · intro h b hb
    rcases hitems.stops h b hb with hadded | ⟨x, hx, hstop⟩
    · rcases (hstops (hnone h)).2 b hadded with hstart | hstop
      · exact .inl hstart
      · exact .inr ⟨item, List.mem_cons_self, hstop⟩
    · exact .inr ⟨x, List.mem_cons_of_mem _ hx, hstop⟩
  · intro h x hx
    rcases List.mem_cons.mp hx with rfl | hx
    · exact .not hop (hstops (hnone h)).1
    · exact hitems.collapses h x hx

/-- The negation of a byte class in front. -/
theorem NegatedBy.cons_class {item inner : ExprId} {items : List ExprId}
    {set starts starts' : ByteSet} {hasLiteral hasLiteral' : Bool}
    (hitems : k.NegatedBy items (starts.union set) starts' hasLiteral hasLiteral')
    (hgk : g.Agrees item k) (hop : g.op item = .not inner) (hsimp : g.Simplifies inner other)
    (hset : (g.op other).byteSet? = some set) :
    k.NegatedBy (item :: items) starts starts' hasLiteral hasLiteral' := by
  have hop' (m : Grammar) (hm : k.Agrees item m) : m.op item = .not inner :=
    ((hgk.trans hm).op_eq_of_ne (by simp [hop])).trans hop
  have htest := Operator.test?_of_byteSet? hset
  have hmem := mem_successors_of_not hop
  have hinner (m : Grammar) (hm : k.Agrees item m) (src : Resident) {d pos s x}
      (hx : Yields m src d (.node inner) pos s x) :=
    Yields.consumes_iff.mp (hsimp.refines htest ((hgk.trans hm).of_mem hmem) src d pos s x hx)
  refine hitems.cons (hop' k (.refl k item)) (fun b hb ↦ by simp [hb]) (fun h ↦ h)
    (fun m hm src ↦ passes_of_fails (hop' m hm) fun d pos s x hnone hx ↦ ?_)
    fun _ ↦ ⟨(hsimp.collapses htest).agrees (hgk.of_mem hmem), fun b hb ↦ ?_⟩
  · rw [hinner m hm src hx, if_neg]
    rcases hnext : src.text[pos]? with - | b
    · simp
    · have hb := hnone b hnext
      simp only [ByteSet.contains_union, Bool.or_eq_false_iff] at hb
      simp [hb.2]
  · rw [ByteSet.contains_union, Bool.or_eq_true] at hb
    refine hb.imp_right fun hset m hm src d pos s r hnext hyields ↦ ?_
    obtain ⟨x, hx, rfl⟩ := yields_not (hop' m hm) hyields
    rw [hinner m hm src hx, if_pos (by simp [hnext, hset])]

/-- The negation of a literal in front. -/
theorem NegatedBy.cons_literal {item inner : ExprId} {items : List ExprId} {first : UInt8}
    {bytes : List UInt8} {starts starts' : ByteSet} {hasLiteral hasLiteral' : Bool}
    (hitems : k.NegatedBy items (starts.insert first) starts' true hasLiteral')
    (hgk : g.Agrees item k) (hop : g.op item = .not inner)
    (hbytes : g.literalBytes? inner = some (first :: bytes)) :
    k.NegatedBy (item :: items) starts starts' hasLiteral hasLiteral' := by
  have hop' (m : Grammar) (hm : k.Agrees item m) : m.op item = .not inner :=
    ((hgk.trans hm).op_eq_of_ne (by simp [hop])).trans hop
  have hmem := mem_successors_of_not hop
  refine hitems.cons (hop' k (.refl k item)) (fun b hb ↦ by simp [hb]) (fun _ ↦ rfl)
    (fun m hm src ↦ passes_of_fails (hop' m hm) fun d pos s x hnone hx ↦ ?_) fun h ↦ (nomatch h)
  refine fails_of_literal hbytes ((hgk.trans hm).of_mem hmem) (fun hnext ↦ ?_) hx
  have hfirst := hnone first hnext
  simp at hfirst

section

variable {recur : ExprId → Builder ExprId} (hrecur : SimplifiesBy recur)

include hrecur in
/-- What is gathered from a list of negations is what is known of them. -/
theorem ensures_negatedStarts (items : List ExprId) (starts : ByteSet) (hasLiteral : Bool)
    (hg : g.WellFormed) (hs : g.SoundSimplified) (hitems : ∀ item ∈ items, item < g.size) :
    Builder.Ensures (negatedStarts recur starts hasLiteral items) g fun result h ↦ g.Records h ∧
      ∀ starts' hasLiteral', result = some (starts', hasLiteral') →
        h.NegatedBy items starts starts' hasLiteral hasLiteral' := by
  induction items generalizing g starts hasLiteral with
  | nil =>
    refine ⟨.refl hs, fun starts' hasLiteral' heq ↦ ?_⟩
    cases heq
    exact ⟨fun _ h ↦ h, fun h ↦ h, fun _ h ↦ (nomatch h), fun _ h ↦ (nomatch h),
      fun _ _ h ↦ .inl h, fun _ _ h ↦ (nomatch h)⟩
  | cons item items ih =>
    refine Builder.Ensures.get ?_
    split
    · rename_i inner hop
      have hinner : inner < g.size :=
        Nat.lt_trans (hg.child_lt (by simp [hop, Operator.children]))
          (hitems item List.mem_cons_self)
      refine (hrecur g hg hs inner hinner).bind fun other h hrec ↦ ?_
      obtain ⟨hgh, hlt, hsimp⟩ := hrec
      have hop' : h.op item = .not inner := (hgh.op_eq_of_ne (by simp [hop])).trans hop
      have hitems' : ∀ item ∈ items, item < h.size := fun item hitem ↦
        Nat.lt_of_lt_of_le (hitems item (List.mem_cons_of_mem _ hitem)) hgh.size_le
      refine Builder.Ensures.get ?_
      split
      · rename_i set hset
        refine (ih (starts.union set) hasLiteral (hgh.wellFormed hg) hgh.sound hitems').imp ?_
        intro result k ⟨hhk, hnegated⟩
        exact ⟨hgh.trans hhk, fun starts' hasLiteral' heq ↦
          (hnegated starts' hasLiteral' heq).cons_class (hhk.agrees item) hop' hsimp hset⟩
      · rename_i first rest hset hbytes
        obtain rfl := hsimp.eq_of_literalBytes? hbytes
        refine (ih (starts.insert first) true (hgh.wellFormed hg) hgh.sound hitems').imp ?_
        intro result k ⟨hhk, hnegated⟩
        exact ⟨hgh.trans hhk, fun starts' hasLiteral' heq ↦
          (hnegated starts' hasLiteral' heq).cons_literal (hhk.agrees item) hop' hbytes⟩
      · refine ⟨hgh, fun starts' hasLiteral' heq ↦ ?_⟩
        cases heq
    · refine ⟨.refl hs, fun starts' hasLiteral' heq ↦ ?_⟩
      cases heq

end

section

variable {src : Resident} {nots : List ExprId} {d pos : Nat} {s : ParseState} {r : Match}

/-- Negations pass, one after the other, if each of them does. -/
theorem passes_all {starts : ByteSet} (hpasses : ∀ item ∈ nots, g.Passes src item starts)
    (hnone : ∀ b, src.text[pos]? = some b → starts.contains b = false)
    (hyields : Yields g src d (.all (nots.map .node)) pos s r) : r = some (pos, s) := by
  induction nots with
  | nil => exact Yields.done_iff.mp hyields
  | cons item nots ih =>
    have hitem := hpasses item List.mem_cons_self d pos s
    have hrest := ih fun x hx ↦ hpasses x (List.mem_cons_of_mem _ hx)
    rcases Yields.both_iff.mp hyields with ⟨h₁, -⟩ | ⟨mid, s', h₁, h₂⟩
    · cases hitem none hnone h₁
    · cases hitem _ hnone h₁
      exact hrest h₂

/-- Negations fail, one after the other, if one of them does. -/
theorem stops_all {item : ExprId} {b : UInt8}
    (hnots : ∀ item ∈ nots, ∃ inner, g.op item = .not inner)
    (hitem : item ∈ nots) (hstops : g.Stops src item b) (hnext : src.text[pos]? = some b)
    (hyields : Yields g src d (.all (nots.map .node)) pos s r) : r = none := by
  induction nots with
  | nil => cases hitem
  | cons x nots ih =>
    rcases Yields.both_iff.mp hyields with ⟨-, hr⟩ | ⟨mid, s', h₁, h₂⟩
    · exact hr
    · obtain ⟨inner, hop⟩ := hnots x List.mem_cons_self
      obtain ⟨y, -, hy⟩ := yields_not hop h₁
      rcases List.mem_cons.mp hitem with rfl | hitem
      · cases hstops d pos s _ hnext h₁
      · split at hy <;> cases hy
        exact ih (fun z hz ↦ hnots z (List.mem_cons_of_mem _ hz)) hitem h₂

end

/-- The byte after the negations. -/
theorem yields_sequence_append {src : Resident} {items nots : List ExprId} {last : ExprId}
    {d pos : Nat} {s : ParseState} {r : Match} (hop : g.op e = .sequence items)
    (hitems : nots ++ [last] = items) (hyields : Yields g src d (.node e) pos s r) :
    (Yields g src d (.all (nots.map .node)) pos s none ∧ r = none) ∨
      ∃ mid s', Yields g src d (.all (nots.map .node)) pos s (some (mid, s')) ∧
        Yields g src d (.node last) mid s' r := by
  rw [Yields.node_iff, hop, ← hitems] at hyields
  have hall : Refines g src (.all ((nots ++ [last]).map .node))
      (.both (.all (nots.map .node)) (.node last)) := by
    rw [List.map_append]
    exact (refines_all_append _ _).trans ((Refines.refl _).both (refines_of_both_done _))
  exact Yields.both_iff.mp (hall d pos s r hyields)

/-- Negations and any byte: bytes that start no negated operand are consumed. -/
theorem skips_lookahead {src : Resident} {items nots : List ExprId} {last : ExprId}
    {starts : ByteSet} (hop : g.op e = .sequence items) (hitems : nots ++ [last] = items)
    (hlast : Refines g src (.node last) (.consumes src fun _ ↦ true))
    (hpasses : ∀ item ∈ nots, g.Passes src item starts) : g.Skips src e starts.compl := by
  intro d pos s r b hnext hb hyields
  have hb' : starts.contains b = false := by simpa using hb
  have hnone : ∀ c, src.text[pos]? = some c → starts.contains c = false := fun c hc ↦ by
    rw [hnext] at hc
    cases hc
    exact hb'
  rcases yields_sequence_append hop hitems hyields with ⟨h₁, -⟩ | ⟨mid, s', h₁, h₂⟩
  · cases passes_all hpasses hnone h₁
  · cases passes_all hpasses hnone h₁
    have h₃ := Yields.consumes_iff.mp (hlast d pos s r h₂)
    simpa [hnext] using h₃

/-- Without literals the other bytes are refused. -/
theorem refines_lookahead {src : Resident} {items nots : List ExprId} {last : ExprId}
    {starts : ByteSet} (hop : g.op e = .sequence items) (hitems : nots ++ [last] = items)
    (hlast : Refines g src (.node last) (.consumes src fun _ ↦ true))
    (hnots : ∀ item ∈ nots, ∃ inner, g.op item = .not inner)
    (hpasses : ∀ item ∈ nots, g.Passes src item starts)
    (hstops : ∀ b, starts.contains b → ∃ item ∈ nots, g.Stops src item b) :
    Refines g src (.node e) (.consumes src starts.compl.contains) := by
  intro d pos s r hyields
  rw [Yields.consumes_iff]
  rcases hnext : src.text[pos]? with - | b
  · have hnone : ∀ c, src.text[pos]? = some c → starts.contains c = false := fun c hc ↦ by
      rw [hnext] at hc
      cases hc
    rcases yields_sequence_append hop hitems hyields with ⟨h₁, -⟩ | ⟨mid, s', h₁, h₂⟩
    · cases passes_all hpasses hnone h₁
    · cases passes_all hpasses hnone h₁
      have h₃ := Yields.consumes_iff.mp (hlast d pos s r h₂)
      simpa [hnext] using h₃
  · cases hb : starts.contains b
    · have hr := skips_lookahead hop hitems hlast hpasses d pos s r b hnext (by simp [hb]) hyields
      simpa [hb] using hr
    · obtain ⟨item, hitem, hstop⟩ := hstops b hb
      rcases yields_sequence_append hop hitems hyields with ⟨-, hr⟩ | ⟨mid, s', h₁, -⟩
      · simpa [hb] using hr
      · cases stops_all hnots hitem hstop hnext h₁

/-- A sequence of negations in front of any byte, with what is known of the negations. -/
structure Lookahead (g : Grammar) (e : ExprId) (nots : List ExprId) (last : ExprId)
    (starts : ByteSet) (hasLiteral : Bool) : Prop where
  /-- The items. -/
  op_eq : g.op e = .sequence (nots ++ [last])
  /-- The negations. -/
  negated : g.NegatedBy nots .empty starts false hasLiteral
  /-- The last item is a terminal. -/
  collapses : g.Collapses last
  /-- The last item consumes any byte. -/
  refines : ∀ k, g.Agrees last k → ∀ src, Refines k src (.node last) (.consumes src fun _ ↦ true)

namespace Lookahead

variable {nots : List ExprId} {last : ExprId} {starts : ByteSet} {hasLiteral : Bool}

theorem agrees_item (h : g.Lookahead e nots last starts hasLiteral) (hgk : g.Agrees e k)
    {item : ExprId} (hitem : item ∈ nots ++ [last]) : g.Agrees item k :=
  hgk.of_mem (mem_successors_of_mem_children (by rwa [h.op_eq]))

theorem agrees_not (h : g.Lookahead e nots last starts hasLiteral) (hgk : g.Agrees e k)
    {item : ExprId} (hitem : item ∈ nots) : g.Agrees item k :=
  h.agrees_item hgk (List.mem_append_left _ hitem)

theorem agrees_last (h : g.Lookahead e nots last starts hasLiteral) (hgk : g.Agrees e k) :
    g.Agrees last k :=
  h.agrees_item hgk (List.mem_append_right _ (List.mem_singleton_self last))

theorem op_eq_of_agrees (h : g.Lookahead e nots last starts hasLiteral) (hgk : g.Agrees e k) :
    k.op e = .sequence (nots ++ [last]) :=
  (hgk.op_eq_of_ne (by simp [h.op_eq])).trans h.op_eq

/-- A dispatch form on the bytes that start no operand may stand for it. -/
theorem simplifies_dispatch (h : g.Lookahead e nots last starts hasLiteral) (hgk : g.Extends k)
    (hform : k.dispatchForm? other = some starts.compl) : k.Simplifies e other := by
  refine .dispatch hform fun m hm src ↦ ?_
  have hgm := (hgk.agrees e).trans hm
  exact skips_lookahead (h.op_eq_of_agrees hgm) rfl (h.refines m (h.agrees_last hgm) src)
    fun item hitem ↦ h.negated.passes item hitem m (h.agrees_not hgm hitem) src

/-- Without literals, so may the class of these bytes. -/
theorem simplifies_class (h : g.Lookahead e nots last starts false) (hgk : g.Extends k)
    (hop : k.op other = .byteClass starts.compl) : k.Simplifies e other := by
  refine .terminal (by rw [hop]; rfl) ?_ fun m hm src ↦ ?_
  · refine Collapses.agrees (.sequence h.op_eq fun item hitem ↦ ?_) (hgk.agrees e)
    rw [List.mem_append, List.mem_singleton] at hitem
    rcases hitem with hitem | rfl
    · exact h.negated.collapses rfl item hitem
    · exact h.collapses
  · have hgm := (hgk.agrees e).trans hm
    refine refines_lookahead (h.op_eq_of_agrees hgm) rfl (h.refines m (h.agrees_last hgm) src)
      (fun item hitem ↦ ?_)
      (fun item hitem ↦ h.negated.passes item hitem m (h.agrees_not hgm hitem) src) fun b hb ↦ ?_
    · obtain ⟨inner, hinner⟩ := h.negated.not item hitem
      exact ⟨inner, (hgm.op_eq_of_ne (by simp [hinner])).trans hinner⟩
    · rcases h.negated.stops rfl b hb with hempty | ⟨item, hitem, hstop⟩
      · simp at hempty
      · exact ⟨item, hitem, hstop m (h.agrees_not hgm hitem) src⟩

end Lookahead

/-- A dispatch form for the bytes of a class. -/
theorem ensures_dispatchForm {set : ExprId} {fast : ByteSet} (hset : set < g.size)
    (hop : g.op set = .byteClass fast) (span : Span) :
    Builder.Ensures (do
      let any ← allocAt .anyByte span
      allocAt (.choice [set, any]) span) g fun other h ↦
        g.Appends h ∧ other < h.size ∧ h.dispatchForm? other = some fast := by
  refine (ensures_allocAt .anyByte span rfl fun _ h ↦ nomatch h).bind fun any h hany ↦ ?_
  obtain ⟨⟨hgh, hanylt, -⟩, hanyop⟩ := hany
  refine (ensures_allocAt (.choice [set, any]) span rfl fun x hx ↦ ?_).imp fun other k hother ↦ ?_
  · simp only [Operator.children, List.mem_cons, List.not_mem_nil, or_false] at hx
    rcases hx with rfl | rfl
    · exact Nat.lt_of_lt_of_le hset hgh.size_le
    · exact hanylt
  · obtain ⟨⟨hhk, hlt, -⟩, hotherop⟩ := hother
    have hset' : k.op set = .byteClass fast :=
      ((hgh.trans hhk).toExtends.op_eq_of_ne (by simp [hop])).trans hop
    have hany' : k.op any = .anyByte := (hhk.op_eq any hanylt).trans hanyop
    refine ⟨hgh.trans hhk, hlt, ?_⟩
    simp only [dispatchForm?, hotherop, hset', hany']

section

variable {recur : ExprId → Builder ExprId} (hrecur : SimplifiesBy recur)

include hrecur in
/-- A sequence of negations in front of any byte becomes a class or a dispatch form. -/
theorem ensures_negatedLookahead {items : List ExprId} (hg : g.WellFormed) (hs : g.SoundSimplified)
    (hop : g.op e = .sequence items) :
    Builder.Ensures (negatedLookahead recur e items) g fun result h ↦ g.Records h ∧
      ∀ other, result = some other → other < h.size ∧ h.Simplifies e other := by
  have hnothing : g.Records g ∧
      ∀ other, none = some other → other < g.size ∧ g.Simplifies e other :=
    ⟨.refl hs, fun _ h ↦ (nomatch h)⟩
  have hlt (item : ExprId) (hitem : item ∈ items) : item < g.size := by
    refine Nat.lt_trans (hg.child_lt ?_) (lt_size_of_op_ne (e := e) (by simp [hop]))
    rw [hop]
    exact hitem
  unfold negatedLookahead
  split
  · exact hnothing
  · rename_i last hlast
    have hitems := List.dropLast_append_getLast? last hlast
    dsimp only
    split
    · exact hnothing
    · refine (hrecur g hg hs last (hlt last (List.mem_of_getLast? hlast))).bind
        fun other h hrec ↦ ?_
      obtain ⟨hgh, hlt', hsimp⟩ := hrec
      refine Builder.Ensures.get ?_
      split
      · rename_i hany
        refine (ensures_negatedStarts hrecur items.dropLast .empty false
          (hgh.wellFormed hg) hgh.sound
          fun item hitem ↦ Nat.lt_of_lt_of_le (hlt item (List.dropLast_subset _ hitem))
            hgh.size_le).bind fun result k hk ↦ ?_
        obtain ⟨hhk, hnegated⟩ := hk
        have hgk := hgh.trans hhk
        split
        · exact ⟨hgk, fun _ h ↦ (nomatch h)⟩
        · rename_i starts hasLiteral
          have hany' : (h.op other).test? = some fun _ ↦ true := by rw [hany]; rfl
          have hlookahead : k.Lookahead e items.dropLast last starts hasLiteral :=
            { op_eq := by rw [hitems, hgk.toExtends.op_eq_of_ne (by simp [hop]), hop]
              negated := hnegated starts hasLiteral rfl
              collapses := (hsimp.collapses hany').agrees (hhk.agrees last)
              refines := fun m hm src ↦ hsimp.refines hany' ((hhk.agrees last).trans hm) src }
          refine Builder.Ensures.get ?_
          refine (ensures_allocAt (.byteClass starts.compl) (k.span e) rfl
            fun _ h ↦ nomatch h).bind fun set m hset ↦ ?_
          obtain ⟨⟨hkm, hsetlt, -⟩, hsetop⟩ := hset
          split
          · refine .map ((ensures_dispatchForm hsetlt hsetop (k.span e)).imp fun other n hn ↦ ?_)
            obtain ⟨hmn, hotherlt, hform⟩ := hn
            have hkn := hkm.trans hmn
            refine ⟨hgk.trans (hhk.sound.appends hkn), fun x hx ↦ ?_⟩
            cases hx
            exact ⟨hotherlt, hlookahead.simplifies_dispatch hkn.toExtends hform⟩
          · rename_i hliteral
            obtain rfl : hasLiteral = false := by simpa using hliteral
            refine Builder.Ensures.pure ⟨hgk.trans (hhk.sound.appends hkm), fun x hx ↦ ?_⟩
            cases hx
            exact ⟨hsetlt, hlookahead.simplifies_class hkm.toExtends hsetop⟩
      · exact ⟨hgh, fun _ h ↦ (nomatch h)⟩

include hrecur in
/-- Another expression, when it becomes a terminal, gives its simplified form to one that refines
it. -/
theorem ensures_terminalOr {x : ExprId} (hg : g.WellFormed) (hs : g.SoundSimplified)
    (he : e < g.size) (hx : x < g.size) (hmem : x ∈ g.successors e)
    (hcollapses : ∀ k, g.Agrees e k → k.Collapses x → k.Collapses e)
    (hrefines : ∀ k, g.Agrees e k → ∀ src, Refines k src (.node e) (.node x)) :
    Builder.Ensures (terminalOr recur e x) g fun other h ↦
      g.Records h ∧ other < h.size ∧ h.Simplifies e other := by
  refine (hrecur g hg hs x hx).bind fun other h hrec ↦ ?_
  obtain ⟨hgh, hlt, hsimp⟩ := hrec
  refine Builder.Ensures.get ?_
  split
  · rename_i hterminal
    obtain ⟨test, htest⟩ := Operator.test?_of_isTerminal hterminal
    refine ⟨hgh, hlt, .terminal htest ?_ fun k hk src ↦ ?_⟩
    · exact hcollapses h (hgh.agrees e) (hsimp.collapses htest)
    · have hhx := hk.of_mem ((hgh.agrees e).mem_successors hmem)
      exact (hrefines k ((hgh.agrees e).trans hk) src).trans (hsimp.refines htest hhx src)
  · exact ⟨hgh, Nat.lt_of_lt_of_le he hgh.size_le, .self⟩

include hrecur in
/-- What is answered for a node may stand for it, given such answers for others. -/
theorem ensures_simplifyNode (hg : g.WellFormed) (hs : g.SoundSimplified) (he : e < g.size) :
    Builder.Ensures (simplifyNode recur e) g fun other h ↦
      g.Records h ∧ other < h.size ∧ h.Simplifies e other := by
  have hself : g.Records g ∧ e < g.size ∧ g.Simplifies e e := ⟨.refl hs, he, .self⟩
  unfold simplifyNode
  refine Builder.Ensures.get ?_
  have hkeep (k : Grammar) (hk : g.Agrees e k) : k.op e = g.op e := hk.op_eq e he
  split
  · rename_i alts hop
    have halts (alt : ExprId) (halt : alt ∈ alts) : alt < g.size :=
      Nat.lt_trans (hg.child_lt (by rw [hop]; exact halt)) he
    refine (ensures_unionOf hrecur alts .empty hg hs halts).bind fun result h hunion ↦ ?_
    obtain ⟨hgh, hunion⟩ := hunion
    split
    · rename_i union
      obtain ⟨hcollapses, hrefines⟩ := hunion union rfl
      refine Builder.Ensures.get ((ensures_allocAt (.byteClass union) (h.span e) rfl
        fun _ h ↦ nomatch h).imp fun other k hk ↦ ?_)
      obtain ⟨⟨hhk, hlt, -⟩, hop'⟩ := hk
      have hgk := hgh.trans (hgh.sound.appends hhk)
      refine ⟨hgk, hlt, .terminal (?_ : _ = some union.contains) ?_ fun m hm src ↦ ?_⟩
      · rw [hop']
        rfl
      · exact .choice ((hkeep k (hgk.agrees e)).trans hop) fun alt halt ↦
          (hcollapses alt halt).agrees (hhk.agrees alt)
      · -- the union over all alternatives began with the empty set
        have hempty : Refines m src (.any (alts.map .node))
            (.either (.consumes src ByteSet.empty.contains) (.any (alts.map .node))) := by
          intro d pos s r hyields
          refine .eitherNone (Yields.consumes_iff.mpr ?_) hyields
          rcases src.text[pos]? <;> simp
        have hnode := refines_of_node m src e
        rw [hkeep m ((hgk.agrees e).trans hm), hop] at hnode
        refine hnode.trans (hempty.trans (hrefines m (fun alt halt ↦ ?_) src))
        have hmem : alt ∈ (k.op e).children := by rwa [hkeep k (hgk.agrees e), hop]
        exact (hhk.agrees alt).trans (hm.of_mem (mem_successors_of_mem_children hmem))
    · exact ⟨hgh, Nat.lt_of_lt_of_le he hgh.size_le, .self⟩
  · rename_i only hop
    have hmem : only ∈ (g.op e).children := by rw [hop]; exact List.mem_singleton_self only
    refine ensures_terminalOr hrecur hg hs he (Nat.lt_trans (hg.child_lt hmem) he)
      (mem_successors_of_mem_children hmem) ?_ ?_
    · intro k hk hcollapses
      refine .sequence ((hkeep k hk).trans hop) fun item hitem ↦ ?_
      rw [List.mem_singleton.mp hitem]
      exact hcollapses
    · intro k hk src
      have hnode := refines_of_node k src e
      rw [hkeep k hk, hop] at hnode
      exact hnode.trans (refines_of_both_done _)
  · rename_i items _ hop
    refine (ensures_negatedLookahead hrecur hg hs hop).bind fun result h hresult ↦ ?_
    obtain ⟨hgh, hresult⟩ := hresult
    rcases result with - | other
    · exact ⟨hgh, Nat.lt_of_lt_of_le he hgh.size_le, .self⟩
    · exact ⟨hgh, hresult other rfl⟩
  · rename_i rule hop
    refine Builder.Ensures.get ?_
    split
    · rename_i body hbody
      refine ensures_terminalOr hrecur hg hs he (hg.body_lt rule body hbody)
        (mem_successors_of_body? hop hbody) ?_ ?_
      · intro k hk hcollapses
        exact .reference ((hkeep k hk).trans hop) (hk.body?_of_op hop hbody) hcollapses
      · intro k hk src
        have hnode := refines_of_node k src e
        rw [hkeep k hk, hop] at hnode
        exact hnode.trans (refines_body (hk.body?_of_op hop hbody))
    · exact hself
  · exact hself

end

/-! ### The recorded result -/

/-- A result that may stand for its node may be recorded. -/
theorem SoundSimplified.setSimplified (hs : g.SoundSimplified) (hother : other < g.size)
    (hsimp : g.Simplifies e other) : g.Records (g.setSimplified e other) := by
  have hext : g.Extends (g.setSimplified e other) := .of_eq rfl rfl
  refine ⟨⟨hext, (Grows.refl g).isGlue, (Grows.refl g).child_lt, rfl⟩, rfl, fun x y hxy ↦ ?_⟩
  rw [simplified?_setSimplified] at hxy
  split at hxy
  · rename_i heq
    cases hxy
    rw [heq]
    exact ⟨hother, hsimp.agrees (hext.agrees e)⟩
  · obtain ⟨hlt, hsimp'⟩ := hs x y hxy
    exact ⟨hlt, hsimp'.agrees (hext.agrees x)⟩

/-- The recursion gives right answers at every depth. -/
theorem simplifiesBy_simplifyWithin (n : Nat) : SimplifiesBy (simplifyWithin n) := by
  induction n with
  | zero => exact fun g _ hs e he ↦ ⟨.refl hs, he, .self⟩
  | succ n ih =>
    intro g hg hs e he
    refine Builder.Ensures.get ?_
    split
    · rename_i other hother
      exact ⟨.refl hs, hs e other hother⟩
    · have hmark := hs.setSimplified he .self
      refine Builder.Ensures.bind (P := fun _ h ↦ h = g.setSimplified e e) rfl fun _ h hh ↦ ?_
      subst hh
      refine (ensures_simplifyNode ih (hmark.wellFormed hg) hmark.sound he).bind
        fun other k hk ↦ ?_
      obtain ⟨hgk, hlt, hsimp⟩ := hk
      have hset := hgk.sound.setSimplified hlt hsimp
      exact ⟨(hmark.trans hgk).trans hset, hlt, hsimp.agrees (hset.agrees e)⟩

/-- What simplification answers may be encoded in place of the expression. -/
theorem ensures_simplify (hg : g.WellFormed) (hs : g.SoundSimplified) (he : e < g.size) :
    Builder.Ensures (simplify e) g fun other h ↦
      g.Records h ∧ other < h.size ∧ h.Simplifies e other :=
  simplifiesBy_simplifyWithin (g.size + 1) g hg hs e he

end Grammar

end ParsingMachine
