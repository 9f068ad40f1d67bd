import Mathlib.Data.Set.Basic
import ParsingMachine.Proofs.Grammar.Canonical
import ParsingMachine.Proofs.Semantics.Adequacy
import ParsingMachine.Proofs.Semantics.Settled

/-!
# Simplification keeps the meaning of expressions

What `simplify` answers for an expression means the same as the expression, unless it is a dispatch
form. Meaning the same is taken to the letter: walks from both end alike, in the same parse state
also after a failure (`Grammar.walks`), and where walks from one of them do not end, neither do
those from the other. This is more than that one may be encoded in place of the other, which allows
a result where the expression has none.

The other direction comes from where simplification looks. An expression that becomes a terminal
collapses: only terminals are reached from it. So it has a result everywhere, walks from it leave
the parse state alone, and there is exactly one way in which they can end (`Collapses.walks_eq`);
that the terminal has this result is known already.

A dispatch form is answered for a sequence of negations in front of any byte only. Such a sequence
consumes exactly one byte when one of the fast bytes is next, and fails at the end of the input
(`Dispatches`). No other expression is simplified to a dispatch form, or to something made of one.

This holds of every record that simplification made under the bodies that the rules have now,
whatever was simplified, in whatever order (`Grammar.Filled`). A record that was made under other
bodies is excluded, as the meaning of a reference is that of the body it has now. That such a record
is right follows from what simplification finds without any record.

## Main statements

* `Extends.eval_eq`: old nodes are walked in a larger grammar as they were.
* `Collapses.walks_eq`: where only terminals are reached there is one end.
* `Filled.canonical`: the record of a filled grammar is right.
* `Filled.dispatches`: a dispatch form is found for a sequence that dispatches.
* `walks_simplify`: simplification keeps the meaning of an expression.
-/

namespace ParsingMachine

/-! ### Walks of old nodes -/

namespace Walk

variable {recur recur' : ExprId → Nat → Walk (Option Nat)}

theorem inSequence_congr {items : List ExprId} (h : ∀ x ∈ items, recur x = recur' x) :
    inSequence recur items = inSequence recur' items := by
  induction items with
  | nil => rfl
  | cons item items ih =>
    funext pos
    rw [inSequence, inSequence, h item List.mem_cons_self,
      ih fun x hx ↦ h x (List.mem_cons_of_mem _ hx)]

theorem inChoice_congr {alts : List ExprId} (h : ∀ x ∈ alts, recur x = recur' x) :
    inChoice recur alts = inChoice recur' alts := by
  induction alts with
  | nil => rfl
  | cons alt alts ih =>
    funext pos
    rw [inChoice, inChoice, h alt List.mem_cons_self,
      ih fun x hx ↦ h x (List.mem_cons_of_mem _ hx)]

theorem repeated_congr {inner : ExprId} (h : recur inner = recur' inner) :
    repeated recur inner = repeated recur' inner := by
  funext rounds
  induction rounds with
  | zero => rfl
  | succ rounds ih =>
    funext pos
    rw [repeated, repeated, h, ih]

end Walk

namespace Grammar

variable {g h k : Grammar} {src : Resident} {e other : ExprId}

/-- What an operator does depends on its operands and on the body it refers to. -/
theorem evalOp_congr {recur recur' : ExprId → Nat → Walk (Option Nat)} (rounds : Nat)
    {op : Operator} (hbody : ∀ rule, h.body? rule = g.body? rule)
    (hchild : ∀ x ∈ op.children, recur x = recur' x)
    (hrule : ∀ rule body, g.body? rule = some body → recur body = recur' body) :
    h.evalOp src rounds recur op = g.evalOp src rounds recur' op := by
  funext pos
  cases op with
  | sequence items | construct items _ => exact congrFun (Walk.inSequence_congr hchild) pos
  | choice alts => exact congrFun (Walk.inChoice_congr hchild) pos
  | star inner _ =>
    simp only [evalOp, Walk.repeated_congr (hchild inner (List.mem_singleton_self inner))]
  | plus inner _ =>
    have hinner := hchild inner (List.mem_singleton_self inner)
    simp only [evalOp, hinner, Walk.repeated_congr hinner]
  | optional inner | and inner | not inner | link inner _ | block inner | defSymbol _ inner
  | isSymbol _ inner _ =>
    simp only [evalOp, hchild inner (List.mem_singleton_self inner)]
  | reference rule =>
    simp only [evalOp, hbody]
    rcases hsome : g.body? rule with - | body
    · rfl
    · simp only [hrule rule body hsome]
  | empty | fail | anyByte | byte _ | byteClass _ | mark _ | defIndent | isIndent => rfl

/-- Old nodes are walked in a larger grammar as they were. -/
theorem Extends.eval_eq (hgh : g.Extends h) (hg : g.WellFormed) (he : e < g.size) (depth : Nat) :
    h.eval src depth e = g.eval src depth e := by
  induction depth generalizing e with
  | zero => rfl
  | succ depth ih =>
    have hop : h.evalOp src depth (h.eval src depth) (g.op e) =
        g.evalOp src depth (g.eval src depth) (g.op e) :=
      evalOp_congr depth hgh.body?_eq (fun x hx ↦ ih (Nat.lt_trans (hg.child_lt hx) he))
        fun rule body hbody ↦ ih (hg.body_lt rule body hbody)
    funext pos
    rw [eval, eval, hgh.op_eq e he, hop]

/-- How walks from a node at a position in a parse state can end: where, if they succeed, and in
which parse state. -/
def walks (g : Grammar) (src : Resident) (e : ExprId) (pos : Nat) (s : ParseState) :
    Set (Option Nat × ParseState) :=
  {x | ∃ depth steps left, g.eval src depth e pos { parse := s, steps } =
    some (x.1, { parse := x.2, steps := left })}

/-- Walks from old nodes end in a larger grammar as they did. -/
theorem Extends.walks_eq (hgh : g.Extends h) (hg : g.WellFormed) (he : e < g.size) (pos : Nat)
    (s : ParseState) : h.walks src e pos s = g.walks src e pos s := by
  simp only [walks, hgh.eval_eq hg he]

/-! ### Walks through terminals -/

/-- Walking a node leaves the parse state as it was. -/
def LeavesParse (g : Grammar) (src : Resident) (e : ExprId) : Prop :=
  ∀ depth pos st q st', g.eval src depth e pos st = some (q, st') → st'.parse = st.parse

/-- Items that leave the parse state leave it one after the other. -/
theorem parse_eq_of_inSequence {depth : Nat} {items : List ExprId}
    (hitems : ∀ x ∈ items, g.LeavesParse src x) {pos : Nat} {st st' : WalkState} {q : Option Nat}
    (h : Walk.inSequence (g.eval src depth) items pos st = some (q, st')) :
    st'.parse = st.parse := by
  induction items generalizing pos st with
  | nil =>
    cases h
    rfl
  | cons item items ih =>
    obtain ⟨⟨r, st₁⟩, hitem, hrest⟩ := Option.bind_eq_some_iff.mp h
    have hparse := hitems item List.mem_cons_self depth pos st r st₁ hitem
    rcases r with - | next
    · cases hrest
      exact hparse
    · exact (ih (fun x hx ↦ hitems x (List.mem_cons_of_mem _ hx)) hrest).trans hparse

/-- So do alternatives. -/
theorem parse_eq_of_inChoice {depth : Nat} {alts : List ExprId}
    (halts : ∀ x ∈ alts, g.LeavesParse src x) {pos : Nat} {st st' : WalkState} {q : Option Nat}
    (h : Walk.inChoice (g.eval src depth) alts pos st = some (q, st')) :
    st'.parse = st.parse := by
  induction alts generalizing pos st with
  | nil =>
    cases h
    rfl
  | cons alt alts ih =>
    obtain ⟨⟨r, st₁⟩, halt, hrest⟩ := Option.bind_eq_some_iff.mp h
    rcases r with - | next
    · -- the parse state is put back before the next alternative
      have hnext : Walk.inChoice (g.eval src depth) alts pos { st₁ with parse := st.parse } =
        some (q, st') := hrest
      have hparse := ih (fun x hx ↦ halts x (List.mem_cons_of_mem _ hx)) hnext
      exact hparse
    · cases hrest
      exact halts alt List.mem_cons_self depth pos st _ _ halt

/-- Where only terminals are reached, the parse state stays as it is. -/
theorem Collapses.leavesParse (he : g.Collapses e) (src : Resident) : g.LeavesParse src e := by
  have hstep {e : ExprId} (hop : ∀ depth pos st q st',
      g.evalOp src depth (g.eval src depth) (g.op e) pos st = some (q, st') →
        st'.parse = st.parse) : g.LeavesParse src e := by
    intro depth pos st q st' heval
    cases depth with
    | zero => cases heval
    | succ depth =>
      obtain ⟨⟨_, st₁⟩, hspend, heval⟩ := Option.bind_eq_some_iff.mp heval
      rw [hop depth pos st₁ q st' heval]
      unfold Walk.spend at hspend
      split at hspend
      · cases hspend
      · cases hspend
        rfl
  induction he with
  | terminal hop =>
    refine hstep fun depth pos st q st' heval ↦ ?_
    generalize g.op _ = op at hop heval
    cases op with
    | anyByte | byte _ | byteClass _ =>
      cases heval
      rfl
    | _ => cases hop
  | choice hop _ ih =>
    refine hstep fun depth pos st q st' heval ↦ ?_
    rw [hop] at heval
    exact parse_eq_of_inChoice ih heval
  | sequence hop _ ih =>
    refine hstep fun depth pos st q st' heval ↦ ?_
    rw [hop] at heval
    exact parse_eq_of_inSequence ih heval
  | @not e inner hop _ ih =>
    refine hstep fun depth pos st q st' heval ↦ ?_
    rw [hop] at heval
    obtain ⟨⟨r, st₁⟩, -, hrest⟩ := Option.bind_eq_some_iff.mp heval
    cases hrest
    rfl
  | reference hop hbody _ ih =>
    refine hstep fun depth pos st q st' heval ↦ ?_
    simp only [hop, evalOp, hbody] at heval
    exact ih depth pos st q st' heval

/-- Where only terminals are reached there is one end: that of every result of the node. -/
theorem Collapses.walks_eq (he : g.Collapses e) {pos : Nat} {s : ParseState} {q : Option Nat}
    (hresult : ∀ d r, Yields g src d (.node e) pos s r → r = q.map fun stop ↦ (stop, s)) :
    g.walks src e pos s = {(q, s)} := by
  have hend {depth steps left : Nat} {q' : Option Nat} {s' : ParseState}
      (heval : g.eval src depth e pos { parse := s, steps } =
        some (q', { parse := s', steps := left })) : (q', s') = (q, s) := by
    have hparse : s' = s := he.leavesParse src depth pos _ _ _ heval
    subst hparse
    have hq := hresult depth _ (Yields.of_eval depth e pos _ _ _ heval)
    rcases q' with - | stop'
    · rcases q with - | stop
      · rfl
      · cases hq
    · rcases q with - | stop
      · cases hq
      · cases hq
        rfl
  ext ⟨q', s'⟩
  constructor
  · rintro ⟨depth, steps, left, heval⟩
    exact hend heval
  · intro hx
    obtain ⟨d, r, hyields⟩ := he.settled.exists_yields src pos s
    obtain ⟨depth, steps, q₁, ⟨s₁, left⟩, heval, -⟩ := hyields.eval
    refine ⟨depth, steps, left, ?_⟩
    cases hx
    rw [heval]
    cases hend heval
    rfl

/-! ### Records made by simplification -/

/-- Grammars whose record was made by simplification under the bodies that the rules have. -/
inductive Filled : Grammar → Prop
  /-- Nothing is recorded. -/
  | fresh {g : Grammar} (hg : g.WellFormed) (hrecord : g.simplified = {}) : Filled g
  /-- Nodes, undefined rules or jump tables were added. -/
  | extended {g h : Grammar} (hg : Filled g) (hgh : g.Extends h) (hh : h.WellFormed)
    (hrecord : h.simplified = g.simplified) : Filled h
  /-- An expression was simplified. -/
  | simplified {g : Grammar} (hg : Filled g) {e : ExprId} (he : e < g.size) :
    Filled (simplify e g).2

/-- Nothing was recorded beforehand. -/
def noBase : ExprId → Option ExprId :=
  fun _ ↦ none

theorem closed_noBase (g : Grammar) : g.Closed noBase :=
  fun _ _ h ↦ nomatch h

/-- The record of a filled grammar is right. -/
theorem Filled.canonical (hg : g.Filled) : g.Canonical noBase [] ∧ g.SoundSimplified := by
  induction hg with
  | @fresh g hg hrecord =>
    have hnone (e : ExprId) : g.simplified? e = none := by
      rw [simplified?, hrecord]
      exact Std.TreeMap.getElem?_emptyc
    constructor
    · exact {
        wellFormed := hg
        base_closed := closed_noBase g
        closed := fun e other he ↦ by rw [hnone e] at he; cases he
        base_le := fun _ _ h ↦ by cases h
        marked := fun _ h ↦ by cases h
        right := fun e other he ↦ by rw [hnone e] at he; cases he }
    · intro e other he
      rw [hnone e] at he
      cases he
  | extended _ hgh hh hrecord ih =>
    exact ⟨(ih.1.extends hgh hh hrecord).canonical, ih.2.extends hgh hrecord⟩
  | simplified hg he ih =>
    exact ⟨(ensures_simplify_canonical ih.1 he).1.canonical,
      (ensures_simplify ih.1.wellFormed ih.2 he).1.sound⟩

/-! ### Expressions for which something is found -/

/-- A terminal or a literal. -/
theorem collapses_of_tells (he : (g.form e).Tells) : g.Collapses e := by
  rcases he with he | he
  · obtain ⟨op, hop⟩ := Option.isSome_iff_exists.mp he
    obtain ⟨rfl, hterminal⟩ := terminal_form_eq_some.mp hop
    exact .terminal hterminal
  · obtain ⟨bytes, hbytes⟩ := Option.isSome_iff_exists.mp he
    obtain ⟨items, hop, -, hitems⟩ := exists_bytes_of_literalBytes? hbytes
    refine .sequence hop fun item hitem ↦ .terminal ?_
    obtain ⟨b, hb⟩ := hitems item hitem
    rw [hb]
    rfl

/-- If from the nodes that are asked for only terminals are reached, then also from a node for which
something is found. -/
theorem collapses_of_asked {forms : ExprId → Form} {f : Form} (hf : foundIn forms g e = some f)
    (hasked : ∀ x ∈ g.asked e, g.Collapses x) : g.Collapses e := by
  unfold foundIn at hf
  unfold asked at hasked
  cases hop : g.op e with rw [hop] at hf hasked
  | choice alts => exact .choice hop hasked
  | sequence items =>
    have hlast (x : ExprId) (hx : x ∈ items.getLast?) : g.Collapses x :=
      hasked x (List.mem_append_left _ (Option.mem_toList.mpr hx))
    have hlookahead (hf : lookaheadIn forms g items = some f) : g.Collapses e := by
      obtain ⟨last, starts, hasLiteral, hlast', -, -, hstarts, -⟩ := lookaheadIn_eq_some hf
      refine .sequence hop fun item hitem ↦ ?_
      rw [← List.dropLast_append_getLast? last hlast', List.mem_append] at hitem
      rcases hitem with hitem | hitem
      · obtain ⟨inner, hnot⟩ := startsIn_not hstarts item hitem
        refine .not hnot (hasked inner (List.mem_append_right _ (List.mem_flatMap.mpr
          ⟨item, hitem, ?_⟩)))
        rw [hnot]
        exact List.mem_singleton_self inner
      · rw [List.mem_singleton.mp hitem]
        exact hlast last hlast'
    rcases items with - | ⟨only, - | ⟨second, rest⟩⟩
    · exact hlookahead hf
    · exact .sequence hop fun item hitem ↦ hlast item (by rw [List.mem_singleton.mp hitem]; rfl)
    · exact hlookahead hf
  | reference rule =>
    obtain ⟨body, hbody, -⟩ := Option.bind_eq_some_iff.mp hf
    exact .reference hop hbody (hasked body (Option.mem_toList.mpr hbody))
  | _ => cases hf

theorem collapses_of_foundWithin {n : Nat} {f : Form} (hf : g.foundWithin noBase n e = some f) :
    g.Collapses e := by
  induction n generalizing e f with
  | zero =>
    rw [foundWithin_zero rfl] at hf
    cases hf
  | succ n ih =>
    rw [foundWithin_succ rfl] at hf
    refine collapses_of_asked hf fun x hx ↦ ?_
    have htells := tells_of_foundIn hf x hx
    rcases hfx : g.foundWithin noBase n x with - | f'
    · rw [hfx] at htells
      exact collapses_of_tells htells
    · exact ih hfx

/-- A node for which something is found collapses to terminals. -/
theorem collapses_of_found {f : Form} (hf : g.found noBase e = some f) : g.Collapses e := by
  obtain ⟨n, hn⟩ := found_eq_some.mp hf
  exact collapses_of_foundWithin hn

/-- An expression for which a terminal is found tests for what the terminal tests for. -/
theorem Filled.yields_of_terminal (hg : g.Filled) (he : e < g.size) {op : Operator}
    (hop : (g.formFound noBase e).terminal = some op) {test : UInt8 → Bool}
    (htest : op.test? = some test) {d pos : Nat} {s : ParseState} {r : Match}
    (h : Yields g src d (.node e) pos s r) :
    r = if src.text[pos]?.any test then some (pos + 1, s) else none := by
  obtain ⟨hcanonical, hsound⟩ := hg.canonical
  have hsimplify := ensures_simplify hcanonical.wellFormed hsound he
  have hright := ensures_simplify_canonical hcanonical he
  unfold Builder.Ensures at hsimplify hright
  generalize (simplify e g).1 = other, (simplify e g).2 = k at hsimplify hright
  obtain ⟨hrecords, -, hsimp⟩ := hsimplify
  -- the terminal is the one that simplification answers
  have hform : k.form other = g.formFound noBase e := by
    rw [← hright.2.2.formFound_eq, hrecords.toExtends.formFound_eq hcanonical.wellFormed
      (closed_noBase g) he]
  rw [← hform] at hop
  obtain ⟨hother, -⟩ := terminal_form_eq_some.mp hop
  rw [← hother] at htest
  rw [hrecords.toExtends.yields_iff hcanonical.wellFormed (t := .node e) he] at h
  exact Yields.consumes_iff.mp (hsimp.refines htest (.refl k e) src d pos s r h)

/-- Negations that succeed end where they began. -/
theorem pos_eq_of_nots {nots : List ExprId} (hnots : ∀ x ∈ nots, ∃ inner, g.op x = .not inner)
    {d pos mid : Nat} {s s' : ParseState}
    (h : Yields g src d (.all (nots.map .node)) pos s (some (mid, s'))) : mid = pos := by
  induction nots generalizing s with
  | nil =>
    cases Yields.done_iff.mp h
    rfl
  | cons x nots ih =>
    rcases Yields.both_iff.mp h with ⟨-, hr⟩ | ⟨mid', s₁, h₁, h₂⟩
    · cases hr
    · obtain ⟨inner, hop⟩ := hnots x List.mem_cons_self
      obtain ⟨y, -, hy⟩ := yields_not hop h₁
      split at hy <;> cases hy
      exact ih (fun z hz ↦ hnots z (List.mem_cons_of_mem _ hz)) h₂

/-- A sequence of two or more items that consumes exactly one byte when one of a set is next, and
fails at the end of the input. -/
structure Dispatches (g : Grammar) (e : ExprId) (fast : ByteSet) : Prop where
  /-- A sequence of two or more items. -/
  sequence : ∃ items, g.op e = .sequence items ∧ 2 ≤ items.length
  /-- It consumes the bytes of the set. -/
  consumes : ∀ src pos s b, src.text[pos]? = some b → fast.contains b →
    g.walks src e pos s = {(some (pos + 1), s)}
  /-- It does not succeed without a byte. -/
  fails : ∀ src pos s, src.text[pos]? = none → g.walks src e pos s = {(none, s)}

/-- A dispatch form is found for a sequence that dispatches. -/
theorem Filled.dispatches (hg : g.Filled) (he : e < g.size) {fast : ByteSet}
    (hfound : g.found noBase e = some { dispatch := some fast })
    (hskips : ∀ src, g.Skips src e fast) : g.Dispatches e fast := by
  have hcollapses := collapses_of_found hfound
  rw [found_eq_foundIn rfl] at hfound
  obtain ⟨items, hop, hlookahead⟩ := exists_lookahead_of_dispatch hfound
  obtain ⟨last, starts, hasLiteral, hlast, hne, hany, hstarts, -⟩ := lookaheadIn_eq_some hlookahead
  have hitems := List.dropLast_append_getLast? last hlast
  constructor
  · refine ⟨items, hop, ?_⟩
    have hpos := List.length_pos_iff.mpr hne
    rw [List.length_dropLast] at hpos
    omega
  · intro src pos s b hnext hfast
    exact hcollapses.walks_eq fun d r hyields ↦ hskips src d pos s r b hnext hfast hyields
  · intro src pos s hnext
    refine hcollapses.walks_eq fun d r hyields ↦ ?_
    rcases yields_sequence_append hop hitems hyields with ⟨-, hr⟩ | ⟨mid, s', hnots, h⟩
    · exact hr
    · obtain rfl := pos_eq_of_nots (startsIn_not hstarts) hnots
      have hlastlt : last < g.size := by
        refine Nat.lt_trans (hg.canonical.1.wellFormed.child_lt (e := e) ?_) he
        rw [hop]
        exact List.mem_of_getLast? hlast
      have htest : Operator.test? .anyByte = some fun _ ↦ true := rfl
      have hr := hg.yields_of_terminal hlastlt hany htest h
      rw [hnext] at hr
      exact hr

/-- Simplification keeps the meaning of an expression: what is answered for it means the same,
unless that is a dispatch form, which is answered only for a sequence that dispatches on its
class. -/
theorem walks_simplify (hg : g.Filled) (he : e < g.size) :
    let other := (simplify e g).1
    let h := (simplify e g).2
    ((h.dispatchForm? other = none ∨ other = e) ∧
      ∀ src pos s, h.walks src other pos s = g.walks src e pos s) ∨
    (other ≠ e ∧ ∃ fast, h.dispatchForm? other = some fast ∧ g.Dispatches e fast) := by
  obtain ⟨hcanonical, hsound⟩ := hg.canonical
  have hsimplify := ensures_simplify hcanonical.wellFormed hsound he
  have hright := ensures_simplify_canonical hcanonical he
  unfold Builder.Ensures at hsimplify hright
  dsimp only
  generalize (simplify e g).1 = other, (simplify e g).2 = h at hsimplify hright
  obtain ⟨hrecords, -, hsimp⟩ := hsimplify
  have hgh := hrecords.toExtends
  by_cases hself : other = e
  · subst hself
    exact .inl ⟨.inr rfl, fun src pos s ↦ hgh.walks_eq hcanonical.wellFormed he pos s⟩
  · have hfound : g.found noBase e = some (h.form other) := by
      rw [← hgh.found_eq hcanonical.wellFormed (closed_noBase g) he, hright.2.2, if_neg hself]
    have hold {src : Resident} {d pos : Nat} {s : ParseState} {r : Match}
        (hyields : Yields g src d (.node e) pos s r) : Yields h src d (.node e) pos s r :=
      (hgh.yields_iff hcanonical.wellFormed (t := .node e) he).mp hyields
    cases hsimp with
    | self => exact absurd rfl hself
    | @terminal _ test htest _ hrefines =>
      have hterminal := Operator.isTerminal_of_test? htest
      refine .inl ⟨.inl ?_, fun src pos s ↦ ?_⟩
      · have hform := congrArg Form.dispatch (form_eq_ofTerminal rfl hterminal)
        exact hform
      · -- both walks test the next byte and end at once
        have hmap : (if src.text[pos]?.any test then some (pos + 1, s) else none) =
            (if src.text[pos]?.any test then some (pos + 1) else none).map (·, s) := by
          split <;> rfl
        rw [(Collapses.terminal hterminal).walks_eq fun d r hyields ↦
            (Yields.consumes_iff.mp (refines_consumes htest d pos s r hyields)).trans hmap,
          (collapses_of_found hfound).walks_eq fun d r hyields ↦
            (Yields.consumes_iff.mp
              (hrefines h (.refl h e) src d pos s r (hold hyields))).trans hmap]
    | dispatch hform hskips =>
      rw [dispatchForm_form hform] at hfound
      refine .inr ⟨hself, _, hform, hg.dispatches he hfound fun src d pos s r b hnext hfast h ↦ ?_⟩
      exact hskips _ (.refl _ e) src d pos s r b hnext hfast (hold h)

/-- A choice of two bytes, and any byte unless a literal is next: `'a' / 'b'` and `!"ab" .`. The
rule refers to itself and to one without a body. -/
def unlessLiteral : Grammar where
  nodes := #[⟨.byte 97, .synthetic⟩, ⟨.byte 98, .synthetic⟩, ⟨.choice [0, 1], .synthetic⟩,
    ⟨.sequence [0, 1], .synthetic⟩, ⟨.not 3, .synthetic⟩, ⟨.anyByte, .synthetic⟩,
    ⟨.sequence [4, 5], .synthetic⟩, ⟨.reference 0, .synthetic⟩, ⟨.reference 1, .synthetic⟩,
    ⟨.choice [6, 7, 8], .synthetic⟩]
  rules := #[{ name := "S", body := some 9 }, { name := "U" }]

theorem walks_simplify_unlessLiteral :
    (simplify 2 unlessLiteral).2.Filled ∧ 6 < (simplify 2 unlessLiteral).2.size ∧
      (simplify 6 (simplify 2 unlessLiteral).2).1 ≠ 6 ∧ ∃ fast,
        (simplify 6 (simplify 2 unlessLiteral).2).2.dispatchForm?
          (simplify 6 (simplify 2 unlessLiteral).2).1 = some fast ∧
        (simplify 2 unlessLiteral).2.Dispatches 6 fast := by
  have hfilled : (simplify 2 unlessLiteral).2.Filled :=
    .simplified (.fresh (by decide +kernel) rfl) (by decide)
  have hlt : 6 < (simplify 2 unlessLiteral).2.size := by decide +kernel
  exact ⟨hfilled, hlt, (walks_simplify hfilled hlt).resolve_left fun h ↦
    absurd h.1 (by decide +kernel)⟩

end Grammar

end ParsingMachine
