import Mathlib.Data.Finset.Card
import Mathlib.Data.Finset.Range
import ParsingMachine.Proofs.Grammar.Found

/-!
# Simplification finds what there is to find

While a node is being simplified it is recorded as its own result, which cuts recursion. This could
leave a wrong result behind for a node that is looked at meanwhile: the mark of a node under way is
taken for its result, the node at hand gets none on its account, and that is recorded for good.

It does not happen, because nodes are looked at in a particular way. A node is asked for only if
what is found for all nodes under way depends on it. If one of them is met again, what is found for
it depends on itself, so nothing is found, and the mark is the result. This is said by a level
(`Grammar.Allows`): either nothing is found for the nodes under way at all, or there is a level at
which nothing is found for them *yet*, although something is known already of the node that is
looked at. When a node is asked for on behalf of another one, the level goes down by one
(`Allows.asked`), and that a marked node is met is a contradiction in the second case
(`Allows.right_of_mem`).

So every result in the record is the one that is found without a record, in whatever order nodes
were simplified, and so is the answer of `simplify`. The invariant of the record (`Canonical`) is
relative to the nodes that are being simplified: their marks need not be right.

The recursion ends because each level of it marks a node that had no result. The depth is bounded by
the number of those, and new nodes that are made on the way are not looked at.

## Main statements

* `Allows.asked`: nodes that are asked for on behalf of a node may be looked at.
* `Allows.right_of_mem`: a mark that is met is the result.
* `ensures_simplifyNode_form`: what is answered for a node is right, given right answers for others.
* `ensures_simplify_canonical`: the answer is what is found, and the record stays right.
-/

namespace ParsingMachine.Grammar

variable {base : ExprId → Option ExprId} {pending : List ExprId} {g h k : Grammar}
  {e x other : ExprId}

/-! ### The record -/

/-- A result has the form that is found, and is the node itself if nothing is found. -/
def Right (base : ExprId → Option ExprId) (g : Grammar) (e other : ExprId) : Prop :=
  g.found base e = if other = e then none else some (g.form other)

/-- A right result has the form of what is encoded for the node. -/
theorem Right.formFound_eq (hr : g.Right base e other) : g.formFound base e = g.form other := by
  rw [formFound, hr]
  split
  · rename_i heq
    rw [heq]
    rfl
  · rfl

/-- Every recorded result is right, but for the marks of the nodes that are being simplified. -/
structure Canonical (base : ExprId → Option ExprId) (pending : List ExprId) (g : Grammar) :
    Prop where
  /-- The grammar is well formed. -/
  wellFormed : g.WellFormed
  /-- Results recorded beforehand are about nodes. -/
  base_closed : g.Closed base
  /-- All results are. -/
  closed : g.Closed g.simplified?
  /-- Results recorded beforehand stay. -/
  base_le : ∀ e other, base e = some other → g.simplified? e = some other
  /-- Nodes that are being simplified are marked. -/
  marked : ∀ e ∈ pending, g.simplified? e = some e ∧ base e = none
  /-- Other results are right. -/
  right : ∀ e other, g.simplified? e = some other → e ∉ pending → g.Right base e other

/-- What simplification leaves: more nodes and more results. -/
structure Refills (base : ExprId → Option ExprId) (pending : List ExprId) (g h : Grammar) : Prop
    extends g.Extends h where
  /-- Recorded results stay. -/
  recorded : ∀ e other, g.simplified? e = some other → h.simplified? e = some other
  /-- The record is right. -/
  canonical : h.Canonical base pending

/-- A right result stays right in a larger grammar. -/
theorem Right.extends (hr : g.Right base e other) (hgh : g.Extends h) (hg : g.WellFormed)
    (hbase : g.Closed base) (he : e < g.size) (hother : other < g.size) : h.Right base e other := by
  rw [Right, hgh.found_eq hg hbase he, hgh.form_eq hg hother]
  exact hr

theorem Canonical.pending_lt (hg : g.Canonical base pending) (hx : x ∈ pending) : x < g.size :=
  (hg.closed x x (hg.marked x hx).1).1

theorem Closed.mono (hg : g.Closed base) (hsize : g.size ≤ h.size) : h.Closed base :=
  fun e other hother ↦ ⟨Nat.lt_of_lt_of_le (hg e other hother).1 hsize,
    Nat.lt_of_lt_of_le (hg e other hother).2 hsize⟩

namespace Refills

theorem refl (hg : g.Canonical base pending) : g.Refills base pending g :=
  ⟨.refl g, fun _ _ h ↦ h, hg⟩

theorem trans (hgh : g.Refills base pending h) (hhk : h.Refills base pending k) :
    g.Refills base pending k :=
  ⟨hgh.toExtends.trans hhk.toExtends,
    fun e other he ↦ hhk.recorded e other (hgh.recorded e other he), hhk.canonical⟩

end Refills

/-- What is added to a grammar does not matter to the record. -/
theorem Canonical.extends (hg : g.Canonical base pending) (hgh : g.Extends h) (hh : h.WellFormed)
    (hrecord : h.simplified = g.simplified) : g.Refills base pending h := by
  have hsame : h.simplified? = g.simplified? :=
    funext fun e ↦ by rw [simplified?, simplified?, hrecord]
  refine ⟨hgh, fun e other he ↦ by rwa [hsame], ?_⟩
  exact {
    wellFormed := hh
    base_closed := hg.base_closed.mono hgh.size_le
    closed := by
      rw [hsame]
      exact hg.closed.mono hgh.size_le
    base_le := by
      rw [hsame]
      exact hg.base_le
    marked := by
      rw [hsame]
      exact hg.marked
    right := fun e other he hpending ↦ by
      rw [hsame] at he
      obtain ⟨helt, hotherlt⟩ := hg.closed e other he
      exact (hg.right e other he hpending).extends hgh hg.wellFormed hg.base_closed helt hotherlt }

theorem Canonical.appends (hg : g.Canonical base pending) (hgh : g.Appends h) :
    g.Refills base pending h :=
  hg.extends hgh.toExtends (hgh.toGrows.wellFormed hg.wellFormed) hgh.simplified_eq

/-! ### Nodes that may be looked at -/

/-- A node of the arena asks for nodes of the arena. -/
theorem asked_lt (hg : g.WellFormed) (he : e < g.size) (hx : x ∈ g.asked e) : x < g.size := by
  have hchild (y : ExprId) (hy : y ∈ (g.op e).children) : y < g.size :=
    Nat.lt_trans (hg.child_lt hy) he
  unfold asked at hx
  split at hx
  · rename_i alts hop
    exact hchild x (by rwa [hop])
  · rename_i items hop
    rw [hop] at hchild
    rcases List.mem_append.mp hx with hx | hx
    · exact hchild x (List.mem_of_getLast? (Option.mem_toList.mp hx))
    · obtain ⟨item, hitem, hx⟩ := List.mem_flatMap.mp hx
      have hitem := hchild item (List.dropLast_subset _ hitem)
      unfold Operator.negated at hx
      split at hx
      · rename_i inner hop'
        obtain rfl := List.mem_singleton.mp hx
        exact Nat.lt_trans (hg.child_lt (by rw [hop']; exact List.mem_singleton_self x)) hitem
      · cases hx
  · rename_i rule hop
    exact hg.body_lt rule x (Option.mem_toList.mp hx)
  · cases hx

/-- An old node asks for the same nodes in a larger grammar. -/
theorem Extends.asked_eq (hgh : g.Extends h) (hg : g.WellFormed) (he : e < g.size) :
    h.asked e = g.asked e := by
  unfold asked
  rw [hgh.op_eq e he]
  split
  · rfl
  · rename_i items hop
    congr 1
    refine List.flatMap_congr fun item hitem ↦ ?_
    rw [hgh.op_eq item (Nat.lt_trans (hg.child_lt (by
      rw [hop]
      exact List.dropLast_subset _ hitem)) he)]
  · rw [hgh.body?_eq]
  · rfl

/-- A node that tells something asks for nothing else. -/
theorem tells_of_asked (he : (g.form e).Tells) (hx : x ∈ g.asked e) : (g.form x).Tells := by
  rcases he with he | he
  · obtain ⟨op, hop⟩ := Option.isSome_iff_exists.mp he
    obtain ⟨rfl, hterminal⟩ := terminal_form_eq_some.mp hop
    unfold asked at hx
    split at hx
    · rename_i hop'
      rw [hop'] at hterminal
      cases hterminal
    · rename_i hop'
      rw [hop'] at hterminal
      cases hterminal
    · rename_i hop'
      rw [hop'] at hterminal
      cases hterminal
    · cases hx
  · obtain ⟨bytes, hbytes⟩ := Option.isSome_iff_exists.mp he
    -- none of the items is a negation
    obtain ⟨items, hop, -, hbyte⟩ := exists_bytes_of_literalBytes? hbytes
    unfold asked at hx
    rw [hop] at hx
    rcases List.mem_append.mp hx with hx | hx
    · obtain ⟨b, hb⟩ := hbyte x (List.mem_of_getLast? (Option.mem_toList.mp hx))
      exact Form.tells_of_terminal (terminal_form_eq_some.mpr ⟨hb, rfl⟩)
    · obtain ⟨item, hitem, hx⟩ := List.mem_flatMap.mp hx
      obtain ⟨b, hb⟩ := hbyte item (List.dropLast_subset _ hitem)
      rw [hb] at hx
      cases hx

/-- A node may be looked at while others are being simplified: nothing is found for these, or at
some level nothing is found for them yet although something is known of the node. -/
def Allows (base : ExprId → Option ExprId) (pending : List ExprId) (g : Grammar) (e : ExprId) :
    Prop :=
  (∀ x ∈ pending, g.found base x = none) ∨
    ∃ m, (∀ x ∈ pending, g.foundWithin base m x = none) ∧
      (g.foundWithin base m e ≠ none ∨ base e ≠ none ∨ (g.form e).Tells)

/-- The last level at which nothing is found yet. -/
theorem exists_last_level {f : Form} (hbase : base e = none) (hf : g.found base e = some f) :
    ∃ m, g.foundWithin base m e = none ∧ g.foundWithin base (m + 1) e = some f := by
  obtain ⟨n, hn⟩ := found_eq_some.mp hf
  induction n with
  | zero =>
    rw [foundWithin_zero hbase] at hn
    cases hn
  | succ n ih =>
    rcases hlevel : g.foundWithin base n e with - | f'
    · exact ⟨n, hlevel, hn⟩
    · rw [foundWithin_mono (Nat.le_succ n) hlevel] at hn
      cases hn
      exact ih hlevel

/-- Nodes that are asked for on behalf of a node may be looked at. -/
theorem Allows.asked (he : g.Allows base pending e) (hbase : base e = none) (hx : x ∈ g.asked e) :
    g.Allows base (e :: pending) x := by
  rcases hf : g.found base e with - | f
  · rcases he with he | ⟨m, hm, hknown⟩
    · refine .inl fun y hy ↦ ?_
      rcases List.mem_cons.mp hy with rfl | hy
      · exact hf
      · exact he y hy
    · have hnone := found_eq_none.mp hf m
      have htells : (g.form e).Tells :=
        (hknown.resolve_left fun hne ↦ hne hnone).resolve_left fun hne ↦ hne hbase
      refine .inr ⟨m, fun y hy ↦ ?_, .inr (.inr (tells_of_asked htells hx))⟩
      rcases List.mem_cons.mp hy with rfl | hy
      · exact hnone
      · exact hm y hy
  · obtain ⟨m, hm, hsucc⟩ := exists_last_level hbase hf
    have hpending : ∀ y ∈ pending, g.foundWithin base m y = none := by
      rcases he with he | ⟨n, hn, hknown⟩
      · exact fun y hy ↦ found_eq_none.mp (he y hy) m
      · have hne : g.foundWithin base n e ≠ none := by
          refine hknown.resolve_right fun hor ↦ ?_
          rcases hor with hne | htells
          · exact hne hbase
          · rw [foundWithin_of_tells hbase htells] at hsucc
            cases hsucc
        obtain ⟨f', hf'⟩ := Option.ne_none_iff_exists'.mp hne
        have hlt : m ≤ n := by
          by_contra hlt
          rw [foundWithin_mono (Nat.le_of_not_le hlt) hf'] at hm
          cases hm
        intro y hy
        rcases hy' : g.foundWithin base m y with - | f''
        · rfl
        · have hnone := hn y hy
          rw [foundWithin_mono hlt hy'] at hnone
          cases hnone
    refine .inr ⟨m, fun y hy ↦ ?_, ?_⟩
    · rcases List.mem_cons.mp hy with rfl | hy
      · exact hm
      · exact hpending y hy
    · rw [foundWithin_succ hbase] at hsucc
      have htells := tells_of_foundIn hsucc x hx
      rcases hx' : g.foundWithin base m x with - | f'
      · rw [hx'] at htells
        exact .inr (.inr htells)
      · exact .inl fun hnone ↦ nomatch hnone

/-- What may be looked at may be looked at in a larger grammar. -/
theorem Allows.extends (he : g.Allows base pending e) (hg : g.Canonical base pending)
    (hgh : g.Extends h) (helt : e < g.size) : h.Allows base pending e := by
  rcases he with hnone | ⟨m, hnone, hknown⟩
  · refine .inl fun x hx ↦ ?_
    rw [hgh.found_eq hg.wellFormed hg.base_closed (hg.pending_lt hx)]
    exact hnone x hx
  · refine .inr ⟨m, fun x hx ↦ ?_, ?_⟩
    · rw [hgh.foundWithin_eq hg.wellFormed hg.base_closed (hg.pending_lt hx)]
      exact hnone x hx
    · rwa [hgh.foundWithin_eq hg.wellFormed hg.base_closed helt, hgh.form_eq hg.wellFormed helt]

/-- A mark that is met is the result. -/
theorem Allows.right_of_mem (he : g.Allows base pending e) (hg : g.Canonical base pending)
    (hmem : e ∈ pending) : g.Right base e e := by
  rw [Right, if_pos rfl]
  have hbase := (hg.marked e hmem).2
  rcases he with hnone | ⟨m, hnone, hknown⟩
  · exact hnone e hmem
  · have htells : (g.form e).Tells :=
      (hknown.resolve_left fun hne ↦ hne (hnone e hmem)).resolve_left fun hne ↦ hne hbase
    exact found_eq_none.mpr fun n ↦ foundWithin_of_tells hbase htells n

/-! ### One node, given the results for others -/

section

variable {P : Grammar → Prop} {forms : ExprId → Form} {recur : ExprId → Builder ExprId}

/-- The nodes that are looked at for other nodes have the forms that are given. -/
def Answers (P : Grammar → Prop) (forms : ExprId → Form) (recur : ExprId → Builder ExprId)
    (x : ExprId) : Prop :=
  ∀ g, P g → Builder.Ensures (recur x) g fun other h ↦
    P h ∧ other < h.size ∧ h.form other = forms x

/-- The union that is computed is the one described, given the forms of the alternatives. -/
theorem ensures_unionIn (alts : List ExprId) (set : ByteSet)
    (hrecur : ∀ x ∈ alts, Answers P forms recur x) (hg : P g) :
    Builder.Ensures (unionOf recur set alts) g fun union h ↦
      P h ∧ union = unionIn forms set alts := by
  induction alts generalizing g set with
  | nil => exact ⟨hg, rfl⟩
  | cons alt alts ih =>
    refine (hrecur alt List.mem_cons_self g hg).bind fun other h hother ↦ ?_
    obtain ⟨hh, -, hform⟩ := hother
    refine Builder.Ensures.get ?_
    rw [unionIn, ← hform, byteSet?_form]
    split
    · rename_i s hs
      rw [hs, Option.bind_some]
      exact ih _ (fun x hx ↦ hrecur x (List.mem_cons_of_mem _ hx)) hh
    · rename_i hs
      exact ⟨hh, by rw [hs]; rfl⟩

/-- So are the starts of negated operands. -/
theorem ensures_startsIn (items : List ExprId) (starts : ByteSet) (hasLiteral : Bool)
    (hop : ∀ h, P h → ∀ item ∈ items, h.op item = g.op item)
    (hrecur : ∀ x ∈ items.flatMap fun i ↦ (g.op i).negated, Answers P forms recur x) (hh : P h) :
    Builder.Ensures (negatedStarts recur starts hasLiteral items) h fun result k ↦
      P k ∧ result = startsIn forms g starts hasLiteral items := by
  induction items generalizing h starts hasLiteral with
  | nil => exact ⟨hh, rfl⟩
  | cons item items ih =>
    have hrest := fun starts hasLiteral {k : Grammar} (hk : P k) ↦ ih (h := k) starts hasLiteral
      (fun h hh x hx ↦ hop h hh x (List.mem_cons_of_mem _ hx))
      (fun x hx ↦ hrecur x (List.mem_append_right _ hx)) hk
    refine Builder.Ensures.get ?_
    rw [startsIn, hop h hh item List.mem_cons_self]
    cases hnot : g.op item with
    | not inner =>
      have hinner : Answers P forms recur inner := by
        refine hrecur inner (List.mem_append_left _ ?_)
        show inner ∈ (g.op item).negated
        rw [hnot]
        exact List.mem_singleton_self inner
      refine (hinner h hh).bind fun other k hother ↦ ?_
      obtain ⟨hk, -, hform⟩ := hother
      have hliteral : (k.form other).literal = k.literalBytes? other := rfl
      refine Builder.Ensures.get ?_
      dsimp only
      rw [← hform, byteSet?_form, hliteral]
      rcases (k.op other).byteSet? with - | set
      · rcases k.literalBytes? other with - | - | ⟨first, rest⟩
        · exact ⟨hk, rfl⟩
        · exact ⟨hk, rfl⟩
        · exact hrest _ _ hk
      · exact hrest _ _ hk
    | _ => exact ⟨hh, rfl⟩

theorem dispatchForm_form {fast : ByteSet} (hform : g.dispatchForm? e = some fast) :
    g.form e = { dispatch := some fast } := by
  obtain ⟨set, any, hop, -⟩ := dispatchForm?_eq_some hform
  simp [form, literalBytes?, hform, hop, Operator.isTerminal]

/-- What is found for a sequence is a terminal or a dispatch form. -/
theorem isSome_of_lookaheadIn {items : List ExprId} {f : Form}
    (h : lookaheadIn forms g items = some f) : f.terminal.isSome ∨ f.dispatch.isSome := by
  obtain ⟨last, starts, hasLiteral, -, -, -, -, rfl⟩ := lookaheadIn_eq_some h
  cases hasLiteral with
  | true => exact .inr rfl
  | false => exact .inl rfl

/-- The node that is made has the form that is found. -/
theorem ensures_lookaheadIn {items : List ExprId}
    (hop : ∀ h, P h → ∀ item ∈ items, h.op item = g.op item)
    (hlast : ∀ x ∈ items.getLast?, Answers P forms recur x)
    (hnots : ∀ x ∈ items.dropLast.flatMap fun i ↦ (g.op i).negated, Answers P forms recur x)
    (hg : P g) :
    Builder.Ensures (negatedLookahead recur e items) g fun result h ↦
      (∃ k, P k ∧ k.Appends h) ∧ (∀ other, result = some other → other < h.size) ∧
        result.map h.form = lookaheadIn forms g items := by
  have hnothing {k : Grammar} (hk : P k) {f : Option Form} (hf : f = none) :
      Builder.Ensures (pure none) k fun result h ↦ (∃ k, P k ∧ k.Appends h) ∧
        (∀ other, result = some other → other < h.size) ∧ result.map h.form = f :=
    ⟨⟨k, hk, .refl k⟩, fun _ h ↦ (nomatch h), hf.symm⟩
  unfold negatedLookahead lookaheadIn
  rcases hlast' : items.getLast? with - | last
  · exact hnothing hg rfl
  · dsimp only
    by_cases hempty : items.dropLast.isEmpty
    · rw [if_pos hempty, if_pos hempty]
      exact hnothing hg rfl
    · rw [if_neg hempty, if_neg hempty]
      refine (hlast last hlast' g hg).bind fun other h hother ↦ ?_
      obtain ⟨hh, -, hform⟩ := hother
      refine Builder.Ensures.get ?_
      have hterminal := congrArg Form.terminal hform
      rw [← hterminal]
      cases hop' : h.op other with
      | anyByte =>
        rw [terminal_form_eq_some.mpr ⟨hop', rfl⟩]
        dsimp only
        refine (ensures_startsIn items.dropLast .empty false
          (fun k hk x hx ↦ hop k hk x (List.dropLast_subset _ hx)) hnots hh).bind
          fun result k hresult ↦ ?_
        obtain ⟨hk, hresult⟩ := hresult
        rw [← hresult]
        rcases result with - | ⟨starts, hasLiteral⟩
        · exact hnothing hk rfl
        · refine Builder.Ensures.get ((ensures_allocAt (.byteClass starts.compl) (k.span e) rfl
            fun _ h ↦ nomatch h).bind fun set m hset ↦ ?_)
          obtain ⟨⟨hkm, hsetlt, -⟩, hsetop⟩ := hset
          cases hasLiteral with
          | true =>
            refine .map ((ensures_dispatchForm hsetlt hsetop (k.span e)).imp fun other n hn ↦ ?_)
            obtain ⟨hmn, hotherlt, hdispatch⟩ := hn
            refine ⟨⟨k, hk, hkm.trans hmn⟩, fun x hx ↦ ?_, ?_⟩
            · cases hx
              exact hotherlt
            · exact congrArg some (dispatchForm_form hdispatch)
          | false =>
            refine ⟨⟨k, hk, hkm⟩, fun x hx ↦ ?_, ?_⟩
            · cases hx
              exact hsetlt
            · exact congrArg some (form_eq_ofTerminal hsetop rfl)
      | _ =>
        refine hnothing hh ?_
        simp [form, hop', Operator.isTerminal]

/-- The answer of another node is taken if it is a terminal, and only then. -/
theorem ensures_terminalOr_form (hx : Answers P forms recur x) (hg : P g)
    (helt : ∀ h, P h → e < h.size) (hterminal : ∀ h, P h → (h.form e).terminal = none) :
    Builder.Ensures (terminalOr recur e x) g fun other h ↦ P h ∧ other < h.size ∧
      (forms x).terminal.map Form.ofTerminal = if other = e then none else some (h.form other) := by
  refine (hx g hg).bind fun other h hother ↦ ?_
  obtain ⟨hh, hlt, hform⟩ := hother
  refine Builder.Ensures.get ?_
  rw [← hform]
  by_cases hop : (h.op other).isTerminal
  · rw [if_pos hop]
    have hsome := terminal_form_eq_some.mpr ⟨rfl, hop⟩
    have hne : other ≠ e := by
      rintro rfl
      rw [hterminal h hh] at hsome
      cases hsome
    refine ⟨hh, hlt, ?_⟩
    show _ = if other = e then none else some (h.form other)
    rw [if_neg hne, hsome, form_eq_ofTerminal rfl hop]
    rfl
  · rw [if_neg hop]
    refine ⟨hh, helt h hh, ?_⟩
    show _ = if e = e then none else some (h.form e)
    rw [if_pos rfl]
    have hnone : (h.form other).terminal = none := if_neg hop
    rw [hnone]
    rfl

/-- What is answered for a node is right, given right answers for the nodes that it asks for. -/
theorem ensures_simplifyNode_form (hextends : ∀ h, P h → g.Extends h) (hwf : g.WellFormed)
    (he : e < g.size) (hrecur : ∀ x ∈ g.asked e, Answers P forms recur x) (hg : P g) :
    Builder.Ensures (simplifyNode recur e) g fun other h ↦
      (∃ k, P k ∧ k.Appends h) ∧ other < h.size ∧
        foundIn forms g e = if other = e then none else some (h.form other) := by
  have hlt (h : Grammar) (hh : P h) : e < h.size := Nat.lt_of_lt_of_le he (hextends h hh).size_le
  have hop (h : Grammar) (hh : P h) : h.op e = g.op e := (hextends h hh).op_eq e he
  have hself {h : Grammar} (hh : P h) {f : Option Form} (hf : f = none) :
      Builder.Ensures (pure e) h fun other h ↦ (∃ k, P k ∧ k.Appends h) ∧ other < h.size ∧
        f = if other = e then none else some (h.form other) :=
    ⟨⟨h, hh, .refl h⟩, hlt h hh, by rw [hf]; exact (if_pos rfl).symm⟩
  unfold simplifyNode foundIn
  refine Builder.Ensures.get ?_
  unfold asked at hrecur
  cases hop' : g.op e with rw [hop'] at hrecur hop
  | choice alts =>
    dsimp only
    refine (ensures_unionIn alts .empty hrecur hg).bind fun union h hunion ↦ ?_
    obtain ⟨hh, hunion⟩ := hunion
    rw [← hunion]
    rcases union with - | union
    · exact hself hh rfl
    · refine Builder.Ensures.get ((ensures_allocAt (.byteClass union) (h.span e) rfl
        fun _ hc ↦ by cases hc).imp fun other k hk ↦ ?_)
      obtain ⟨⟨hhk, hotherlt, -⟩, hotherop⟩ := hk
      have hne : other ≠ e := by
        rintro rfl
        rw [hhk.op_eq other (hlt h hh), hop h hh] at hotherop
        cases hotherop
      refine ⟨⟨h, hh, hhk⟩, hotherlt, ?_⟩
      rw [if_neg hne, form_eq_ofTerminal hotherop rfl]
      rfl
  | sequence items =>
    have hterminal (h : Grammar) (hh : P h) : (h.form e).terminal = none := by
      show (if (h.op e).isTerminal then _ else _) = none
      rw [hop h hh]
      rfl
    have hlookahead : Builder.Ensures (do return (← negatedLookahead recur e items).getD e) g
        fun other h ↦ (∃ k, P k ∧ k.Appends h) ∧ other < h.size ∧
          lookaheadIn forms g items = if other = e then none else some (h.form other) := by
      have hitems (h : Grammar) (hh : P h) (x : ExprId) (hx : x ∈ items) : h.op x = g.op x :=
        (hextends h hh).op_eq x (Nat.lt_trans (hwf.child_lt (by rwa [hop'])) he)
      refine (ensures_lookaheadIn hitems
        (fun x hx ↦ hrecur x (List.mem_append_left _ (Option.mem_toList.mpr hx)))
        (fun x hx ↦ hrecur x (List.mem_append_right _ hx)) hg).bind fun result h hresult ↦ ?_
      obtain ⟨⟨k, hk, hkh⟩, hresultlt, hresult⟩ := hresult
      rw [← hresult]
      rcases result with - | other
      · exact ⟨⟨k, hk, hkh⟩, Nat.lt_of_lt_of_le (hlt k hk) hkh.size_le, (if_pos rfl).symm⟩
      · have hne : other ≠ e := by
          rintro rfl
          have hsequence := (hkh.op_eq other (hlt k hk)).trans (hop k hk)
          have hnone : h.form other = { literal := h.literalBytes? other } := by
            simp [form, hsequence, dispatchForm?, Operator.isTerminal]
          have hsome := isSome_of_lookaheadIn hresult.symm
          rw [hnone] at hsome
          rcases hsome with hsome | hsome <;> cases hsome
        exact ⟨⟨k, hk, hkh⟩, hresultlt other rfl, (if_neg hne).symm⟩
    rcases items with - | ⟨only, - | ⟨second, rest⟩⟩
    · exact hlookahead
    · have honly : Answers P forms recur only :=
        hrecur only (List.mem_append_left _ (List.mem_singleton_self only))
      exact (ensures_terminalOr_form honly hg hlt hterminal).imp
        fun other h hother ↦ ⟨⟨h, hother.1, .refl h⟩, hother.2⟩
    · exact hlookahead
  | reference rule =>
    have hterminal (h : Grammar) (hh : P h) : (h.form e).terminal = none := by
      show (if (h.op e).isTerminal then _ else _) = none
      rw [hop h hh]
      rfl
    refine Builder.Ensures.get ?_
    dsimp only at hrecur ⊢
    rcases hbody : g.body? rule with - | body
    · exact hself hg rfl
    · have hanswers : Answers P forms recur body := hrecur body (by simp [hbody])
      exact (ensures_terminalOr_form hanswers hg hlt hterminal).imp
        fun other h hother ↦ ⟨⟨h, hother.1, .refl h⟩, hother.2⟩
  | _ => exact hself hg rfl

end

/-! ### The recorded result -/

/-- How many of the first `n` nodes have no recorded result. -/
def unrecorded (g : Grammar) (n : Nat) : Nat :=
  ((Finset.range n).filter fun e ↦ g.simplified? e = none).card

/-- Results that stay leave no more nodes without one. -/
theorem unrecorded_le {n : Nat}
    (hrecorded : ∀ e other, g.simplified? e = some other → h.simplified? e = some other) :
    h.unrecorded n ≤ g.unrecorded n := by
  refine Finset.card_le_card fun e he ↦ ?_
  rw [Finset.mem_filter] at he ⊢
  refine ⟨he.1, Option.eq_none_iff_forall_ne_some.mpr fun other hother ↦ ?_⟩
  rw [hrecorded e other hother] at he
  cases he.2

/-- A new result leaves fewer nodes without one. -/
theorem unrecorded_setSimplified_lt {n : Nat} (he : e < n) (hnone : g.simplified? e = none) :
    (g.setSimplified e other).unrecorded n < g.unrecorded n := by
  refine Finset.card_lt_card (Finset.ssubset_iff_of_subset (fun x hx ↦ ?_) |>.mpr ⟨e, ?_, ?_⟩)
  · rw [Finset.mem_filter, simplified?_setSimplified] at hx
    obtain ⟨hxn, hx⟩ := hx
    split at hx
    · cases hx
    · exact Finset.mem_filter.mpr ⟨hxn, hx⟩
  · exact Finset.mem_filter.mpr ⟨Finset.mem_range.mpr he, hnone⟩
  · rw [Finset.mem_filter, simplified?_setSimplified, if_pos rfl]
    exact fun h ↦ nomatch h.2

theorem extends_setSimplified (g : Grammar) (e other : ExprId) :
    g.Extends (g.setSimplified e other) :=
  .of_eq rfl rfl

theorem Canonical.base_eq_none (hg : g.Canonical base pending) (hnone : g.simplified? e = none) :
    base e = none := by
  rcases hbase : base e with - | other
  · rfl
  · rw [hg.base_le e other hbase] at hnone
    cases hnone

/-- What is left when the result for a node is set that was marked or had none. -/
theorem Canonical.setSimplified (hg : g.Canonical base pending) (he : e < g.size)
    (hother : other < g.size) (hbase : base e = none) {left : List ExprId}
    (hleft : ∀ x ∈ left, (x = e ∧ other = e) ∨ (x ≠ e ∧ x ∈ pending))
    (hpending : ∀ x ∈ pending, x = e ∨ x ∈ left) (hright : e ∉ left → g.Right base e other) :
    (g.setSimplified e other).Canonical base left where
  wellFormed := ⟨hg.wellFormed.bottomUp, hg.wellFormed.body_lt⟩
  base_closed := hg.base_closed
  closed x y hxy := by
    rw [simplified?_setSimplified] at hxy
    split at hxy
    · rename_i heq
      cases hxy
      rw [heq]
      exact ⟨he, hother⟩
    · exact hg.closed x y hxy
  base_le x y hxy := by
    rw [simplified?_setSimplified, if_neg]
    · exact hg.base_le x y hxy
    · rintro rfl
      rw [hbase] at hxy
      cases hxy
  marked x hx := by
    rw [simplified?_setSimplified]
    rcases hleft x hx with ⟨rfl, rfl⟩ | ⟨hne, hmem⟩
    · exact ⟨if_pos rfl, hbase⟩
    · rw [if_neg hne]
      exact hg.marked x hmem
  right x y hxy hmem := by
    have hextends := extends_setSimplified g e other
    rw [simplified?_setSimplified] at hxy
    split at hxy
    · rename_i heq
      cases hxy
      subst heq
      exact (hright hmem).extends hextends hg.wellFormed hg.base_closed he hother
    · rename_i hne
      obtain ⟨hxlt, hylt⟩ := hg.closed x y hxy
      refine (hg.right x y hxy fun hx ↦ ?_).extends hextends hg.wellFormed hg.base_closed hxlt hylt
      exact (hpending x hx).elim hne hmem

theorem Extends.formFound_eq (hgh : g.Extends h) (hg : g.WellFormed) (hbase : g.Closed base)
    (he : e < g.size) : h.formFound base e = g.formFound base e := by
  rw [formFound, formFound, hgh.found_eq hg hbase he, hgh.form_eq hg he]

/-- Simplification answers what is found and leaves a right record, whatever is in the record. -/
theorem ensures_simplifyWithin_canonical {g₀ : Grammar} (hg₀ : g₀.WellFormed) (n : Nat)
    (hg : g.Canonical base pending) (hextends : g₀.Extends g) (he : e < g₀.size)
    (hn : g.unrecorded g₀.size < n) (hallows : g.Allows base pending e) :
    Builder.Ensures (simplifyWithin n e) g fun other h ↦
      g.Refills base pending h ∧ other < h.size ∧ h.Right base e other := by
  induction n generalizing g pending e with
  | zero => exact absurd hn (Nat.not_lt_zero _)
  | succ n ih =>
    have helt : e < g.size := Nat.lt_of_lt_of_le he hextends.size_le
    refine Builder.Ensures.get ?_
    rcases hrecorded : g.simplified? e with - | other
    · have hbase := hg.base_eq_none hrecorded
      have hnew : e ∉ pending := fun hmem ↦ by
        rw [(hg.marked e hmem).1] at hrecorded
        cases hrecorded
      -- the node is marked while it is being simplified
      have hmark : (g.setSimplified e e).Canonical base (e :: pending) := hg.setSimplified helt helt
        hbase (fun x hx ↦ (List.mem_cons.mp hx).imp (fun h ↦ ⟨h, rfl⟩)
          fun h ↦ ⟨fun heq ↦ hnew (heq ▸ h), h⟩)
        (fun x hx ↦ .inr (List.mem_cons_of_mem _ hx))
        fun hmem ↦ absurd List.mem_cons_self hmem
      have hgm := extends_setSimplified g e e
      have hlevel : (g.setSimplified e e).unrecorded g₀.size < g.unrecorded g₀.size :=
        unrecorded_setSimplified_lt he hrecorded
      refine Builder.Ensures.bind (P := fun _ h ↦ h = g.setSimplified e e) rfl fun _ m hm ↦ ?_
      rw [← hm] at hmark hgm hlevel
      have hallowed {x : ExprId} (hx : x ∈ m.asked e) : m.Allows base (e :: pending) x :=
        (hallows.extends hg hgm helt).asked hbase hx
      have hanswers (x : ExprId) (hx : x ∈ m.asked e) :
          Answers (m.Refills base (e :: pending)) (m.formFound base) (simplifyWithin n) x := by
        intro k hk
        have hgk := (hextends.trans hgm).trans hk.toExtends
        have hxlt : x < g₀.size := by
          rw [(hextends.trans hgm).asked_eq hg₀ he] at hx
          exact asked_lt hg₀ he hx
        have hxm : x < m.size := Nat.lt_of_lt_of_le hxlt (hextends.trans hgm).size_le
        have hkn : k.unrecorded g₀.size < n := by
          have hle := unrecorded_le (n := g₀.size) hk.recorded
          omega
        refine (ih hk.canonical hgk hxlt hkn
          ((hallowed hx).extends hmark hk.toExtends hxm)).imp fun other h hother ↦ ?_
        obtain ⟨hkh, hlt, hright⟩ := hother
        have hmh := hk.trans hkh
        refine ⟨hmh, hlt, ?_⟩
        rw [← hright.formFound_eq,
          hmh.toExtends.formFound_eq hmark.wellFormed hmark.base_closed hxm]
      refine (ensures_simplifyNode_form (fun h hh ↦ hh.toExtends) hmark.wellFormed
        (Nat.lt_of_lt_of_le helt hgm.size_le) hanswers (.refl hmark)).bind fun other h hnode ↦ ?_
      obtain ⟨⟨k, hmk, hkh⟩, hother, hfound⟩ := hnode
      have hmh := hmk.trans (hmk.canonical.appends hkh)
      have hgh := hgm.trans hmh.toExtends
      have hright : h.Right base e other := by
        rw [Right, hgh.found_eq hg.wellFormed hg.base_closed helt,
          ← hgm.found_eq hg.wellFormed hg.base_closed helt, found_eq_foundIn hbase]
        exact hfound
      have hset : (h.setSimplified e other).Canonical base pending :=
        hmh.canonical.setSimplified (Nat.lt_of_lt_of_le helt hgh.size_le) hother hbase
          (fun x hx ↦ .inr ⟨fun heq ↦ hnew (heq ▸ hx), List.mem_cons_of_mem _ hx⟩)
          (fun x hx ↦ List.mem_cons.mp hx) fun _ ↦ hright
      have hhs := extends_setSimplified h e other
      refine ⟨⟨hgh.trans hhs, fun x y hxy ↦ ?_, hset⟩, hother, ?_⟩
      · have hne : x ≠ e := by
          rintro rfl
          rw [hrecorded] at hxy
          cases hxy
        have hxm : m.simplified? x = some y := by
          rw [hm, simplified?_setSimplified, if_neg hne]
          exact hxy
        show (h.setSimplified e other).simplified? x = some y
        rw [simplified?_setSimplified, if_neg hne]
        exact hmh.recorded x y hxm
      · exact hright.extends hhs hmh.canonical.wellFormed hmh.canonical.base_closed
          (Nat.lt_of_lt_of_le helt hgh.size_le) hother
    · obtain ⟨-, hother⟩ := hg.closed e other hrecorded
      refine ⟨.refl hg, hother, ?_⟩
      by_cases hmem : e ∈ pending
      · rw [(hg.marked e hmem).1] at hrecorded
        cases hrecorded
        exact hallows.right_of_mem hg hmem
      · exact hg.right e other hrecorded hmem

/-- The answer for a node is what is found for it, and the record stays right. -/
theorem ensures_simplify_canonical (hg : g.Canonical base []) (he : e < g.size) :
    Builder.Ensures (simplify e) g fun other h ↦
      g.Refills base [] h ∧ other < h.size ∧ h.Right base e other := by
  have hcard : g.unrecorded g.size ≤ g.size := by
    refine (Finset.card_filter_le _ _).trans ?_
    rw [Finset.card_range]
  exact ensures_simplifyWithin_canonical hg.wellFormed _ hg (.refl g) he (by omega)
    (.inl fun _ h ↦ nomatch h)

end ParsingMachine.Grammar
