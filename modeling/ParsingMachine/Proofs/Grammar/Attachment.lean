import ParsingMachine.Proofs.Grammar.JumpTable
import ParsingMachine.Proofs.Grammar.Passes
import ParsingMachine.Proofs.Grammar.Search

/-!
# Which choices get jump tables

`attachTables` looks at the choices that rule bodies are made of, one after the other, and makes
nodes on the way. It misses none and looks at none of the new nodes: afterwards a choice has a table
that had none before exactly if it is an operand, at some depth, of a rule body, and the first-byte
analysis rejects one of its alternatives for some slot. Tables that were there stay, and doing it
again changes nothing.

Both conditions are about the grammar before the pass, but the pass asks them of a grammar that
grows under it. So neither may change for old nodes while nodes are appended. No new node becomes an
operand of an old body (`Grows.inBodies_iff`). And the analysis answers for old nodes what it
answered before any node was made (`Grows.accept_eq`): it recurses within a depth that grows with
the grammar, but any depth that is enough gives the same answer.

The invariant of the pass (`Narrowing`) says, for the choices looked at so far, that those have a
table now that had none and can be narrowed; it has one lemma for a choice that is left and one for
a choice that gets a table. The choices are looked at once each, so the answer of every single step
says whether that choice gained a table, and their number is the number of choices that did.

Idempotence follows from what the pass leaves: a choice that still has no table cannot be narrowed,
and the pass does nothing to a choice that has a table or cannot be narrowed.

## Main statements

* `acceptWithin_eq`: any two depths that are enough give the same answer, also in a larger grammar.
* `ensures_makeTable_narrows`: a table is made exactly for the choices that can be narrowed.
* `Narrowing.attachTable`: one step of the pass.
* `attachTables_exact`: which choices have tables afterwards, how many gained one, and that nothing
  happens the second time.
-/

namespace ParsingMachine

/-! ### The analysis of old nodes -/

namespace Acceptance

variable {answer answer' : ExprId → Acceptance} {es : List ExprId}

/-- The answer for a sequence depends on the answers for its items. -/
theorem inSequence_congr (h : ∀ e ∈ es, answer' e = answer e) :
    inSequence answer' es = inSequence answer es := by
  induction es with
  | nil => rfl
  | cons e es ih =>
    rw [List.forall_mem_cons] at h
    rw [inSequence, inSequence, h.1, ih h.2]

/-- The answer for a choice depends on the answers for its alternatives. -/
theorem inChoice_congr (h : ∀ e ∈ es, answer' e = answer e) :
    inChoice answer' es = inChoice answer es := by
  induction es with
  | nil => rfl
  | cons e es ih =>
    rw [List.forall_mem_cons] at h
    rw [inChoice, inChoice, h.1, ih h.2]

end Acceptance

namespace Grammar

variable {g h k : Grammar} {e : ExprId} {slot : Nat}

/-- The answer of a node depends on the node, on the answers for its operands, on whether these are
terminals, and on the answer for the body of a rule that is not being looked at. -/
theorem acceptNode_congr {recur recur' : List RuleId → ExprId → Acceptance}
    {visiting : List RuleId} (hop : h.op e = g.op e) (hbodies : ∀ rule, h.body? rule = g.body? rule)
    (hterminal : ∀ c ∈ (g.op e).children, (h.op c).isTerminal = (g.op c).isTerminal)
    (hchild : ∀ c ∈ (g.op e).children, recur' visiting c = recur visiting c)
    (hbody : ∀ rule body, g.op e = .reference rule → g.body? rule = some body → rule ∉ visiting →
      recur' (rule :: visiting) body = recur (rule :: visiting) body) :
    h.acceptNode slot recur' visiting e = g.acceptNode slot recur visiting e := by
  rw [acceptNode, acceptNode, hop]
  generalize g.op e = op at hterminal hchild hbody ⊢
  cases op with
  | empty | fail | anyByte | byte _ | byteClass _ | mark _ | defIndent | isIndent => rfl
  | sequence items | construct items _ => exact Acceptance.inSequence_congr hchild
  | choice alts => exact Acceptance.inChoice_congr hchild
  | star inner _ | optional inner | and inner =>
    dsimp only
    rw [hchild inner (List.mem_singleton_self _)]
  | plus inner _ | link inner _ | block inner | defSymbol _ inner | isSymbol _ inner _ =>
    exact hchild inner (List.mem_singleton_self _)
  | not inner =>
    dsimp only
    rw [hchild inner (List.mem_singleton_self _), hterminal inner (List.mem_singleton_self _)]
  | reference rule =>
    dsimp only
    rw [hbodies]
    split
    · rfl
    · rename_i body hrule
      split
      · rfl
      · rename_i hnot
        exact hbody rule body rfl hrule (by simpa using hnot)

/-- Any two depths that are enough give the same answer, also in a larger grammar. -/
theorem acceptWithin_eq (hg : g.WellFormed) (hgh : g.Extends h) {depth depth' : Nat}
    {visiting : List RuleId} (he : e < g.size) (hdepth : g.Enough depth visiting e)
    (hdepth' : g.Enough depth' visiting e) :
    h.acceptWithin slot depth' visiting e = g.acceptWithin slot depth visiting e := by
  induction depth generalizing depth' visiting e with
  | zero => exact absurd hdepth.pos (Nat.lt_irrefl 0)
  | succ depth ih =>
    cases depth' with
    | zero => exact absurd hdepth'.pos (Nat.lt_irrefl 0)
    | succ depth' =>
      have hlt (c : ExprId) (hc : c ∈ (g.op e).children) : c < e := hg.child_lt hc
      refine acceptNode_congr (hgh.op_eq e he) hgh.body?_eq (fun c hc ↦ ?_) (fun c hc ↦ ?_)
        fun rule body _ hbody hnot ↦ ?_
      · rw [hgh.op_eq c (Nat.lt_trans (hlt c hc) he)]
      · exact ih (Nat.lt_trans (hlt c hc) he) (hdepth.child (hlt c hc)) (hdepth'.child (hlt c hc))
      · have hbody_lt := hg.body_lt rule body hbody
        have hrule := lt_ruleCount_of_body? hbody
        exact ih hbody_lt (hdepth.body hnot hrule hbody_lt) (hdepth'.body hnot hrule hbody_lt)

/-- Nodes that are appended change nothing for old ones. -/
theorem Grows.accept_eq (hgh : g.Grows h) (hg : g.WellFormed) (he : e < g.size) (slot : Nat) :
    h.accept e slot = g.accept e slot := by
  have hdepth := Enough.start he []
  have hle : g.analysisDepth ≤ h.analysisDepth := by
    rw [analysisDepth, analysisDepth, hgh.ruleCount_eq]
    exact Nat.succ_le_succ (Nat.mul_le_mul_left _ (Nat.succ_le_succ hgh.size_le))
  exact acceptWithin_eq hg hgh.toExtends he hdepth (Nat.le_trans hdepth hle)

/-! ### Choices that can be narrowed -/

/-- A node is a choice, and the analysis rejects one of its alternatives for some slot. -/
def Narrows (g : Grammar) (e : ExprId) : Prop :=
  ∃ alts, g.op e = .choice alts ∧ ∃ slot < slotCount, ∃ alt ∈ alts, g.accept alt slot = .reject

/-- An old node can be narrowed in a larger grammar exactly if it could be before. -/
theorem Grows.narrows_iff (hgh : g.Grows h) (hg : g.WellFormed) (he : e < g.size) :
    h.Narrows e ↔ g.Narrows e := by
  unfold Narrows
  rw [hgh.op_eq e he]
  refine exists_congr fun alts ↦ and_congr_right fun hop ↦ ?_
  refine exists_congr fun slot ↦ and_congr_right fun _ ↦ exists_congr fun alt ↦ and_congr_right ?_
  intro halt
  have hlt : alt < e := hg.child_lt (by rw [hop]; exact halt)
  rw [hgh.accept_eq hg (Nat.lt_trans hlt he)]

/-- A table is made exactly for the choices that can be narrowed; otherwise nothing is made. -/
theorem ensures_makeTable_narrows (hg : g.WellFormed) (e : ExprId) :
    Builder.Ensures (makeTable e) g fun result h ↦
      g.Appends h ∧ (result.isSome ↔ g.Narrows e) ∧ (result = none → h = g) := by
  refine (ensures_makeTable_routes hg e).imp fun result h hresult ↦ ?_
  cases result with
  | none =>
    obtain ⟨rfl, hwhole⟩ := hresult
    refine ⟨.refl h, ⟨fun hsome ↦ (nomatch hsome), ?_⟩, fun _ ↦ rfl⟩
    rintro ⟨alts, hop, slot, hslot, alt, halt, hreject⟩
    exact absurd hreject (hwhole alts hop slot hslot alt halt)
  | some table =>
    obtain ⟨hgh, alts, hop, hreject, -⟩ := hresult
    exact ⟨hgh, iff_of_true rfl ⟨alts, hop, hreject⟩, fun hnone ↦ nomatch hnone⟩

/-! ### Choices that bodies are made of -/

/-- A node is an operand of another one, at some depth. -/
def Contains (g : Grammar) : ExprId → ExprId → Prop :=
  Relation.ReflTransGen fun e x ↦ x ∈ (g.op e).children

/-- A node is an operand of the body of a rule, at some depth. -/
def InBodies (g : Grammar) (e : ExprId) : Prop :=
  ∃ rule body, g.body? rule = some body ∧ g.Contains body e

/-- The pass looks at the choices that bodies are made of. -/
theorem mem_reachableChoices :
    e ∈ g.reachableChoices ↔ (∃ alts, g.op e = .choice alts) ∧ g.InBodies e := by
  have hchoice : (g.op e).isChoice = true ↔ ∃ alts, g.op e = .choice alts := by
    cases g.op e <;> simp [Operator.isChoice]
  have hroot (root : ExprId) : root ∈ g.rules.toList.filterMap Rule.body ↔
      ∃ rule, g.body? rule = some root := by
    simp only [body?, List.mem_filterMap, Array.mem_toList_iff, Array.mem_iff_getElem?,
      Option.bind_eq_some_iff]
    constructor
    · rintro ⟨entry, ⟨rule, hrule⟩, hbody⟩
      exact ⟨rule, entry, hrule, hbody⟩
    · rintro ⟨rule, entry, hrule, hbody⟩
      exact ⟨entry, ⟨rule, hrule⟩, hbody⟩
  have hfound : e ∈ g.operandsFrom (g.rules.toList.filterMap Rule.body) ↔ g.InBodies e := by
    rw [operandsFrom, Array.mem_toList_iff,
      Graph.mem_explore fun x hx ↦ by rw [op_of_size_le hx]; rfl]
    simp only [hroot, InBodies, Contains]
    constructor
    · rintro ⟨body, ⟨rule, hbody⟩, hpath⟩
      exact ⟨rule, body, hbody, hpath⟩
    · rintro ⟨rule, body, hbody, hpath⟩
      exact ⟨body, ⟨rule, hbody⟩, hpath⟩
  rw [reachableChoices, List.mem_filter, List.mem_range, Bool.and_eq_true, List.contains_iff_mem,
    hfound, hchoice, and_iff_right_iff_imp]
  rintro ⟨⟨alts, hop⟩, -⟩
  exact lt_size_of_op_ne (by simp [hop])

theorem lt_of_mem_reachableChoices (h : e ∈ g.reachableChoices) : e < g.size :=
  List.mem_range.mp (List.mem_filter.mp h).1

theorem nodup_reachableChoices (g : Grammar) : g.reachableChoices.Nodup :=
  List.nodup_range.filter _

/-- Grammars that have nodes below a bound in common have the same operands below it. -/
theorem contains_of_common {n : Nat} {body : ExprId} (hop : ∀ x < n, h.op x = g.op x)
    (hchild : ∀ x < n, ∀ c ∈ (g.op x).children, c < n) (hbody : body < n)
    (hpath : g.Contains body e) : h.Contains body e ∧ e < n := by
  induction hpath with
  | refl => exact ⟨.refl, hbody⟩
  | @tail x c _ hc ih =>
    obtain ⟨hpath, hx⟩ := ih
    exact ⟨hpath.tail (by rwa [hop x hx]), hchild x hx c hc⟩

theorem InBodies.lt (hg : g.WellFormed) (h : g.InBodies e) : e < g.size := by
  obtain ⟨rule, body, hbody, hpath⟩ := h
  exact (contains_of_common (fun _ _ ↦ rfl) (fun x hx c hc ↦ Nat.lt_trans (hg.child_lt hc) hx)
    (hg.body_lt rule body hbody) hpath).2

/-- No new node becomes an operand of an old body. -/
theorem Grows.inBodies_iff (hgh : g.Grows h) (hg : g.WellFormed) (e : ExprId) :
    h.InBodies e ↔ g.InBodies e := by
  unfold InBodies
  refine exists_congr fun rule ↦ exists_congr fun body ↦ ?_
  rw [hgh.body?_eq]
  refine and_congr_right fun hbody ↦ ?_
  have hlt := hg.body_lt rule body hbody
  have hchild (x : ExprId) (hx : x < g.size) (c : ExprId) (hc : c ∈ (g.op x).children) :
      c < g.size := Nat.lt_trans (hg.child_lt hc) hx
  constructor
  · refine fun hpath ↦ (contains_of_common (fun x hx ↦ (hgh.op_eq x hx).symm) ?_ hlt hpath).1
    intro x hx
    rw [hgh.op_eq x hx]
    exact hchild x hx
  · exact fun hpath ↦ (contains_of_common hgh.op_eq hchild hlt hpath).1

/-! ### Attaching one table after the other -/

/-- The grammar `k` is `g` with tables attached to those nodes of a list that had none and can be
narrowed. -/
structure Narrowing (g k : Grammar) (done : List ExprId) : Prop extends g.Grows k where
  /-- Tables that were there are still there. -/
  table?_eq : ∀ e table, g.table? e = some table → k.table? e = some table
  /-- Where none was, there is one exactly if it is wanted. -/
  isSome_iff : ∀ e, g.table? e = none → ((k.table? e).isSome ↔ e ∈ done ∧ g.Narrows e)

namespace Narrowing

variable {done choices : List ExprId}

theorem start (g : Grammar) : g.Narrowing g [] where
  toGrows := .refl g
  table?_eq _ _ h := h
  isSome_iff e he := by simp [he]

theorem mem_append_iff {x : ExprId} (hx : x ≠ e) : x ∈ done ++ [e] ↔ x ∈ done := by
  simp [hx]

/-- A node that has a table, or cannot be narrowed, is left as it is. -/
theorem leave (hk : g.Narrowing k done) (h : g.table? e = none → ¬g.Narrows e) :
    g.Narrowing k (done ++ [e]) where
  toGrows := hk.toGrows
  table?_eq := hk.table?_eq
  isSome_iff x hx := by
    rw [hk.isSome_iff x hx]
    by_cases hxe : x = e
    · subst hxe
      exact ⟨fun hboth ↦ absurd hboth.2 (h hx), fun hboth ↦ absurd hboth.2 (h hx)⟩
    · rw [mem_append_iff hxe]

/-- A node that has no table, and can be narrowed, gets one. -/
theorem setTable (hk : g.Narrowing k done) (hkh : k.Appends h) (hnone : g.table? e = none)
    (hnarrows : g.Narrows e) (table : JumpTable) :
    g.Narrowing (h.setTable e table) (done ++ [e]) where
  toGrows := by
    have hset : h.Extends (h.setTable e table) := .of_eq rfl rfl
    exact (hk.toGrows.trans hkh.toGrows).trans
      ⟨hset, (Grows.refl h).isGlue, (Grows.refl h).child_lt, rfl⟩
  table?_eq x old hold := by
    have hne : x ≠ e := by
      rintro rfl
      rw [hnone] at hold
      cases hold
    rw [table?_setTable, if_neg hne, table?, hkh.tables_eq]
    exact hk.table?_eq x old hold
  isSome_iff x hx := by
    rw [table?_setTable]
    split
    · rename_i heq
      subst heq
      exact iff_of_true rfl ⟨List.mem_append_right _ (List.mem_singleton_self _), hnarrows⟩
    · rename_i hne
      rw [mem_append_iff hne, table?, hkh.tables_eq]
      exact hk.isSome_iff x hx

/-- A choice that was not looked at gets a table exactly if it has none and can be narrowed. -/
theorem attachTable (hg : g.WellFormed) (hk : g.Narrowing k done) (he : e < g.size)
    (hnew : e ∉ done) : Builder.Ensures (attachTable e) k fun attached h ↦
      g.Narrowing h (done ++ [e]) ∧ (attached = true ↔ g.table? e = none ∧ g.Narrows e) := by
  unfold Grammar.attachTable
  refine .get ?_
  rcases hold : g.table? e with - | table
  · have hnone : ¬(k.table? e).isSome := fun hsome ↦ hnew ((hk.isSome_iff e hold).mp hsome).1
    rw [if_neg hnone]
    refine (ensures_makeTable_narrows (hk.wellFormed hg) e).bind fun result h hresult ↦ ?_
    obtain ⟨hkh, hsome, hsame⟩ := hresult
    rw [hk.narrows_iff hg he] at hsome
    cases result with
    | none =>
      have hnot : ¬g.Narrows e := fun hnarrows ↦ (nomatch hsome.mpr hnarrows)
      rw [hsame rfl]
      exact .pure ⟨hk.leave fun _ ↦ hnot, fun h ↦ (nomatch h), fun h ↦ absurd h.2 hnot⟩
    | some table =>
      have hnarrows := hsome.mp rfl
      exact ⟨hk.setTable hkh hold hnarrows table, fun _ ↦ ⟨rfl, hnarrows⟩, fun _ ↦ rfl⟩
  · have hsome : (k.table? e).isSome := by rw [hk.table?_eq e table hold]; rfl
    rw [if_pos hsome]
    refine .pure ⟨hk.leave fun hnone ↦ ?_, fun h ↦ (nomatch h), fun h ↦ (nomatch h.1)⟩
    rw [hold] at hnone
    cases hnone

/-- Choices are looked at one after the other. -/
theorem mapM_attachTable (hg : g.WellFormed) (hk : g.Narrowing k done)
    (hlt : ∀ e ∈ choices, e < g.size) (hnodup : (done ++ choices).Nodup) :
    Builder.Ensures (choices.mapM Grammar.attachTable) k fun attached h ↦
      g.Narrowing h (done ++ choices) ∧
        List.Forall₂ (fun e b ↦ b = true ↔ g.table? e = none ∧ g.Narrows e) choices attached := by
  induction choices generalizing k done with
  | nil => exact .pure ⟨by rwa [List.append_nil], .nil⟩
  | cons e choices ih =>
    rw [List.forall_mem_cons] at hlt
    have hnew : e ∉ done := fun hmem ↦
      (List.nodup_append.mp hnodup).2.2 e hmem e List.mem_cons_self rfl
    have hsplit : done ++ e :: choices = (done ++ [e]) ++ choices := by simp
    rw [hsplit] at hnodup ⊢
    rw [List.mapM_cons]
    refine (hk.attachTable hg hlt.1 hnew).bind fun b h hb ↦ ?_
    exact (ih hb.1 hlt.2 hnodup).bind fun bs k hbs ↦ .pure ⟨hbs.1, .cons hb.2 hbs.2⟩

end Narrowing

/-! ### Attaching again -/

/-- A choice that has a table, or cannot be narrowed, is left alone. -/
theorem ensures_attachTable_again (hg : g.WellFormed) (h : (g.table? e).isSome ∨ ¬g.Narrows e) :
    Builder.Ensures (attachTable e) g fun b k ↦ k = g ∧ b ≠ true := by
  unfold attachTable
  refine .get ?_
  split
  · exact .pure ⟨rfl, Bool.false_ne_true⟩
  · rename_i hnone
    refine (ensures_makeTable_narrows hg e).bind fun result k hresult ↦ ?_
    obtain ⟨-, hsome, hsame⟩ := hresult
    cases result with
    | none => exact .pure ⟨hsame rfl, Bool.false_ne_true⟩
    | some table => exact absurd (hsome.mp rfl) (h.resolve_left hnone)

/-- If this holds of all choices, nothing happens. -/
theorem ensures_mapM_again (hg : g.WellFormed) {choices : List ExprId}
    (h : ∀ e ∈ choices, (g.table? e).isSome ∨ ¬g.Narrows e) :
    Builder.Ensures (choices.mapM attachTable) g fun bs k ↦ k = g ∧ true ∉ bs := by
  induction choices with
  | nil => exact .pure ⟨rfl, List.not_mem_nil⟩
  | cons e choices ih =>
    rw [List.forall_mem_cons] at h
    rw [List.mapM_cons]
    refine (ensures_attachTable_again hg h.1).bind fun b k hb ↦ ?_
    obtain ⟨rfl, hb⟩ := hb
    refine (ih h.2).bind fun bs k hbs ↦ .pure ⟨hbs.1, fun hmem ↦ ?_⟩
    exact (List.mem_cons.mp hmem).elim (fun heq ↦ hb heq.symm) hbs.2

/-- The nodes and the rules stay as they are. -/
theorem lasting_nodes (g : Grammar) :
    Lasting fun k ↦ g.size ≤ k.size ∧ (∀ e < g.size, k.nodes[e]? = g.nodes[e]?) ∧
      k.rules = g.rules where
  push k op span hk := by
    obtain ⟨hle, hnodes, hrules⟩ := hk
    refine ⟨(size_push k op span).symm ▸ Nat.le_succ_of_le hle, fun e he ↦ ?_, hrules⟩
    rw [push, Array.getElem?_push_lt (Nat.lt_of_lt_of_le he hle), ← hnodes e he,
      Array.getElem?_eq_getElem]
  setSimplified _ _ _ hk := hk
  setTable _ _ _ _ hk := hk

/-! ### The tables of a grammar -/

/-- The grammar `h` is `g` with jump tables attached to the choices that want one: those that bodies
are made of, that had none, and that can be narrowed. -/
structure AttachesExactly (g h : Grammar) : Prop where
  /-- Nodes are only appended. -/
  size_le : g.size ≤ h.size
  /-- Old nodes stay as they are. -/
  nodes_eq : ∀ e < g.size, h.nodes[e]? = g.nodes[e]?
  /-- The rules are the same. -/
  rules_eq : h.rules = g.rules
  /-- The bodies are made of the same nodes: none of the new ones is among them. -/
  inBodies_iff : ∀ e, h.InBodies e ↔ g.InBodies e
  /-- Tables that were there are still there. -/
  table?_eq : ∀ e table, g.table? e = some table → h.table? e = some table
  /-- Where none was, there is one exactly if it is wanted. -/
  isSome_iff : ∀ e, g.table? e = none → ((h.table? e).isSome ↔ g.InBodies e ∧ g.Narrows e)

/-- The grammar that the pass leaves, when it has looked at all choices. -/
theorem Narrowing.exactly (hg : g.WellFormed) (hk : g.Narrowing k g.reachableChoices)
    (hnodes : (∀ e < g.size, k.nodes[e]? = g.nodes[e]?) ∧ k.rules = g.rules) :
    g.AttachesExactly k where
  size_le := hk.size_le
  nodes_eq := hnodes.1
  rules_eq := hnodes.2
  inBodies_iff := hk.inBodies_iff hg
  table?_eq := hk.table?_eq
  isSome_iff e he := by
    rw [hk.isSome_iff e he, mem_reachableChoices]
    refine and_congr_left fun ⟨alts, hop, _⟩ ↦ and_iff_right ⟨alts, hop⟩

/-- How many nodes gained a table. -/
def gained (g h : Grammar) : Nat :=
  (List.range g.size).countP fun e ↦ (g.table? e).isNone && (h.table? e).isSome

/-- The positive answers are as many as there are choices that gained a table. -/
theorem AttachesExactly.gained_eq (h : g.AttachesExactly k) {attached : List Bool}
    (hall : List.Forall₂ (fun e b ↦ b = true ↔ g.table? e = none ∧ g.Narrows e) g.reachableChoices
      attached) : attached.count true = gained g k := by
  let gains (e : ExprId) : Bool := (g.table? e).isNone && (k.table? e).isSome
  have hgains (e : ExprId) : gains e = true ↔ g.table? e = none ∧ g.InBodies e ∧ g.Narrows e := by
    rw [Bool.and_eq_true, Option.isNone_iff_eq_none]
    exact and_congr_right (h.isSome_iff e)
  have hmem {e : ExprId} (hbody : g.InBodies e) (hnarrows : g.Narrows e) :
      e ∈ g.reachableChoices := by
    obtain ⟨alts, hop, -⟩ := hnarrows
    exact mem_reachableChoices.mpr ⟨⟨alts, hop⟩, hbody⟩
  have hattached : g.reachableChoices.map gains = attached := by
    have hbodies : ∀ e ∈ g.reachableChoices, g.InBodies e :=
      fun e he ↦ (mem_reachableChoices.mp he).2
    rw [← List.forall₂_eq_eq_eq, List.forall₂_map_left_iff]
    refine (List.forall₂_and_left _ _ |>.mpr ⟨hbodies, hall⟩).imp fun e b ⟨hbody, hb⟩ ↦ ?_
    rw [Bool.eq_iff_iff, hgains, hb]
    exact and_congr_right fun _ ↦ and_iff_right hbody
  calc attached.count true
      = g.reachableChoices.countP gains := by
        rw [← hattached, List.count, List.countP_map]
        exact List.countP_congr fun e _ ↦ by simp
    _ = gained g k := by
        rw [reachableChoices, List.countP_filter]
        refine List.countP_congr fun e he ↦ ?_
        rw [Bool.and_eq_true]
        refine ⟨And.left, fun hgain ↦ ⟨hgain, ?_⟩⟩
        obtain ⟨-, hbody, hnarrows⟩ := (hgains e).mp hgain
        exact (List.mem_filter.mp (hmem hbody hnarrows)).2

/-- Attaching jump tables is complete and idempotent. Afterwards the choices that rule bodies are
made of have tables, except those that had none and of which all alternatives are viable for all
slots; tables that were there stay, no other node gains one, and the nodes and the rules are as they
were. The answer is how many choices gained a table. Doing it again gains nothing and changes
nothing. -/
theorem attachTables_exact (hg : g.WellFormed) :
    ∃ h, g.AttachesExactly h ∧ attachTables g = (gained g h, h) ∧ attachTables h = (0, h) := by
  have hrun := (Narrowing.start g).mapM_attachTable hg
    (fun e he ↦ lt_of_mem_reachableChoices he) (nodup_reachableChoices g)
  have hnodes := keeps_attachTables (lasting_nodes g) g ⟨Nat.le_refl _, fun _ _ ↦ rfl, rfl⟩
  obtain ⟨hnarrowing, hall⟩ := hrun
  have hexact := hnarrowing.exactly hg hnodes.2
  refine ⟨_, hexact, Prod.ext (hexact.gained_eq hall) rfl, ?_⟩
  -- a choice without a table that could be narrowed could have been narrowed before
  generalize (g.reachableChoices.mapM attachTable g).2 = h at hnarrowing hexact
  have hagain : ∀ e ∈ h.reachableChoices, (h.table? e).isSome ∨ ¬h.Narrows e := by
    intro e he
    have hbody := (hexact.inBodies_iff e).mp (mem_reachableChoices.mp he).2
    rcases hold : g.table? e with - | table
    · refine or_iff_not_imp_left.mpr fun hnone hnarrows ↦ hnone ?_
      rw [hnarrowing.narrows_iff hg (hbody.lt hg)] at hnarrows
      exact (hexact.isSome_iff e hold).mpr ⟨hbody, hnarrows⟩
    · rw [hexact.table?_eq e table hold]
      exact .inl rfl
  obtain ⟨hsame, hnone⟩ := ensures_mapM_again (hnarrowing.wellFormed hg) hagain
  exact Prod.ext (List.count_eq_zero.mpr hnone) hsame

/-- `S = ('a' 'b' / 'b' / 'a' S) ('a'? / 'a'?) ('b' / 'a')`, where the last choice has a table.
Another choice is an operand of no body. -/
def partlyAttached : Grammar where
  nodes := #[⟨.byte 97, .synthetic⟩, ⟨.byte 98, .synthetic⟩, ⟨.reference 0, .synthetic⟩,
    ⟨.sequence [0, 1], .synthetic⟩, ⟨.sequence [0, 2], .synthetic⟩,
    ⟨.choice [3, 1, 4], .synthetic⟩, ⟨.optional 0, .synthetic⟩, ⟨.choice [6, 6], .synthetic⟩,
    ⟨.choice [1, 0], .synthetic⟩, ⟨.sequence [5, 7, 8], .synthetic⟩, ⟨.choice [0, 1], .synthetic⟩]
  rules := #[{ name := "S", body := some 9 }]
  tables := ({} : Std.TreeMap ExprId JumpTable).insert 8 (List.replicate slotCount 8)

/-- One choice gains a table, for which a node is made; the others have one, want none, or are
operands of no body. -/
theorem attachTables_exact_partlyAttached :
    partlyAttached.WellFormed ∧ ∃ h, partlyAttached.AttachesExactly h ∧
      attachTables partlyAttached = (1, h) ∧ attachTables h = (0, h) ∧
      partlyAttached.size < h.size ∧ (h.table? 5).isSome ∧ h.table? 7 = none ∧
      h.table? 8 = some (List.replicate slotCount 8) ∧ h.table? 10 = none := by
  have hg : partlyAttached.WellFormed := by decide
  obtain ⟨h, hexact, hfirst, hagain⟩ := attachTables_exact hg
  have hcheck : (attachTables partlyAttached).1 = 1 ∧
      partlyAttached.size < (attachTables partlyAttached).2.size ∧
      ((attachTables partlyAttached).2.table? 5).isSome ∧
      ((attachTables partlyAttached).2.table? 7).isNone ∧
      ((attachTables partlyAttached).2.table? 10).isNone := by decide +kernel
  rw [hfirst] at hcheck
  obtain ⟨hgained, hsize, h5, h7, h10⟩ := hcheck
  have hkept : h.table? 8 = some (List.replicate slotCount 8) := by
    refine hexact.table?_eq 8 _ ?_
    simp [table?, partlyAttached]
  have hfirst' : attachTables partlyAttached = (1, h) := hfirst.trans (Prod.ext hgained rfl)
  exact ⟨hg, h, hexact, hfirst', hagain, hsize, h5,
    Option.isNone_iff_eq_none.mp h7, hkept, Option.isNone_iff_eq_none.mp h10⟩

end Grammar

end ParsingMachine
