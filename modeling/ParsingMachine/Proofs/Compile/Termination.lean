import Mathlib.Data.Fintype.EquivFin
import Mathlib.Order.WellFounded
import ParsingMachine.Proofs.Compile.Asks
import ParsingMachine.Proofs.Compile.Correctness
import ParsingMachine.Proofs.Grammar.Correspond

/-!
# When compiling ends

`Grammar.Enters` tells which nodes encoding a node enters, seen through the nodes that factoring
makes on the way. It is a relation on the nodes of the grammar that is compiled, so there are
finitely many, and encoding ends unless one of them is entered again on the way down from itself
(`Grammar.Reenters`).

That operands come before their nodes is not enough. A choice with a jump table enters the choices
to which the table leads, which are new nodes, and factoring such a choice may bring back the choice
whose table is being encoded. Nothing else goes up: without factoring, or without jump tables, every
way down ends.

The condition is exact. If every way down from a node ends, there is a depth from which on encoding
ends in every session for the grammar. Each node on a way down is a different one, so their number
is bounded by that of the nodes, and between two of them lie the nodes that factoring made, of which
there are few. The depth of compiling is enough for this (`rank_mul_le_encodingDepth`). If some way
down does not end, no depth is enough, by induction on the depth: a node that is encoded has its
demands met, within a smaller depth, unless they are settled.

New nodes have other ids in each session, so the relation is on old nodes only, and a new node
stands for the old ones of which it is made (`Grammar.Embeds`). A demand enters the same old nodes
in every larger grammar (`Grammar.enters_iff_of_grows`).

Which rules count is decided by compiling itself, which stops at the first rule without a body.

## Main statements

* `Grammar.grounded_iff`: every way down from a node ends unless some node is entered again.
* `Grammar.grounded_of_plain`: every way down ends without factoring, and without jump tables.
* `Encoder.terminates_of_grounded`: where every way down ends, encoding does, from a known depth on.
* `Encoder.exhausts`: where some way down does not end, no depth is enough.
* `isSome_compile_of_plain`: without factoring, or without jump tables, compiling returns.
* `isSome_compile_iff`: exactly when compiling returns.
-/

namespace ParsingMachine

open Encoder Session

/-! ### Entering nodes -/

/-- The nodes that are entered to meet a demand. Of a factored choice these are the old nodes it is
made of. -/
def Demand.Enters (g : Grammar) (o : Options) : Demand → ExprId → Prop
  | node e, x => x = e
  | factored choice, x =>
    match g.factored? o choice with
    | some e => Grammar.Embeds g.size (Grammar.factorCommonHead choice g).2 e x
    | none => x ∈ (g.op choice).children

namespace Grammar

variable {g h : Grammar} {o : Options} {e x : ExprId}

/-- The nodes that are entered to encode a node. -/
def Enters (g : Grammar) (o : Options) (e x : ExprId) : Prop :=
  ∃ demand ∈ g.demands e, demand.Enters g o x

/-- Below a node some node is entered again on the way down from itself. -/
def Reenters (g : Grammar) (o : Options) (e : ExprId) : Prop :=
  ∃ x, Relation.ReflTransGen (g.Enters o) e x ∧ Relation.TransGen (g.Enters o) x x

/-- Every way down from a node ends. -/
def Grounded (g : Grammar) (o : Options) (e : ExprId) : Prop :=
  Acc (fun x e ↦ g.Enters o e x) e

/-- The nodes of which a node is made take part in matching it. -/
theorem Embeds.reach {n : Nat} (h : Embeds n g e x) : g.Reach e x :=
  Relation.ReflTransGen.mono (fun _ _ hab ↦ mem_successors_of_mem_children hab.2) e x h.2

theorem Embeds.extends {n : Nat} (hgh : g.Extends h) (hg : g.WellFormed) (he : e < g.size)
    (hx : Embeds n g e x) : Embeds n h e x := by
  obtain ⟨hlt, hpath⟩ := hx
  refine ⟨hlt, ?_⟩
  induction hpath using Relation.ReflTransGen.head_induction_on with
  | refl => exact .refl
  | @head a b hstep _ ih =>
    refine .head ⟨hstep.1, ?_⟩ (ih (Nat.lt_trans (hg.child_lt hstep.2) he))
    rw [hgh.op_eq a he]
    exact hstep.2

theorem factored?_eq_some {choice factored : ExprId} (h : g.factored? o choice = some factored) :
    (factorCommonHead choice g).1 = some factored := by
  unfold factored? at h
  split at h
  · exact h
  · cases h

/-- To meet a demand for a choice nodes are entered that take part in matching an alternative. -/
theorem reach_of_factored (hg : g.WellFormed) {choice : ExprId} {alts : List ExprId}
    (hop : g.op choice = .choice alts) (hx : (Demand.factored choice).Enters g o x) :
    ∃ alt ∈ alts, g.Reach alt x := by
  simp only [Demand.Enters] at hx
  split at hx
  · exact reach_of_embeds hg hop (factored?_eq_some ‹_›) hx
  · rw [hop] at hx
    exact ⟨x, hx, .refl⟩

/-- What is entered takes part in matching, except the nodes that fail in jump tables. -/
theorem Enters.reach (hg : g.Sound) (hx : g.Enters o e x) :
    (x < g.size ∧ g.op x = .fail) ∨ ∃ c ∈ g.successors e, g.Reach c x := by
  obtain ⟨demand, hdemand, hx⟩ := hx
  unfold demands at hdemand
  split at hdemand
  · rename_i table htable
    obtain ⟨target, htarget, rfl⟩ := List.mem_map.mp hdemand
    obtain ⟨slot, hentry⟩ := (hg.tables e table htable).exists_entry htarget
    obtain ⟨alts, hop, hshape⟩ := hentry.shape
    have hsucc (alt : ExprId) (halt : alt ∈ alts) : alt ∈ g.successors e := by rwa [successors, hop]
    unfold entryDemand at hx
    split at hx
    · obtain ⟨subset, hsubset⟩ := exists_choice_of_isChoice ‹_›
      obtain ⟨alt, halt, hreach⟩ := reach_of_factored hg.wellFormed hsubset hx
      rcases hshape with rfl | hmem | hfail | ⟨_, hsubset', hsub⟩
      · rw [hsubset] at hop
        cases hop
        exact .inr ⟨alt, hsucc alt halt, hreach⟩
      · exact .inr ⟨target, hsucc target hmem, .head (by rwa [successors, hsubset]) hreach⟩
      · rw [hsubset] at hfail
        cases hfail
      · rw [hsubset] at hsubset'
        cases hsubset'
        exact .inr ⟨alt, hsucc alt (hsub.subset halt), hreach⟩
    · rename_i hchoice
      obtain rfl : x = target := hx
      rcases hshape with rfl | hmem | hfail | ⟨_, hsubset, -⟩
      · exact absurd (by rw [hop]; rfl) hchoice
      · exact .inr ⟨x, hsucc x hmem, .refl⟩
      · exact .inl ⟨hentry.lt, hfail⟩
      · exact absurd (by rw [hsubset]; rfl) hchoice
  · obtain ⟨child, hchild, rfl⟩ := List.mem_map.mp hdemand
    obtain rfl : x = child := hx
    exact .inr ⟨x, mem_successors_of_mem_children hchild, .refl⟩

/-- Where every way down ends, none leads back. -/
theorem Grounded.not_transGen (h : g.Grounded o e) : ¬Relation.TransGen (g.Enters o) e e := by
  have hacc := Acc.transGen h
  induction hacc with
  | intro e _ ih =>
    intro hcycle
    exact ih e (Relation.transGen_swap.mpr hcycle) h hcycle

/-- A node that fails asks for nothing. -/
theorem grounded_of_fail (hg : g.Sound) (hop : g.op e = .fail) : g.Grounded o e := by
  refine .intro e fun x hx ↦ ?_
  obtain ⟨demand, hdemand, -⟩ := hx
  rw [demands_eq_children hg.tables (by simp [hop]), hop] at hdemand
  cases hdemand

/-- From a settled node every way down ends. -/
theorem Settled.grounded (hg : g.Sound) (he : g.Settled e) : g.Grounded o e := by
  have hacc := Acc.transGen he
  induction hacc with
  | intro e _ ih =>
    refine .intro e fun x hx ↦ ?_
    rcases hx.reach hg with ⟨-, hfail⟩ | ⟨c, hc, hreach⟩
    · exact grounded_of_fail hg hfail
    · have htrans : Relation.TransGen (fun e x ↦ x ∈ g.successors e) e x := .head' hc hreach
      exact ih x (Relation.transGen_swap.mpr htrans) (Settled.reach (he.inv hc) hreach)

/-- What is entered are nodes. -/
theorem Enters.lt (hg : g.Sound) (he : e < g.size) (hx : g.Enters o e x) : x < g.size := by
  rcases hx.reach hg with ⟨hlt, -⟩ | ⟨c, hc, hreach⟩
  · exact hlt
  · exact reach_lt hg.wellFormed (successors_lt hg.wellFormed he hc) hreach

/-- The nodes are finitely many, so a way down that does not end comes to some node again. -/
theorem grounded_iff (hg : g.Sound) (he : e < g.size) : g.Grounded o e ↔ ¬g.Reenters o e := by
  constructor
  · rintro hacc ⟨x, hpath, hcycle⟩
    have hx : g.Grounded o x := by
      clear hcycle
      induction hpath with
      | refl => exact hacc
      | tail _ hstep ih => exact ih.inv hstep
    exact hx.not_transGen hcycle
  · intro hnot
    -- the ways down from `e` are a relation on finitely many nodes, and no node is below itself
    let below (y x : Fin g.size) : Prop :=
      Relation.ReflTransGen (g.Enters o) e x.val ∧ Relation.TransGen (g.Enters o) x.val y.val
    have hirrefl : Std.Irrefl below := ⟨fun x hx ↦ hnot ⟨x.val, hx⟩⟩
    have htrans : IsTrans (Fin g.size) below := ⟨fun _ _ _ hzy hyx ↦ ⟨hyx.1, hyx.2.trans hzy.2⟩⟩
    have hwf : WellFounded below := Finite.wellFounded_of_trans_of_irrefl below
    have key (x : Fin g.size) (hx : Relation.ReflTransGen (g.Enters o) e x.val) :
        g.Grounded o x.val := by
      induction x using hwf.induction with
      | _ x ih =>
        refine .intro x.val fun y hy ↦ ?_
        exact ih ⟨y, hy.lt hg x.isLt⟩ ⟨hx, .single hy⟩ (hx.tail hy)
    exact key ⟨e, he⟩ .refl

/-- Without factoring, or without jump tables, operands are entered, or nodes that fail. -/
theorem Enters.lt_or_fail (hg : g.Sound) (hplain : o.commonHead = false ∨ ∀ e, g.table? e = none)
    (hx : g.Enters o e x) : x < e ∨ g.op x = .fail := by
  obtain ⟨demand, hdemand, hx⟩ := hx
  unfold demands at hdemand
  split at hdemand
  · rename_i table htable
    have ho : o.commonHead = false := hplain.resolve_right fun hnone ↦ by simp [hnone] at htable
    obtain ⟨target, htarget, rfl⟩ := List.mem_map.mp hdemand
    obtain ⟨slot, hentry⟩ := (hg.tables e table htable).exists_entry htarget
    obtain ⟨alts, hop, hshape⟩ := hentry.shape
    have halts (alt : ExprId) (halt : alt ∈ alts) : alt < e :=
      hg.wellFormed.child_lt (by rwa [hop])
    have hfactored : g.factored? o target = none := by simp [factored?, ho]
    unfold entryDemand at hx
    split at hx
    · simp only [Demand.Enters, hfactored] at hx
      rcases hshape with rfl | hmem | hfail | ⟨subset, hsubset, hsub⟩
      · exact .inl (hg.wellFormed.child_lt hx)
      · exact .inl (Nat.lt_trans (hg.wellFormed.child_lt hx) (halts target hmem))
      · rw [hfail] at hx
        cases hx
      · rw [hsubset] at hx
        exact .inl (halts x (hsub.subset hx))
    · rename_i hchoice
      obtain rfl : x = target := hx
      rcases hshape with rfl | hmem | hfail | ⟨subset, hsubset, -⟩
      · exact absurd (by rw [hop]; rfl) hchoice
      · exact .inl (halts x hmem)
      · exact .inr hfail
      · exact absurd (by rw [hsubset]; rfl) hchoice
  · obtain ⟨child, hchild, rfl⟩ := List.mem_map.mp hdemand
    obtain rfl : x = child := hx
    exact .inl (hg.wellFormed.child_lt hchild)

/-- So every way down ends, by induction on the node. -/
theorem grounded_of_plain (hg : g.Sound) (hplain : o.commonHead = false ∨ ∀ e, g.table? e = none)
    (e : ExprId) : g.Grounded o e := by
  induction e using Nat.strongRecOn with
  | _ e ih =>
    refine .intro e fun x hx ↦ ?_
    rcases hx.lt_or_fail hg hplain with hlt | hfail
    · exact ih x hlt
    · exact grounded_of_fail hg hfail

/-! ### Depth -/

open Classical in
/-- The number of nodes on the ways down from a node. -/
noncomputable def rank (g : Grammar) (o : Options) (e : ExprId) : Nat :=
  ((Finset.range g.size).filter fun x ↦ Relation.ReflTransGen (g.Enters o) e x).card

open Classical in
/-- There are no more of them than nodes. -/
theorem rank_le (g : Grammar) (o : Options) (e : ExprId) : g.rank o e ≤ g.size :=
  (Finset.card_filter_le _ _).trans_eq (Finset.card_range _)

open Classical in
theorem rank_pos (o : Options) (he : e < g.size) : 0 < g.rank o e :=
  Finset.card_pos.mpr ⟨e, Finset.mem_filter.mpr ⟨Finset.mem_range.mpr he, .refl⟩⟩

open Classical in
/-- Where every way down ends, fewer nodes lie below a node that is entered. -/
theorem rank_lt (he : e < g.size) (h : g.Grounded o e) (hx : g.Enters o e x) :
    g.rank o x < g.rank o e := by
  refine Finset.card_lt_card (Finset.ssubset_iff_of_subset (fun y hy ↦ ?_) |>.mpr
    ⟨e, ?_, fun hmem ↦ ?_⟩)
  · obtain ⟨hy, hpath⟩ := Finset.mem_filter.mp hy
    exact Finset.mem_filter.mpr ⟨hy, .head hx hpath⟩
  · exact Finset.mem_filter.mpr ⟨Finset.mem_range.mpr he, .refl⟩
  · obtain ⟨-, hpath⟩ := Finset.mem_filter.mp hmem
    exact h.not_transGen (.head' hx hpath)

theorem length_le_weight {alts : List ExprId} (hop : g.op e = .choice alts) :
    alts.length ≤ g.weight := by
  have hlt : e < g.size := lt_size_of_op_ne (by simp [hop])
  have hle := Graph.length_le_edgeCount (fun e ↦ (g.op e).children) hlt
  rw [hop] at hle
  exact Nat.le_trans hle (Nat.le_add_left _ _)

/-! ### Larger grammars -/

/-- In a larger grammar the same old nodes are entered to meet a demand. -/
theorem enters_iff_of_grows (hg : g.WellFormed) (hgh : g.Grows h) {demand : Demand}
    (hroot : demand.root < g.size) : demand.Enters h o x ↔ demand.Enters g o x := by
  cases demand with
  | node e => exact .rfl
  | factored choice =>
    have hembeds := embeds_iff_of_grows hg hgh hroot
    simp only [Demand.Enters, factored?]
    by_cases ho : o.commonHead
    · rw [if_pos ho, if_pos ho]
      simp only [Demand.root] at hembeds
      generalize (factorCommonHead choice g).1 = a, (factorCommonHead choice h).1 = b at hembeds ⊢
      cases hembeds with
      | none => rw [hgh.op_eq choice hroot]
      | some hiff => exact (hiff x).symm
    · rw [if_neg ho, if_neg ho, hgh.op_eq choice hroot]

/-- To encode a new node its operands are asked for. -/
theorem Records.demands_of_size_le (hgh : g.Records h) (hg : g.Sound) (he : g.size ≤ e) :
    h.demands e = (h.op e).children.map .node := by
  unfold demands
  split
  · rename_i table htable
    rw [table?, hgh.tables_eq] at htable
    obtain ⟨alts, hop⟩ := (hg.tables e table htable).exists_choice
    exact absurd (lt_size_of_op_ne (by simp [hop])) (Nat.not_lt.mpr he)
  · rfl

/-- What is asked for are nodes, and choices where a factored form is asked for. -/
theorem suits_of_mem_demands (hg : g.Sound) (he : e < g.size) {demand : Demand}
    (hdemand : demand ∈ g.demands e) : demand.Suits g := by
  unfold demands at hdemand
  split at hdemand
  · rename_i table htable
    obtain ⟨target, htarget, rfl⟩ := List.mem_map.mp hdemand
    obtain ⟨slot, hentry⟩ := (hg.tables e table htable).exists_entry htarget
    have hlt := hentry.lt
    unfold entryDemand
    split
    · refine ⟨hlt, fun choice hchoice ↦ ?_⟩
      cases hchoice
      exact exists_choice_of_isChoice ‹_›
    · exact ⟨hlt, fun _ h ↦ nomatch h⟩
  · obtain ⟨child, hchild, rfl⟩ := List.mem_map.mp hdemand
    exact ⟨Nat.lt_trans (hg.wellFormed.child_lt hchild) he, fun _ h ↦ nomatch h⟩

end Grammar

/-! ### Sessions -/

/-- A session for a grammar, with what was added to the grammar so far. -/
structure Session.Over (s : Session) (g : Grammar) (o : Options) : Prop where
  /-- The grammar has grown. -/
  records : g.Records s.grammar
  /-- The options. -/
  options_eq : s.options = o

namespace Session.Over

variable {s s' : Session} {g : Grammar} {o : Options}

theorem sound (h : s.Over g o) (hg : g.Sound) : s.grammar.Sound :=
  hg.records h.records

theorem widens (h : s.Over g o) (h' : s.Widens s') : s'.Over g o :=
  ⟨h.records.trans h'.records, h'.options_eq.trans h.options_eq⟩

end Session.Over

namespace Encoder

variable {s : Session} {e : ExprId} {next : InstrId}

/-- A terminal is encoded within any depth but none. -/
theorem isSome_encode_of_isTerminal (hterminal : (s.grammar.op e).isTerminal) (depth : Nat) :
    (encode (depth + 1) e next s).isSome := by
  simp only [encode, nodeCode, options_bind, grammar_bind]
  cases hop : s.grammar.op e with rw [hop] at hterminal
  | anyByte | byte _ | byteClass _ => rfl
  | _ => cases hterminal

theorem widening_encode (depth : Nat) : Widening (encode depth) := by
  induction depth with
  | zero => exact fun _ _ _ _ _ _ _ h ↦ (nomatch h)
  | succ depth ih =>
    exact fun s hs e he next pc s' h ↦ ((asks_nodeCode hs he).widens _ ih pc s' h).1

/-- Encoding a node ends if what it asks for does. -/
theorem isSome_encode_of_demands {depth : Nat} (hs : s.grammar.Sound) (he : e < s.grammar.size)
    (hdepth : 0 < depth) (h : ∀ s', s.Widens s' → ∀ demand ∈ s.grammar.demands e, ∀ next,
      (demand.code (encode depth) next s').isSome) : (encode (depth + 1) e next s).isSome := by
  obtain ⟨depth, rfl⟩ := Nat.exists_eq_add_one_of_ne_zero (Nat.ne_of_gt hdepth)
  exact (asks_nodeCode hs he).ends _ (widening_encode _) h fun _ _ _ hterminal _ ↦
    isSome_encode_of_isTerminal hterminal depth

/-! ### Ways down that end -/

variable {g k : Grammar} {o : Options} {x y : ExprId} {n bound depth : Nat}

/-- Encoding a node ends in every session for a grammar, from some depth on. -/
def Terminates (g : Grammar) (o : Options) (bound : Nat) (e : ExprId) : Prop :=
  ∀ depth ≥ bound, ∀ s : Session, s.Over g o → ∀ next, (encode depth e next s).isSome

/-- A node below another one needs one level less. -/
theorem bound_le {bound depth n y child : Nat} (h : child < y) (hn : ¬y < n)
    (hdepth : bound + (y + 1 - n) ≤ depth + 1) : bound + (child + 1 - n) ≤ depth := by
  omega

/-- The new nodes that factoring makes need few levels. -/
theorem bound_le_of_weight {bound depth size n factored length weight : Nat} (hlt : factored < size)
    (hsize : size ≤ n + (4 * length + 1)) (hlength : length ≤ weight)
    (hdepth : bound + (4 * weight + 1) ≤ depth) : bound + (factored + 1 - n) ≤ depth := by
  omega

/-- Encoding a new node ends if encoding the old ones that it is made of does. -/
theorem terminates_of_embeds (hg : g.Sound) (hgk : g.Records k) (hn : g.size ≤ n) (hy : y < k.size)
    (hbound : 0 < bound) (h : ∀ x, Grammar.Embeds n k y x → Terminates g o bound x) :
    Terminates k o (bound + (y + 1 - n)) y := by
  have hk : k.Sound := hg.records hgk
  induction y using Nat.strongRecOn with
  | _ y ih =>
    intro depth hdepth s hs next
    -- a new node takes one level and leaves the others to its operands, which are smaller
    by_cases hlt : y < n
    · exact h y ⟨hlt, .refl⟩ depth (Nat.le_trans (Nat.le_add_right _ _) hdepth) s
        ⟨hgk.trans hs.records, hs.options_eq⟩ next
    · obtain ⟨depth, rfl⟩ := Nat.exists_eq_add_one_of_ne_zero (n := depth) (by omega)
      have hdemands : s.grammar.demands y = (k.op y).children.map .node := by
        rw [hs.records.demands_eq hk.tables hy]
        exact hgk.demands_of_size_le hg (Nat.le_trans hn (Nat.le_of_not_lt hlt))
      refine isSome_encode_of_demands (hs.sound hk) (Nat.lt_of_lt_of_le hy hs.records.size_le)
        (by omega) fun s' hs' demand hdemand next ↦ ?_
      rw [hdemands] at hdemand
      obtain ⟨child, hchild, rfl⟩ := List.mem_map.mp hdemand
      have hless : child < y := hk.wellFormed.child_lt hchild
      have hembeds (x : ExprId) (hx : Grammar.Embeds n k child x) : Grammar.Embeds n k y x :=
        ⟨hx.1, .head ⟨Nat.le_of_not_lt hlt, hchild⟩ hx.2⟩
      exact ih child hless (Nat.lt_trans hless hy) (fun x hx ↦ h x (hembeds x hx)) depth
        (bound_le hless hlt hdepth) s' (hs.widens hs') next

/-- A demand is met if encoding the nodes that are entered ends. -/
theorem isSome_code_of_enters (hg : g.Sound) (hs : s.Over g o) {demand : Demand}
    (hsuits : demand.Suits g) (hbound : 0 < bound)
    (h : ∀ x, demand.Enters g o x → Terminates g o bound x)
    (hdepth : bound + (4 * g.weight + 1) ≤ depth) : (demand.code (encode depth) next s).isSome := by
  have hs' := hs.sound hg
  have hle := Nat.le_trans (Nat.le_add_right _ _) hdepth
  cases demand with
  | node e => exact h e rfl depth hle s hs next
  | factored choice =>
    have henters (x : ExprId) (hx : (Demand.factored choice).Enters s.grammar s.options x) :
        Terminates g o bound x := by
      rw [hs.options_eq, Grammar.enters_iff_of_grows hg.wellFormed hs.records.toGrows
        hsuits.root_lt] at hx
      exact h x hx
    simp only [Demand.Enters] at henters
    obtain ⟨alts, hop⟩ := hsuits.choice choice rfl
    have hop' : s.grammar.op choice = .choice alts :=
      (hs.records.op_eq choice hsuits.root_lt).trans hop
    cases hfactored : s.grammar.factored? s.options choice with
    | none =>
      simp only [hfactored] at henters
      -- one level is left, which is enough for a terminal
      obtain ⟨depth, rfl⟩ := Nat.exists_eq_add_one_of_ne_zero
        (Nat.ne_of_gt (Nat.lt_of_lt_of_le hbound hle))
      refine (asks_factoredCode hs' hop' hfactored).ends _ (widening_encode _)
        (fun s₁ h₁ demand hdemand next ↦ ?_)
        fun _ _ _ hterminal _ ↦ isSome_encode_of_isTerminal hterminal depth
      obtain ⟨alt, halt, rfl⟩ := List.mem_map.mp hdemand
      exact henters alt (by rwa [hop']) _ hle s₁ (hs.widens h₁) next
    | some factored =>
      simp only [hfactored] at henters
      obtain ⟨hwidens, hlt⟩ := widens_of_factored? hs' hfactored
      have hterminates := terminates_of_embeds hg (hs.widens hwidens).records hs.records.size_le
        hlt hbound henters
      have hbound := bound_le_of_weight hlt (Grammar.size_factorCommonHead_le hop')
        (Grammar.length_le_weight hop) hdepth
      rw [Demand.code, factoredCode_eq_of_factored? hfactored]
      refine hterminates depth hbound _ ⟨.refl (hwidens.sound hs').simplified, ?_⟩ next
      exact (hs.widens hwidens).options_eq

/-- Where every way down ends, encoding does. Each node on a way down is another one, and takes one
level of recursion and as many as factoring makes new nodes. -/
theorem terminates_of_grounded (hg : g.Sound) (he : e < g.size) (h : g.Grounded o e) :
    Terminates g o (g.rank o e * (4 * g.weight + 16) + 1) e := by
  induction h with
  | intro e hacc ih =>
    intro depth hdepth s hs next
    obtain ⟨r, hr⟩ := Nat.exists_eq_add_one_of_ne_zero (Nat.ne_of_gt (Grammar.rank_pos o he))
    rw [hr, Nat.succ_mul] at hdepth
    obtain ⟨depth, rfl⟩ := Nat.exists_eq_add_one_of_ne_zero (n := depth) (by omega)
    refine isSome_encode_of_demands (hs.sound hg) (Nat.lt_of_lt_of_le he hs.records.size_le)
      (by omega) fun s' hs' demand hdemand next ↦ ?_
    rw [hs.records.demands_eq hg.tables he] at hdemand
    have hsuits := Grammar.suits_of_mem_demands hg he hdemand
    -- what is entered has fewer nodes below it, so the levels for one node less are enough
    have henters (x : ExprId) (hx : demand.Enters g o x) :
        Terminates g o (r * (4 * g.weight + 16) + 1) x := by
      have hstep : g.Enters o e x := ⟨demand, hdemand, hx⟩
      have hlt := Grammar.rank_lt he (.intro e hacc) hstep
      rw [hr] at hlt
      have hrank := Nat.mul_le_mul_right (4 * g.weight + 16) (Nat.le_of_lt_succ hlt)
      exact fun depth hdepth ↦
        ih x hstep (hstep.lt hg he) depth (Nat.le_trans (Nat.succ_le_succ hrank) hdepth)
    exact isSome_code_of_enters hg (hs.widens hs') hsuits (Nat.succ_pos _) henters (by omega)

/-! ### Ways down that do not end -/

/-- Within a depth nothing is answered for what is made of a node from which some way down does not
end. -/
def Exhausts (g : Grammar) (o : Options) (depth : Nat) : Prop :=
  ∀ s : Session, s.Over g o → ∀ n ≥ g.size, ∀ y < s.grammar.size, ∀ x < g.size,
    Grammar.Embeds n s.grammar y x → ¬g.Grounded o x → ∀ next, encode depth y next s = none

/-- A settled node is made of nodes from which every way down ends. -/
theorem grounded_of_settled (hg : g.Sound) (hs : s.Over g o) (hy : s.grammar.Settled y)
    (hx : s.grammar.Reach y x) (hlt : x < g.size) : g.Grounded o x :=
  ((hs.records.toExtends.settled_iff hg.wellFormed hlt).mp (hy.reach hx)).grounded hg

/-- What was encoded is made of nodes from which every way down ends. -/
theorem Exhausts.grounded_of_isSome {depth : Nat} (hd : Exhausts g o depth) (hs : s.Over g o)
    (hn : g.size ≤ n) (hy : y < s.grammar.size) (hsome : (encode depth y next s).isSome)
    (hx : Grammar.Embeds n s.grammar y x)
    (hlt : x < g.size) : g.Grounded o x := by
  by_contra hnot
  rw [hd s hs n hn y hy x hlt hx hnot next] at hsome
  cases hsome

/-- A demand that was met entered only nodes from which every way down ends. -/
theorem Exhausts.grounded_of_enters {depth : Nat} (hd : Exhausts g o depth) (hg : g.Sound)
    (hs : s.Over g o)
    {demand : Demand} (hsuits : demand.Suits g)
    (hended : s.grammar.Settled demand.root ∨ ∃ next, (demand.code (encode depth) next s).isSome)
    (hx : demand.Enters g o x) (hlt : x < g.size) : g.Grounded o x := by
  have hs' := hs.sound hg
  have hx' := (Grammar.enters_iff_of_grows hg.wellFormed hs.records.toGrows hsuits.root_lt).mpr hx
  have hlt' := Nat.lt_of_lt_of_le hlt hs.records.size_le
  cases demand with
  | node e =>
    obtain rfl : x = e := hx
    rcases hended with hsettled | ⟨next, hsome⟩
    · exact grounded_of_settled hg hs hsettled .refl hlt
    · exact hd.grounded_of_isSome hs (Nat.le_refl _) hlt' hsome ⟨hlt, .refl⟩ hlt
  | factored choice =>
    obtain ⟨alts, hop⟩ := hsuits.choice choice rfl
    have hop' : s.grammar.op choice = .choice alts :=
      (hs.records.op_eq choice hsuits.root_lt).trans hop
    rcases hended with hsettled | ⟨next, hsome⟩
    · obtain ⟨alt, halt, hreach⟩ := Grammar.reach_of_factored hs'.wellFormed hop' hx'
      have halt' : alt ∈ s.grammar.successors choice := by rwa [Grammar.successors, hop']
      exact grounded_of_settled hg hs hsettled (.head halt' hreach) hlt
    · rw [← hs.options_eq] at hx'
      simp only [Demand.Enters] at hx'
      -- without common beginnings the alternatives are entered, else what the factored choice is
      -- made of
      cases hfactored : s.grammar.factored? s.options choice with rw [hfactored] at hx'
      | none =>
        rw [hop'] at hx'
        obtain ⟨s₁, h₁, hended⟩ := (asks_factoredCode hs' hop' hfactored).ended (encode depth)
          (widening_encode depth) hsome (.node x) (List.mem_map.mpr ⟨x, hx', rfl⟩)
        rcases hended with hsettled | ⟨next, hsome⟩
        · exact grounded_of_settled hg (hs.widens h₁) hsettled .refl hlt
        · exact hd.grounded_of_isSome (hs.widens h₁) (Nat.le_refl _) (h₁.lt_size hlt') hsome
            ⟨hlt, .refl⟩ hlt
      | some factored =>
        obtain ⟨hwidens, hf⟩ := widens_of_factored? hs' hfactored
        rw [Demand.code, factoredCode_eq_of_factored? hfactored] at hsome
        exact hd.grounded_of_isSome (hs.widens hwidens) hs.records.size_le hf hsome hx' hlt

/-- By induction on the depth, through the demands of the node. -/
theorem exhausts (hg : g.Sound) (depth : Nat) : Exhausts g o depth := by
  induction depth with
  | zero => exact fun _ _ _ _ _ _ _ _ _ _ _ ↦ rfl
  | succ depth ih =>
    intro s hs n hn y hy x hx hembeds hnot next
    have hs' := hs.sound hg
    by_contra hsome
    have hasks : Asks (fun recur ↦ nodeCode recur y next) s _ _ := asks_nodeCode hs' hy
    have hended := hasks.ended (encode depth) (widening_encode depth)
      (Option.isSome_iff_ne_none.mpr hsome)
    obtain ⟨hxn, hpath⟩ := hembeds
    rcases Relation.ReflTransGen.cases_head hpath with rfl | ⟨child, ⟨hny, hchild⟩, hpath⟩
    -- an old node: all that it asks for has ended, so it would be grounded itself
    · refine hnot (.intro y fun z hz ↦ ?_)
      obtain ⟨demand, hdemand, hz'⟩ := hz
      have hsuits := Grammar.suits_of_mem_demands hg hx hdemand
      rw [hs.records.demands_eq hg.tables hx] at hended
      obtain ⟨s', h', hended⟩ := hended demand hdemand
      exact ih.grounded_of_enters hg (hs.widens h') hsuits hended hz'
        (Grammar.Enters.lt hg hx ⟨demand, hdemand, hz'⟩)
    -- a new node: it asks for the operand through which the old node is reached
    · rw [hs.records.demands_of_size_le hg (Nat.le_trans hn hny)] at hended
      obtain ⟨s', h', hended⟩ := hended (.node child) (List.mem_map.mpr ⟨child, hchild, rfl⟩)
      have hless := Nat.lt_trans (hs'.wellFormed.child_lt hchild) hy
      have hembeds := Grammar.Embeds.extends h'.records.toExtends hs'.wellFormed hless ⟨hxn, hpath⟩
      rcases hended with hsettled | ⟨next, hsome⟩
      · exact hnot (grounded_of_settled hg (hs.widens h') hsettled hembeds.reach hx)
      · exact hnot (ih.grounded_of_isSome (hs.widens h') hn (h'.lt_size hless) hsome hembeds hx)

end Encoder

/-! ### Rules -/

/-- A session for a grammar in which every way down from the body of a compiled rule ends. -/
structure Session.Descended (s : Session) (g : Grammar) (o : Options) : Prop
    extends s.Over g o where
  /-- Compiled rules are defined. -/
  blocks : ∀ block ∈ s.blocks, ∃ body, g.body? block.rule = some body ∧ g.Grounded o body

section

variable {s s' : Session} {g : Grammar} {o : Options} {rule : RuleId} {rules : List RuleId}
    {body : ExprId}

theorem Session.Descended.addBlock (hs : s.Descended g o) (h : s.Widens s')
    (hbody : g.body? rule = some body)
    (hgrounded : g.Grounded o body) (head : InstrId) : (s'.addBlock rule head).Descended g o where
  records := (hs.widens h).records
  options_eq := (hs.widens h).options_eq
  blocks block hblock := by
    rcases Array.mem_push.mp hblock with hblock | rfl
    · rw [h.blocks_eq] at hblock
      exact hs.blocks block hblock
    · exact ⟨body, hbody, hgrounded⟩

theorem Session.Descended.of_isSome_block? (hs : s.Descended g o) (h : (s.block? rule).isSome) :
    ∃ body, g.body? rule = some body ∧ g.Grounded o body := by
  obtain ⟨block, hblock⟩ := Option.isSome_iff_exists.mp h
  obtain rfl : block.rule = rule := by simpa using Array.find?_some hblock
  exact hs.blocks block (Array.mem_of_find?_eq_some hblock)

/-- The depth of compiling is enough for every way down that ends. -/
theorem rank_mul_le_encodingDepth (g : Grammar) (o : Options) (e : ExprId) :
    g.rank o e * (4 * g.weight + 16) + 1 ≤ g.encodingDepth := by
  have hle := Nat.mul_le_mul_right (4 * g.weight + 16) (g.rank_le o e)
  rw [Grammar.encodingDepth, Nat.succ_mul g.size]
  omega

/-- Encoding a body from which every way down ends gives its rule a block. -/
theorem isSome_encodeRule (hg : g.Sound) (hs : s.Descended g o) (hdepth : g.encodingDepth ≤ s.depth)
    (hbody : g.body? rule = some body) (hgrounded : g.Grounded o body) :
    (Session.encodeRule rule body s).isSome := by
  have hret : s.Widens { s with code := s.code.push .ret none body } :=
    ⟨.refl (hs.sound hg).simplified, rfl, rfl, rfl⟩
  have hsome := terminates_of_grounded hg (hg.wellFormed.body_lt rule body hbody) hgrounded s.depth
    (Nat.le_trans (rank_mul_le_encodingDepth g o body) hdepth) _ (hs.widens hret) s.code.instrs.size
  obtain ⟨⟨head, s₂⟩, hhead⟩ := Option.isSome_iff_exists.mp hsome
  show (Option.bind (encode s.depth body s.code.instrs.size
    { s with code := s.code.push .ret none body }) _).isSome
  rw [hhead]
  rfl

/-- A rule gets a block only if every way down from its body ends. -/
theorem grounded_of_encodeRule (hg : g.Sound) (hs : s.Descended g o)
    (hbody : g.body? rule = some body)
    {u : Unit} (h : Session.encodeRule rule body s = some (u, s')) :
    g.Grounded o body ∧ s'.Descended g o ∧ s'.depth = s.depth := by
  obtain ⟨ret, s₁, head, s₂, hret, hhead, rfl⟩ := Session.exists_of_encodeRule h
  cases hret
  have hret : s.Widens { s with code := s.code.push .ret none body } :=
    ⟨.refl (hs.sound hg).simplified, rfl, rfl, rfl⟩
  have hs₁ := hs.widens hret
  have hlt := hg.wellFormed.body_lt rule body hbody
  have hlt' := Nat.lt_of_lt_of_le hlt hs₁.records.size_le
  have hgrounded := (exhausts hg _).grounded_of_isSome hs₁ (Nat.le_refl _) hlt'
    (Option.isSome_of_eq_some hhead) ⟨hlt, .refl⟩ hlt
  have h₂ := hret.trans (widening_encode _ _ (hs₁.sound hg) body hlt' _ _ _ hhead)
  exact ⟨hgrounded, hs.addBlock h₂ hbody hgrounded head, h₂.depth_eq⟩

/-- Compiling rules ends when every way down from the bodies up to the first undefined rule does. -/
theorem isSome_compileRules (hg : g.Sound) (hs : s.Descended g o)
    (hdepth : g.encodingDepth ≤ s.depth)
    (h : ∀ rule ∈ rules.takeWhile fun rule ↦ (g.body? rule).isSome,
      ∀ body, g.body? rule = some body → g.Grounded o body) : (s.compileRules rules).isSome := by
  induction rules generalizing s with
  | nil => rfl
  | cons rule rules ih =>
    rw [List.takeWhile_cons] at h
    rw [Session.compileRules, Session.compileRule]
    by_cases hblock : (s.block? rule).isSome
    · obtain ⟨body, hbody, -⟩ := hs.of_isSome_block? hblock
      rw [if_pos (by rw [hbody]; rfl)] at h
      rw [if_pos hblock]
      exact ih hs hdepth fun rule hrule ↦ h rule (List.mem_cons_of_mem _ hrule)
    · rw [if_neg hblock, hs.records.body?_eq]
      cases hbody : g.body? rule with
      | none => rfl
      | some body =>
        rw [if_pos (by rw [hbody]; rfl)] at h
        have hsome := isSome_encodeRule hg hs hdepth hbody (h rule List.mem_cons_self body hbody)
        obtain ⟨⟨u, s'⟩, hrule⟩ := Option.isSome_iff_exists.mp hsome
        obtain ⟨-, hs', hdepth'⟩ := grounded_of_encodeRule hg hs hbody hrule
        dsimp only
        rw [hrule]
        exact ih hs' (by rwa [hdepth']) fun rule hrule ↦ h rule (List.mem_cons_of_mem _ hrule)

/-- When compiling rules ended, every way down from the bodies up to the first undefined rule
does. -/
theorem grounded_of_isSome_compileRules (hg : g.Sound) (hs : s.Descended g o)
    (h : (s.compileRules rules).isSome) : ∀ rule ∈ rules.takeWhile fun rule ↦ (g.body? rule).isSome,
      ∀ body, g.body? rule = some body → g.Grounded o body := by
  induction rules generalizing s with
  | nil => exact fun _ hrule ↦ nomatch hrule
  | cons rule rules ih =>
    rw [List.takeWhile_cons]
    cases hbody : g.body? rule with
    | none => exact fun _ hrule ↦ nomatch hrule
    | some body =>
      have hfirst : g.Grounded o body ∧
          ∃ s' : Session, s'.Descended g o ∧ (s'.compileRules rules).isSome := by
        rw [Session.compileRules, Session.compileRule] at h
        by_cases hblock : (s.block? rule).isSome
        · rw [if_pos hblock] at h
          obtain ⟨body', hbody', hgrounded⟩ := hs.of_isSome_block? hblock
          rw [hbody] at hbody'
          cases hbody'
          exact ⟨hgrounded, s, hs, h⟩
        · rw [if_neg hblock, hs.records.body?_eq, hbody] at h
          dsimp only at h
          cases hrule : encodeRule rule body s with
          | none =>
            rw [hrule] at h
            cases h
          | some result =>
            rw [hrule] at h
            obtain ⟨hgrounded, hs', -⟩ := grounded_of_encodeRule hg hs hbody hrule
            exact ⟨hgrounded, result.2, hs', h⟩
      obtain ⟨hgrounded, s', hs', h'⟩ := hfirst
      intro other hother body' hbody'
      rcases List.mem_cons.mp hother with rfl | hother
      · rw [hbody] at hbody'
        cases hbody'
        exact hgrounded
      · exact ih hs' h' other hother body' hbody'

/-- A session that was just started has compiled nothing. -/
theorem descended_start (hg : g.Sound) (depth : Nat) : (Session.start depth g o).Descended g o where
  records := .refl hg.simplified
  options_eq := rfl
  blocks _ hblock := absurd hblock (Array.not_mem_empty _)

/-- Compiling ends when encoding the rules does; finishing always ends. -/
theorem isSome_compileWithin (depth : Nat) (g : Grammar) (rules : List RuleId) (o : Options) :
    (compileWithin depth g rules o).isSome =
      ((Session.start depth g o).compileRules rules).isSome := by
  unfold compileWithin
  split <;> rename_i h <;> rw [h] <;> rfl

/-- The depth of compiling is enough where every way down ends. -/
theorem isSome_compile_of_grounded (hg : g.Sound)
    (h : ∀ rule ∈ rules.takeWhile fun rule ↦ (g.body? rule).isSome,
      ∀ body, g.body? rule = some body → g.Grounded o body) : (compile g rules o).isSome := by
  rw [compile, isSome_compileWithin]
  exact isSome_compileRules hg (descended_start hg _) (Nat.le_refl _) h

/-- Without factoring, or without jump tables, compiling returns. -/
theorem isSome_compile_of_plain (hg : g.Prepared)
    (hplain : o.commonHead = false ∨ ∀ e, g.table? e = none)
    (rules : List RuleId) : (compile g rules o).isSome :=
  isSome_compile_of_grounded hg.sound fun _ _ body _ ↦
    Grammar.grounded_of_plain hg.sound hplain body

/-- Compiling returns exactly when no node is entered again on the way down from itself, below the
bodies of the rules up to the first undefined one. If it does not, it does not within any depth. -/
theorem isSome_compile_iff (hg : g.Prepared) (rules : List RuleId) (o : Options) :
    ((compile g rules o).isSome ↔ ∀ rule ∈ rules.takeWhile fun rule ↦ (g.body? rule).isSome,
      ∀ body, g.body? rule = some body → ¬g.Reenters o body) ∧
    ∀ depth, (compileWithin depth g rules o).isSome → (compile g rules o).isSome := by
  have hiff (rule : RuleId) (body : ExprId) (hbody : g.body? rule = some body) :
      g.Grounded o body ↔ ¬g.Reenters o body :=
    Grammar.grounded_iff hg.sound (hg.sound.wellFormed.body_lt rule body hbody)
  have hgrounded (depth : Nat) (h : (compileWithin depth g rules o).isSome) :
      ∀ rule ∈ rules.takeWhile fun rule ↦ (g.body? rule).isSome,
        ∀ body, g.body? rule = some body → g.Grounded o body := by
    rw [isSome_compileWithin] at h
    exact grounded_of_isSome_compileRules hg.sound (descended_start hg.sound depth) h
  refine ⟨⟨fun h rule hrule body hbody ↦ ?_, fun h ↦ ?_⟩,
    fun depth h ↦ isSome_compile_of_grounded hg.sound (hgrounded depth h)⟩
  · exact (hiff rule body hbody).mp (hgrounded _ h rule hrule body hbody)
  · exact isSome_compile_of_grounded hg.sound fun rule hrule body hbody ↦
      (hiff rule body hbody).mpr (h rule hrule body hbody)

/-- Alternatives with a common beginning: `A = 'b' A 'c' / 'b' 'x'`. -/
def commonBeginning : Grammar where
  nodes := #[⟨.byte 98, .synthetic⟩, ⟨.reference 0, .synthetic⟩, ⟨.byte 99, .synthetic⟩,
    ⟨.sequence [0, 1, 2], .synthetic⟩, ⟨.byte 120, .synthetic⟩, ⟨.sequence [0, 4], .synthetic⟩,
    ⟨.choice [3, 5], .synthetic⟩]
  rules := #[{ name := "A", body := some 6 }]

/-- The factored choice holds a reference to the rule, and not the choice again. -/
theorem isSome_compile_commonBeginning :
    (compile (Grammar.attachTables commonBeginning).2 [0] { commonHead := true }).isSome ∧
      ¬(Grammar.attachTables commonBeginning).2.Reenters { commonHead := true } 6 := by
  have hwf : commonBeginning.WellFormed := by decide +kernel
  obtain ⟨hiff, hdepth⟩ :=
    isSome_compile_iff (.annotated (.built hwf rfl rfl)) [0] { commonHead := true }
  have hsome := hdepth 10 (by decide +kernel)
  exact ⟨hsome, hiff.mp hsome 0 (by decide +kernel) 6 (by decide +kernel)⟩

/-- Alternatives that begin with the choice they belong to: `A = 'b' (A / A / 'x')`, beside a rule
`U` without a body. -/
def alikeAlternatives : Grammar where
  nodes := #[⟨.byte 98, .synthetic⟩, ⟨.reference 0, .synthetic⟩, ⟨.byte 120, .synthetic⟩,
    ⟨.choice [1, 1, 2], .synthetic⟩, ⟨.sequence [0, 3], .synthetic⟩]
  rules := #[{ name := "A", body := some 4 }, { name := "U" }]

/-- With factoring the choice for the next byte `b` is made of the choice it narrows. -/
theorem compileWithin_alikeAlternatives : alikeAlternatives.WellFormed ∧
    ∀ depth, compileWithin depth (Grammar.attachTables alikeAlternatives).2 [0, 1]
      { commonHead := true } = none := by
  have hwf : alikeAlternatives.WellFormed := by decide +kernel
  have hg := (Grammar.Prepared.annotated (.built hwf rfl rfl)).sound
  -- node 6 is the choice of the two alternatives that begin with `b`, and node 10 what factoring
  -- makes of it
  have hbody : (Grammar.attachTables alikeAlternatives).2.Enters { commonHead := true } 4 3 :=
    ⟨.node 3, by decide +kernel, rfl⟩
  have hself : (Grammar.attachTables alikeAlternatives).2.Enters { commonHead := true } 3 3 := by
    refine ⟨.factored 6, by decide +kernel, ?_⟩
    have hfactored : (Grammar.attachTables alikeAlternatives).2.factored? { commonHead := true } 6 =
        some 10 := by
      decide +kernel
    simp only [Demand.Enters, hfactored]
    exact ⟨by decide +kernel, .single (by decide +kernel)⟩
  refine ⟨hwf, fun depth ↦ Option.not_isSome_iff_eq_none.mp fun hsome ↦ ?_⟩
  rw [isSome_compileWithin] at hsome
  have hgrounded := grounded_of_isSome_compileRules hg (descended_start hg depth) hsome 0
    (by decide +kernel) 4 (by decide +kernel)
  exact Grammar.Grounded.not_transGen (hgrounded.inv hbody) (.single hself)

end

end ParsingMachine
