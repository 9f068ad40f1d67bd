import Mathlib.Data.List.Nodup
import ParsingMachine.Grammar.Shape
import ParsingMachine.Proofs.Machine.Image
import ParsingMachine.Proofs.Semantics.Settled
import Std.Data.String.ToNat

/-!
# Grammars built from shapes

Rules are built from the last to the first, and a reference goes to a later rule. So what takes part
in matching a node was made before the node, across rules too, and a node of which a shape was told
that it consumes does consume. The answer whether a node can succeed without consuming is computed
while shapes are built, and the flags of repetitions are set by it; it is an upper bound, since a
node may consume of which this is not known.

When a rule is built the rules before it are still to come. What is known of its nodes is therefore
stated of every grammar that the grammar at hand may become (`Shape.Becomes`): no node is lost, and
the rules built so far keep their bodies. That a node consumes is such a statement, as its matches
go through references to later rules only.

The induction is over the shape, mutual with that over lists of shapes, and what is proved for each
is the same pair: the grammar has grown by nodes that are right (`Grown`), and the answer is right
(`Answers`). Over the rules it is a stage, which says for the rules built so far what their bodies
are and which of them consume (`Stage`). Byte strings of a shape must not be empty where the shape
goes by them (`literalsFilled`): an empty one would be said to consume.

At the end all rules are built. Then no node takes part in matching itself, so all nodes are
settled, and all flags are right.

## Main statements

* `Shape.ensures_build`: what building a shape leaves.
* `Shape.ensures_buildRules`: the rules, from the last to the first.
* `Shape.stage_grammar`: all rules of the grammar of a list of shapes are built.
* `Stage.wellFormed`, `Stage.settled`, `Stage.consumes`: what holds of such a grammar.
-/

namespace ParsingMachine

open Builder

/-! ### Expressions that consume -/

section

variable {g : Grammar} {src : Resident} {d pos stop : Nat} {s s' : ParseState} {e : ExprId}

/-- What consumes ends behind where it began. -/
theorem Grammar.Consumes.lt (he : g.Consumes e)
    (h : Yields g src d (.node e) pos s (some (stop, s'))) : pos < stop := by
  refine Nat.lt_of_le_of_ne h.moves.1 fun heq ↦ ?_
  subst heq
  exact he _ _ _ _ _ h

/-- One item that consumes is enough: the others do not go back. -/
theorem Yields.lt_of_all {items : List ExprId} (hitems : ∃ item ∈ items, g.Consumes item)
    (h : Yields g src d (.all (items.map .node)) pos s (some (stop, s'))) : pos < stop := by
  induction items generalizing pos s with
  | nil =>
    obtain ⟨item, hmem, -⟩ := hitems
    cases hmem
  | cons first items ih =>
    obtain ⟨item, hmem, hitem⟩ := hitems
    rcases both_iff.mp h with ⟨-, hnone⟩ | ⟨mid, s₁, hfirst, hrest⟩
    · cases hnone
    · rcases List.mem_cons.mp hmem with rfl | hmem
      · have hle := (hrest.moves_term (Term.forward_all items) rfl).1
        exact Nat.lt_of_lt_of_le (hitem.lt hfirst) hle
      · exact Nat.lt_of_le_of_lt hfirst.moves.1 (ih ⟨item, hmem, hitem⟩ hrest)

/-- A choice ends behind where it began if all of its alternatives consume. -/
theorem Yields.lt_of_any {alts : List ExprId} (halts : ∀ alt ∈ alts, g.Consumes alt)
    (h : Yields g src d (.any (alts.map .node)) pos s (some (stop, s'))) : pos < stop := by
  induction alts with
  | nil => cases fails_iff.mp h
  | cons alt alts ih =>
    rcases either_iff.mp h with ⟨-, halt⟩ | ⟨-, hrest⟩
    · exact (halts alt List.mem_cons_self).lt halt
    · exact ih (fun other hother ↦ halts other (List.mem_cons_of_mem _ hother)) hrest

namespace Grammar

/-- A node consumes if its term always ends behind where it began. -/
theorem consumes_of_lt (h : ∀ src d pos s stop s',
    Yields g src d ((g.op e).term src) pos s (some (stop, s')) → pos < stop) : g.Consumes e :=
  fun src d pos s s' hyields ↦ Nat.lt_irrefl pos (h src d pos s pos s' (Yields.node_iff.mp hyields))

/-- A terminal consumes. -/
theorem consumes_of_isTerminal (hop : (g.op e).isTerminal) : g.Consumes e := by
  obtain ⟨test, htest⟩ := Operator.test?_of_isTerminal hop
  refine consumes_of_lt fun src d pos s stop s' h ↦ ?_
  rw [Operator.term_of_test? htest, Yields.consumes_iff] at h
  split at h
  · cases h
    exact Nat.lt_succ_self pos
  · cases h

theorem consumes_of_fail (hop : g.op e = .fail) : g.Consumes e := by
  refine consumes_of_lt fun src d pos s stop s' h ↦ ?_
  rw [hop] at h
  cases Yields.fails_iff.mp h

/-- A sequence consumes if one of its items does. -/
theorem consumes_sequence {items : List ExprId} (hop : g.op e = .sequence items)
    (hitems : ∃ item ∈ items, g.Consumes item) : g.Consumes e := by
  refine consumes_of_lt fun src d pos s stop s' h ↦ ?_
  rw [hop] at h
  exact h.lt_of_all hitems

/-- A choice consumes if all of its alternatives do. -/
theorem consumes_choice {alts : List ExprId} (hop : g.op e = .choice alts)
    (halts : ∀ alt ∈ alts, g.Consumes alt) : g.Consumes e := by
  refine consumes_of_lt fun src d pos s stop s' h ↦ ?_
  rw [hop] at h
  exact h.lt_of_any halts

/-- One round and more consume if the operand does. -/
theorem consumes_plus {inner : ExprId} {nullable : Bool} (hop : g.op e = .plus inner nullable)
    (hinner : g.Consumes inner) : g.Consumes e := by
  refine consumes_of_lt fun src d pos s stop s' h ↦ ?_
  rw [hop] at h
  rcases Yields.both_iff.mp h with ⟨-, hnone⟩ | ⟨mid, s₁, hfirst, hrest⟩
  · cases hnone
  · have hle := (Yields.moves_term (t := .loop inner) trivial hrest rfl).1
    exact Nat.lt_of_lt_of_le (hinner.lt hfirst) hle

/-- A reference consumes if the body of its rule does. -/
theorem consumes_reference {rule : RuleId} {body : ExprId} (hop : g.op e = .reference rule)
    (hbody : g.body? rule = some body) (hconsumes : g.Consumes body) : g.Consumes e := by
  refine consumes_of_lt fun src d pos s stop s' h ↦ ?_
  rw [hop] at h
  rcases Yields.call_iff.mp h with ⟨-, hnone⟩ | ⟨body', d', hbody', -, h⟩
  · cases hnone
  · rw [hbody] at hbody'
    cases hbody'
    exact hconsumes.lt h

end Grammar

end

namespace Shape

/-! ### Shapes -/

mutual

/-- Whether every byte string of the shape has a byte. The words that are only looked ahead for do
not matter. -/
def literalsFilled : Shape → Bool
  | literal bytes => !bytes.isEmpty
  | sequence shapes | choice shapes => allLiteralsFilled shapes
  | star inner | plus inner | optional inner | and inner | not inner => literalsFilled inner
  | sharedHead head rests => literalsFilled head && allLiteralsFilled rests
  | empty | any | byte _ | byteClass _ | reference _ | notThenAny _ => true

/-- Whether every byte string of the shapes has a byte. -/
def allLiteralsFilled : List Shape → Bool
  | [] => true
  | first :: rest => literalsFilled first && allLiteralsFilled rest

end

/-! ### What a grammar becomes -/

/-- A grammar and what it becomes while the rules before `rule` are built. -/
structure Becomes (rule : RuleId) (g k : Grammar) : Prop extends g.Retains k where
  /-- The rules that are built keep their bodies. -/
  body?_eq : ∀ other, rule ≤ other → k.body? other = g.body? other

/-- A node of a grammar of `count` rules. -/
structure Shaped (count : Nat) (g : Grammar) (e : ExprId) : Prop where
  /-- What takes part in matching it was made before. -/
  successor_lt : ∀ x ∈ g.successors e, x < e
  /-- It refers to one of the rules. -/
  rule_lt : ∀ rule, g.op e = .reference rule → rule < count
  /-- It defines nothing. -/
  isDefinition_eq : (g.op e).isDefinition = false
  /-- A repetition without the flag repeats what consumes. -/
  consumes : ∀ inner, g.op e = .star inner false ∨ g.op e = .plus inner false → g.Consumes inner

/-- A node with the answer whether it can succeed without consuming. -/
structure Answers (rule : RuleId) (g : Grammar) (built : ExprId × Bool) : Prop where
  /-- There is such a node. -/
  lt : built.1 < g.size
  /-- Where the answer is no, the node consumes in all that the grammar becomes. -/
  consumes : built.2 = false → ∀ k, Becomes rule g k → k.Consumes built.1

/-- What building shapes of the rule before `rule` makes of a grammar. -/
structure Grown (rule : RuleId) (count : Nat) (g h : Grammar) : Prop extends g.Retains h where
  /-- The rules stay. -/
  rules_eq : h.rules = g.rules
  /-- Nothing is simplified. -/
  simplified_eq : h.simplified = g.simplified
  /-- No jump table is attached. -/
  tables_eq : h.tables = g.tables
  /-- New nodes are shaped in all that the grammar becomes. -/
  shaped : ∀ k, Becomes rule h k → ∀ e, g.size ≤ e → e < h.size → Shaped count k e

variable {rule : RuleId} {count : Nat} {g h k : Grammar}

theorem Becomes.refl (rule : RuleId) (g : Grammar) : Becomes rule g g :=
  ⟨.refl g, fun _ _ ↦ rfl⟩

theorem Becomes.trans (hgh : Becomes rule g h) (hhk : Becomes rule h k) : Becomes rule g k where
  toRetains := hgh.toRetains.trans hhk.toRetains
  body?_eq other hother := by rw [hhk.body?_eq other hother, hgh.body?_eq other hother]

/-- A grammar becomes what it grows to. -/
theorem Grown.becomes (hgh : Grown rule count g h) : Becomes rule g h where
  toRetains := hgh.toRetains
  body?_eq other _ := by rw [Grammar.body?, Grammar.body?, hgh.rules_eq]

/-- A right answer stays right in what the grammar becomes. -/
theorem Answers.becomes {built : ExprId × Bool} (hg : Answers rule g built)
    (hgh : Becomes rule g h) : Answers rule h built where
  lt := Nat.lt_of_lt_of_le hg.lt hgh.size_le
  consumes hbuilt k hk := hg.consumes hbuilt k (hgh.trans hk)

theorem Grown.refl (rule : RuleId) (count : Nat) (g : Grammar) : Grown rule count g g where
  toRetains := .refl g
  rules_eq := rfl
  simplified_eq := rfl
  tables_eq := rfl
  shaped _ _ _ he hlt := absurd hlt (Nat.not_lt_of_le he)

/-- Shapes are built one after the other. -/
theorem Grown.trans (hgh : Grown rule count g h) (hhk : Grown rule count h k) :
    Grown rule count g k where
  toRetains := hgh.toRetains.trans hhk.toRetains
  rules_eq := hhk.rules_eq.trans hgh.rules_eq
  simplified_eq := hhk.simplified_eq.trans hgh.simplified_eq
  tables_eq := hhk.tables_eq.trans hgh.tables_eq
  shaped l hl e he hlt := by
    by_cases heh : e < h.size
    · exact hgh.shaped l (hhk.becomes.trans hl) e he heh
    · exact hhk.shaped l hl e (Nat.le_of_not_lt heh) hlt

/-! ### Making nodes -/

/-- Whether the operator is one of those that shapes are built into, references and repetitions
apart. -/
def isSimple : Operator → Bool
  | .empty | .fail | .anyByte | .byte _ | .byteClass _ | .sequence _ | .choice _ | .optional _
  | .and _ | .not _ => true
  | _ => false

/-- What making a node leaves. -/
structure Made (rule : RuleId) (count : Nat) (g : Grammar) (op : Operator) (e : ExprId)
    (h : Grammar) : Prop extends Grown rule count g h where
  /-- There is the node. -/
  lt : e < h.size
  /-- It keeps its operator. -/
  op_eq_of_becomes : ∀ k, Becomes rule h k → k.op e = op

/-- A node for which nothing can be told about what it consumes. -/
theorem Made.answers_true {op : Operator} {e : ExprId} (hmade : Made rule count g op e h) :
    Grown rule count g h ∧ Answers rule h (e, true) :=
  ⟨hmade.toGrown, hmade.lt, fun hfalse ↦ nomatch hfalse⟩

/-- A node is made that is shaped in all that the grammar becomes. -/
theorem ensures_alloc {op : Operator} (hshaped : ∀ k, k.op g.size = op →
    Becomes rule g k → Shaped count k g.size) :
    Ensures (Grammar.alloc op) g (Made rule count g op) := by
  show Made rule count g op g.size (g.push op .synthetic)
  have hlt : g.size < (g.push op .synthetic).size := by
    rw [Grammar.size_push]
    exact Nat.lt_succ_self _
  have hop (k : Grammar) (hk : Becomes rule (g.push op .synthetic) k) : k.op g.size = op := by
    rw [hk.op_eq g.size hlt, Grammar.op_push, if_pos rfl]
  have hgrown : Becomes rule g (g.push op .synthetic) := ⟨.push g op .synthetic, fun _ _ ↦ rfl⟩
  refine ⟨⟨hgrown.toRetains, rfl, rfl, rfl, fun k hk e he he' ↦ ?_⟩, hlt, hop⟩
  rw [Grammar.size_push] at he'
  obtain rfl : e = g.size := Nat.le_antisymm (Nat.le_of_lt_succ he') he
  exact hshaped k (hop k hk) (hgrown.trans hk)

/-- A node is shaped if it is made of old nodes, repeats only what consumes, and is no reference. -/
theorem shaped_of_op {op : Operator} {e : ExprId} (hop : k.op e = op)
    (hchildren : ∀ child ∈ op.children, child < e) (hreference : ∀ rule, op ≠ .reference rule)
    (hdefinition : op.isDefinition = false)
    (hconsumes : ∀ inner, op = .star inner false ∨ op = .plus inner false → k.Consumes inner) :
    Shaped count k e where
  successor_lt x hx := by
    refine hchildren x ?_
    unfold Grammar.successors at hx
    split at hx
    · rename_i hrule
      exact absurd (hop.symm.trans hrule) (hreference _)
    · rwa [hop] at hx
  rule_lt rule hrule := absurd (hop.symm.trans hrule) (hreference rule)
  isDefinition_eq := by rw [hop, hdefinition]
  consumes inner hinner := hconsumes inner (by rwa [hop] at hinner)

/-- Any node that is no repetition and no reference may be made of old ones. -/
theorem ensures_alloc_simple (op : Operator) (hop : isSimple op)
    (hchildren : ∀ child ∈ op.children, child < g.size) :
    Ensures (Grammar.alloc op) g (Made rule count g op) := by
  refine ensures_alloc fun k hk _ ↦
    shaped_of_op hk hchildren (fun rule hrule ↦ ?_) ?_ fun inner hinner ↦ ?_
  · rw [hrule] at hop
    cases hop
  · cases op with
    | defSymbol _ _ | defIndent => cases hop
    | _ => rfl
  · rcases hinner with hinner | hinner <;> rw [hinner] at hop <;> cases hop

/-- A terminal consumes. -/
theorem ensures_alloc_terminal {op : Operator} (hop : op.isTerminal) :
    Ensures (Grammar.alloc op) g fun e h ↦
      Grown rule count g h ∧ Answers rule h (e, false) := by
  have hsimple : isSimple op ∧ op.children = [] := by
    cases op with
    | anyByte | byte _ | byteClass _ => exact ⟨rfl, rfl⟩
    | _ => cases hop
  refine (ensures_alloc_simple op hsimple.1 fun child hc ↦ ?_).imp fun e h hmade ↦
    ⟨hmade.toGrown, hmade.lt, fun _ k hk ↦ Grammar.consumes_of_isTerminal ?_⟩
  · rw [hsimple.2] at hc
    cases hc
  · rwa [hmade.op_eq_of_becomes k hk]

/-- A sequence may succeed without consuming if all items may. -/
theorem ensures_sequence (count : Nat) {built : List (ExprId × Bool)}
    (hbuilt : ∀ b ∈ built, Answers rule g b) :
    Ensures (Grammar.sequence (built.map Prod.fst)) g fun e h ↦
      Grown rule count g h ∧ Answers rule h (e, built.all Prod.snd) := by
  match built with
  | [] =>
    exact (ensures_alloc_simple .empty rfl fun _ hc ↦ nomatch hc).imp
      fun e h hmade ↦ hmade.answers_true
  | [b] =>
    have hb := hbuilt b (List.mem_singleton_self b)
    exact ⟨.refl rule count g, hb.lt, fun hfalse ↦ hb.consumes (by simpa using hfalse)⟩
  | b :: b' :: rest =>
    refine (ensures_alloc_simple (.sequence _) rfl fun child hc ↦ ?_).imp fun e h hmade ↦
      ⟨hmade.toGrown, hmade.lt, fun hfalse k hk ↦ ?_⟩
    · have hc : child ∈ (b :: b' :: rest).map Prod.fst := hc
      obtain ⟨b, hb, rfl⟩ := List.mem_map.mp hc
      exact (hbuilt b hb).lt
    · obtain ⟨b, hb, hfalse⟩ := List.all_eq_false.mp hfalse
      have hb' := (hbuilt b hb).consumes (by simpa using hfalse) k (hmade.becomes.trans hk)
      exact Grammar.consumes_sequence (hmade.op_eq_of_becomes k hk)
        ⟨b.1, List.mem_map_of_mem hb, hb'⟩

/-- A choice may succeed without consuming if one alternative may. -/
theorem ensures_choice (count : Nat) {built : List (ExprId × Bool)}
    (hbuilt : ∀ b ∈ built, Answers rule g b) :
    Ensures (Grammar.choice (built.map Prod.fst)) g fun e h ↦
      Grown rule count g h ∧ Answers rule h (e, built.any Prod.snd) := by
  match built with
  | [] =>
    exact (ensures_alloc_simple .fail rfl fun _ hc ↦ nomatch hc).imp fun e h hmade ↦
      ⟨hmade.toGrown, hmade.lt, fun _ k hk ↦
        Grammar.consumes_of_fail (hmade.op_eq_of_becomes k hk)⟩
  | [b] =>
    have hb := hbuilt b (List.mem_singleton_self b)
    exact ⟨.refl rule count g, hb.lt, fun hfalse ↦ hb.consumes (by simpa using hfalse)⟩
  | b :: b' :: rest =>
    refine (ensures_alloc_simple (.choice _) rfl fun child hc ↦ ?_).imp fun e h hmade ↦
      ⟨hmade.toGrown, hmade.lt, fun hfalse k hk ↦ ?_⟩
    · have hc : child ∈ (b :: b' :: rest).map Prod.fst := hc
      obtain ⟨b, hb, rfl⟩ := List.mem_map.mp hc
      exact (hbuilt b hb).lt
    · refine Grammar.consumes_choice (hmade.op_eq_of_becomes k hk) fun alt halt ↦ ?_
      have halt : alt ∈ (b :: b' :: rest).map Prod.fst := halt
      obtain ⟨b, hb, rfl⟩ := List.mem_map.mp halt
      have hfalse := List.any_eq_false.mp hfalse b hb
      exact (hbuilt b hb).consumes (by simpa using hfalse) k (hmade.becomes.trans hk)

/-- Nodes made one after the other, with the same answer for all. -/
theorem ensures_mapM (rule : RuleId) (count : Nat) {α : Type} {f : α → Builder ExprId}
    {nullable : Bool} (hf : ∀ a g, Ensures (f a) g fun e h ↦
      Grown rule count g h ∧ Answers rule h (e, nullable)) (xs : List α) :
    Ensures (xs.mapM f) g fun es h ↦ Grown rule count g h ∧ es.length = xs.length ∧
      ∀ e ∈ es, Answers rule h (e, nullable) := by
  induction xs generalizing g with
  | nil => exact ⟨.refl rule count g, rfl, fun _ he ↦ nomatch he⟩
  | cons x xs ih =>
    rw [List.mapM_cons]
    refine (hf x g).bind fun e h ⟨hgh, he⟩ ↦ ih.bind fun es k ⟨hhk, hlength, hes⟩ ↦ .pure ?_
    refine ⟨hgh.trans hhk, congrArg (· + 1) hlength, fun other hother ↦ ?_⟩
    rcases List.mem_cons.mp hother with rfl | hother
    · exact he.becomes hhk.becomes
    · exact hes other hother

/-- A byte string consumes if it has a byte. -/
theorem ensures_literal (rule : RuleId) (count : Nat) (bytes : List UInt8) :
    Ensures (Grammar.literal bytes) g fun e h ↦
      Grown rule count g h ∧ Answers rule h (e, bytes.isEmpty) := by
  refine (ensures_mapM rule count (fun b _ ↦ ensures_alloc_terminal rfl) bytes).bind
    fun es h ⟨hgh, hlength, hes⟩ ↦ ?_
  have hbuilt : ∀ b ∈ es.map (·, false), Answers rule h b := by
    intro b hb
    obtain ⟨e, he, rfl⟩ := List.mem_map.mp hb
    exact hes e he
  have hall : (es.map (·, false)).all Prod.snd = bytes.isEmpty := by
    cases es with
    | nil => rw [List.length_eq_zero_iff.mp hlength.symm]; rfl
    | cons e es => cases bytes with
      | nil => cases hlength
      | cons b bytes => rfl
  have hsequence := ensures_sequence count hbuilt
  have hfst : (es.map (·, false)).map Prod.fst = es := by simp [Function.comp_def]
  rw [hall, hfst] at hsequence
  exact hsequence.imp fun e k ⟨hhk, he⟩ ↦ ⟨hgh.trans hhk, he⟩

theorem ensures_notWord (rule : RuleId) (count : Nat) (word : List UInt8) :
    Ensures (notWord word) g fun e h ↦
      Grown rule count g h ∧ Answers rule h (e, true) := by
  refine (ensures_literal rule count word).bind fun inner h ⟨hgh, hinner⟩ ↦ ?_
  refine (ensures_alloc_simple (.not inner) rfl fun child hc ↦ ?_).imp fun e k hmade ↦
    hmade.answers_true.imp_left hgh.trans
  rw [List.mem_singleton.mp hc]
  exact hinner.lt

/-! ### Building a shape -/

/-- The rules after the current one are built, and it is known which of them consume. -/
def Ready (ctx : Context) (g : Grammar) : Prop :=
  ∀ later, ctx.current < later → later < ctx.nullable.length → ∃ body,
    g.body? later = some body ∧ Answers (ctx.current + 1) g (body, ctx.nullable.getD later false)

theorem Ready.grown {ctx : Context} (hg : Ready ctx g) (hgh : Grown (ctx.current + 1) count g h) :
    Ready ctx h := by
  intro later hlater hlt
  obtain ⟨body, hbody, hanswers⟩ := hg later hlater hlt
  exact ⟨body, (hgh.becomes.body?_eq later hlater).trans hbody, hanswers.becomes hgh.becomes⟩

section

variable {ctx : Context}

/-- A repetition gets the flag that is right for its operand. -/
theorem ensures_repetition {inner : ExprId} {nullable : Bool} {op : Operator}
    (hop : op = .star inner nullable ∨ op = .plus inner nullable)
    (hinner : Answers rule g (inner, nullable)) :
    Ensures (Grammar.alloc op) g (Made rule count g op) := by
  refine ensures_alloc fun k hk hbecomes ↦
    shaped_of_op hk (fun child hc ↦ ?_) (fun rule hrule ↦ ?_) ?_ fun x hx ↦ ?_
  · have hchildren : op.children = [inner] := by rcases hop with rfl | rfl <;> rfl
    rw [hchildren] at hc
    rw [List.mem_singleton.mp hc]
    exact hinner.lt
  · rcases hop with rfl | rfl <;> cases hrule
  · rcases hop with rfl | rfl <;> rfl
  · have hsame : inner = x ∧ nullable = false := by
      rcases hop with rfl | rfl <;> rcases hx with hx | hx <;> cases hx <;> exact ⟨rfl, rfl⟩
    rw [← hsame.1]
    exact hinner.consumes hsame.2 k hbecomes

/-- A reference consumes if the later rule does. -/
theorem ensures_reference (hg : Ready ctx g) {target : RuleId} (hlater : ctx.current < target)
    (hlt : target < ctx.nullable.length) :
    Ensures (Grammar.alloc (.reference target)) g fun e h ↦
      Grown (ctx.current + 1) ctx.nullable.length g h ∧
        Answers (ctx.current + 1) h (e, ctx.nullable.getD target false) := by
  obtain ⟨body, hbody, hanswers⟩ := hg target hlater hlt
  have hbody_eq (k : Grammar) (hk : Becomes (ctx.current + 1) g k) : k.body? target = some body :=
    (hk.body?_eq target hlater).trans hbody
  refine (ensures_alloc fun k hk hbecomes ↦ ⟨fun x hx ↦ ?_, fun rule hrule ↦ ?_, by rw [hk]; rfl,
    fun inner hinner ↦ by simp [hk] at hinner⟩).imp fun e h hmade ↦
      ⟨hmade.toGrown, hmade.lt, fun hfalse k hk ↦ ?_⟩
  · simp only [Grammar.successors, hk, hbody_eq k hbecomes, Option.toList_some,
      List.mem_singleton] at hx
    rw [hx]
    exact hanswers.lt
  · rw [hk] at hrule
    cases hrule
    exact hlt
  · have hgk := hmade.becomes.trans hk
    exact Grammar.consumes_reference (hmade.op_eq_of_becomes k hk) (hbody_eq k hgk)
      (hanswers.consumes hfalse k hgk)

/-- Counting around the later rules comes to a later rule. -/
theorem target_between {current length : Nat} (offset : Nat) (hlater : ¬length - current - 1 = 0) :
    current < current + 1 + offset % (length - current - 1) ∧
      current + 1 + offset % (length - current - 1) < length := by
  have hmod := Nat.mod_lt offset (Nat.pos_of_ne_zero hlater)
  omega

/-- A byte at which none of the words begins consumes. -/
theorem ensures_notThenAny (words : List (List UInt8)) :
    Ensures (build ctx (.notThenAny words)) g fun built h ↦
      Grown rule count g h ∧ Answers rule h built := by
  refine (ensures_mapM rule count (fun word _ ↦ ensures_notWord rule count word) words).bind
    fun nots h ⟨hgh, _, hnots⟩ ↦ ?_
  refine Ensures.bind (P := fun any k ↦ Grown rule count h k ∧ Answers rule k (any, false))
    (ensures_alloc_terminal rfl) fun any k ⟨hhk, hany⟩ ↦ ?_
  have hbuilt : ∀ b ∈ nots.map (·, true) ++ [(any, false)], Answers rule k b := by
    intro b hb
    rcases List.mem_append.mp hb with hb | hb
    · obtain ⟨e, he, rfl⟩ := List.mem_map.mp hb
      exact (hnots e he).becomes hhk.becomes
    · rw [List.mem_singleton.mp hb]
      exact hany
  have hsequence := ensures_sequence count hbuilt
  have hfst : (nots.map (·, true) ++ [(any, false)]).map Prod.fst = nots ++ [any] := by
    simp [Function.comp_def]
  rw [hfst] at hsequence
  refine hsequence.bind fun e l ⟨hkl, he⟩ ↦ .pure ⟨hgh.trans (hhk.trans hkl), he.lt, fun _ ↦ ?_⟩
  exact he.consumes (by simp)

mutual

/-- What building a shape leaves: nodes that are shaped, and a right answer. -/
theorem ensures_build (shape : Shape) (hshape : shape.literalsFilled) {g : Grammar}
    (hg : Ready ctx g) : Ensures (build ctx shape) g fun built h ↦
      Grown (ctx.current + 1) ctx.nullable.length g h ∧ Answers (ctx.current + 1) h built := by
  match shape with
  | empty =>
    exact (ensures_alloc_simple .empty rfl fun _ hc ↦ nomatch hc).bind
      fun e h hmade ↦ .pure hmade.answers_true
  | any | byte _ | byteClass _ =>
    exact (ensures_alloc_terminal rfl).bind fun e h he ↦ .pure he
  | literal bytes =>
    refine (ensures_literal _ _ bytes).bind fun e h ⟨hgh, he⟩ ↦ .pure ⟨hgh, ?_⟩
    rw [literalsFilled, Bool.not_eq_true'] at hshape
    rwa [hshape] at he
  | sequence items =>
    refine (ensures_buildAll items hshape hg).bind fun built h ⟨hgh, hbuilt⟩ ↦ ?_
    exact (ensures_sequence _ hbuilt).bind fun e k ⟨hhk, he⟩ ↦ .pure ⟨hgh.trans hhk, he⟩
  | choice alts =>
    refine (ensures_buildAll alts hshape hg).bind fun built h ⟨hgh, hbuilt⟩ ↦ ?_
    exact (ensures_choice _ hbuilt).bind fun e k ⟨hhk, he⟩ ↦ .pure ⟨hgh.trans hhk, he⟩
  | star inner =>
    refine (ensures_build inner hshape hg).bind fun (inner, nullable) h ⟨hgh, hinner⟩ ↦ ?_
    exact (ensures_repetition (.inl rfl) hinner).bind fun e k hmade ↦
      .pure (hmade.answers_true.imp_left hgh.trans)
  | plus inner =>
    refine (ensures_build inner hshape hg).bind fun (inner, nullable) h ⟨hgh, hinner⟩ ↦ ?_
    refine (ensures_repetition (.inr rfl) hinner).bind fun e k hmade ↦
      .pure ⟨hgh.trans hmade.toGrown, hmade.lt, fun hfalse l hl ↦ ?_⟩
    exact Grammar.consumes_plus (hmade.op_eq_of_becomes l hl)
      (hinner.consumes hfalse l (hmade.becomes.trans hl))
  | optional inner | and inner | not inner =>
    refine (ensures_build inner hshape hg).bind fun (inner, nullable) h ⟨hgh, hinner⟩ ↦ ?_
    refine Ensures.bind (ensures_alloc_simple _ rfl fun child hc ↦ ?_) fun e k hmade ↦
      .pure (hmade.answers_true.imp_left hgh.trans)
    rw [List.mem_singleton.mp hc]
    exact hinner.lt
  | reference offset =>
    unfold build
    dsimp only
    split
    · exact (ensures_alloc_terminal rfl).bind fun e h he ↦ .pure he
    · rename_i hlater
      obtain ⟨hlt, hlt'⟩ := target_between offset hlater
      exact (ensures_reference hg hlt hlt').bind fun e h he ↦ .pure he
  | sharedHead head rests =>
    rw [literalsFilled, Bool.and_eq_true] at hshape
    refine (ensures_build head hshape.1 hg).bind fun (head, headNullable) h ⟨hgh, hhead⟩ ↦ ?_
    refine (ensures_buildRests rests hshape.2 (hg.grown hgh) hhead).bind
      fun built k ⟨hhk, hbuilt⟩ ↦ ?_
    have hchoice := ensures_choice ctx.nullable.length hbuilt
    have hfst : (built.map fun (e, nullable) ↦ (e, headNullable && nullable)).map Prod.fst =
        built.map Prod.fst := by
      simp [Function.comp_def]
    rw [hfst] at hchoice
    refine hchoice.bind fun e l ⟨hkl, he⟩ ↦
      .pure ⟨hgh.trans (hhk.trans hkl), he.lt, fun hfalse ↦ ?_⟩
    refine he.consumes ?_
    rw [← hfalse]
    cases headNullable <;> simp [Function.comp_def]
  | notThenAny words => exact ensures_notThenAny words

/-- The shapes of a list, one after the other. -/
theorem ensures_buildAll (shapes : List Shape) (hshapes : allLiteralsFilled shapes) {g : Grammar}
    (hg : Ready ctx g) : Ensures (buildAll ctx shapes) g fun built h ↦
      Grown (ctx.current + 1) ctx.nullable.length g h ∧
        ∀ b ∈ built, Answers (ctx.current + 1) h b := by
  match shapes with
  | [] => exact ⟨.refl _ _ g, fun _ hb ↦ nomatch hb⟩
  | first :: rest =>
    rw [allLiteralsFilled, Bool.and_eq_true] at hshapes
    refine (ensures_build first hshapes.1 hg).bind fun b h ⟨hgh, hb⟩ ↦ ?_
    refine (ensures_buildAll rest hshapes.2 (hg.grown hgh)).bind fun built k ⟨hhk, hbuilt⟩ ↦
      .pure ⟨hgh.trans hhk, fun other hother ↦ ?_⟩
    rcases List.mem_cons.mp hother with rfl | hother
    · exact hb.becomes hhk.becomes
    · exact hbuilt other hother

/-- The shapes of a list behind a head that is shared by all of them. -/
theorem ensures_buildRests (shapes : List Shape) (hshapes : allLiteralsFilled shapes) {g : Grammar}
    (hg : Ready ctx g) {head : ExprId} {headNullable : Bool}
    (hhead : Answers (ctx.current + 1) g (head, headNullable)) :
    Ensures (buildRests ctx head shapes) g fun built h ↦
      Grown (ctx.current + 1) ctx.nullable.length g h ∧
        ∀ b ∈ built.map fun (e, nullable) ↦ (e, headNullable && nullable),
          Answers (ctx.current + 1) h b := by
  match shapes with
  | [] => exact ⟨.refl _ _ g, fun _ hb ↦ nomatch hb⟩
  | first :: rest =>
    rw [allLiteralsFilled, Bool.and_eq_true] at hshapes
    refine (ensures_build first hshapes.1 hg).bind fun (node, nullable) h ⟨hgh, hnode⟩ ↦ ?_
    have hboth (b : ExprId × Bool) (hb : b ∈ [(head, headNullable), (node, nullable)]) :
        Answers (ctx.current + 1) h b := by
      rcases List.mem_pair.mp hb with rfl | rfl
      · exact hhead.becomes hgh.becomes
      · exact hnode
    refine (ensures_sequence ctx.nullable.length hboth).bind fun alt k ⟨hhk, halt⟩ ↦ ?_
    have hgk := hgh.trans hhk
    refine (ensures_buildRests rest hshapes.2 (hg.grown hgk) (hhead.becomes hgk.becomes)).bind
      fun built l ⟨hkl, hbuilt⟩ ↦ .pure ⟨hgk.trans hkl, fun other hother ↦ ?_⟩
    rcases List.mem_cons.mp hother with rfl | hother
    · have halt' := halt.becomes hkl.becomes
      exact ⟨halt'.lt, fun hfalse ↦ halt'.consumes (by simpa using hfalse)⟩
    · exact hbuilt other hother

end

end

/-! ### Building rules -/

/-- A grammar of `count` rules in which the rules from `rule` on are built. -/
structure Stage (count : Nat) (rule : RuleId) (nullable : List Bool) (g : Grammar) : Prop where
  /-- There is an answer for each rule. -/
  length_eq : nullable.length = count
  /-- The rules are declared. -/
  ruleCount_eq : g.ruleCount = count
  /-- Nothing is simplified. -/
  simplified_eq : g.simplified = {}
  /-- No jump table is attached. -/
  tables_eq : g.tables = {}
  /-- The nodes are shaped in all that the grammar becomes. -/
  shaped : ∀ k, Becomes rule g k → ∀ e < g.size, Shaped count k e
  /-- The rules have bodies, and it is known which of them consume. -/
  bodies : ∀ other, rule ≤ other → other < count → ∃ body, g.body? other = some body ∧
    Answers rule g (body, nullable.getD other false)

theorem Stage.ready {nullable : List Bool} (hg : Stage count (rule + 1) nullable g) :
    Ready ⟨rule, nullable⟩ g :=
  fun later hlater hlt ↦ hg.bodies later hlater (hg.length_eq ▸ hlt)

/-- The rule that was built next gets its body. -/
theorem Stage.define {nullable : List Bool} {built : ExprId × Bool}
    (hg : Stage count (rule + 1) nullable g) (hgh : Grown (rule + 1) count g h)
    (hbuilt : Answers (rule + 1) h built) (hrule : rule < count) :
    Stage count rule (nullable.set rule built.2) (h.defineRule rule built.1) := by
  have hcount : h.ruleCount = count := by
    rw [← hg.ruleCount_eq, Grammar.ruleCount, Grammar.ruleCount, hgh.rules_eq]
  have hbody := Grammar.body?_defineRule (by rwa [hcount]) built.1
  have hlater (k : Grammar) (hk : Becomes rule (h.defineRule rule built.1) k) :
      Becomes (rule + 1) h k := by
    refine ⟨⟨hk.size_le, hk.op_eq⟩, fun other hother ↦ ?_⟩
    rw [hk.body?_eq other (Nat.le_of_succ_le hother), hbody,
      if_neg (Nat.ne_of_gt (Nat.lt_of_succ_le hother))]
  refine ⟨by rw [List.length_set, hg.length_eq], ?_, hgh.simplified_eq.trans hg.simplified_eq,
    hgh.tables_eq.trans hg.tables_eq, fun k hk e he ↦ ?_, fun other hother hlt ↦ ?_⟩
  · rw [Grammar.ruleCount, Grammar.defineRule, Array.size_modify]
    exact hcount
  · by_cases hold : e < g.size
    · exact hg.shaped k (hgh.becomes.trans (hlater k hk)) e hold
    · exact hgh.shaped k (hlater k hk) e (Nat.le_of_not_lt hold) he
  · rw [hbody]
    rcases Nat.eq_or_lt_of_le hother with rfl | hother
    · refine ⟨built.1, if_pos rfl, hbuilt.lt, fun hfalse k hk ↦ ?_⟩
      refine hbuilt.consumes ?_ k (hlater k hk)
      simpa [List.getD_eq_getElem?_getD, hg.length_eq, hrule] using hfalse
    · obtain ⟨body, hsome, hanswers⟩ := hg.bodies other hother hlt
      have hanswers := hanswers.becomes hgh.becomes
      refine ⟨body, ?_, hanswers.lt, fun hfalse k hk ↦ ?_⟩
      · rw [if_neg (Nat.ne_of_gt hother), hgh.becomes.body?_eq other hother, hsome]
      · refine hanswers.consumes ?_ k (hlater k hk)
        simpa [List.getD_eq_getElem?_getD, List.getElem?_set_ne (Nat.ne_of_lt hother)] using hfalse

/-- The rules are built from the last to the first. -/
theorem ensures_buildRules {shapes : List Shape} (hshapes : ∀ shape ∈ shapes, shape.literalsFilled)
    {rule : Nat} (hrule : rule ≤ shapes.length) {nullable : List Bool}
    (hg : Stage shapes.length rule nullable g) :
    Ensures (buildRules shapes rule nullable) g fun _ h ↦
      ∃ nullable', Stage shapes.length 0 nullable' h := by
  induction rule generalizing g nullable with
  | zero => exact ⟨nullable, hg⟩
  | succ rule ih =>
    have hshape : shapes[rule]? = some shapes[rule] := List.getElem?_eq_getElem hrule
    unfold buildRules
    rw [hshape]
    refine (ensures_build shapes[rule] (hshapes _ (List.getElem_mem hrule)) hg.ready).bind
      fun built h ⟨hgh, hbuilt⟩ ↦ ?_
    have hgh : Grown (rule + 1) nullable.length g h := hgh
    rw [hg.length_eq] at hgh
    exact ih (Nat.le_of_succ_le hrule) (hg.define hgh hbuilt hrule)

/-! ### Declaring rules -/

/-- New names are declared as rules of their own. -/
theorem mapM_declareRule_eq (names : List String) (g : Grammar)
    (hnames : (g.rules.toList.map Rule.name ++ names).Nodup) :
    (names.mapM Grammar.declareRule g).2 =
      { g with rules := g.rules ++ (names.map fun name ↦ ({ name } : Rule)).toArray } := by
  induction names generalizing g with
  | nil => simp; rfl
  | cons name names ih =>
    have hnew : g.ruleByName? name = none := by
      rw [Grammar.ruleByName?, Array.findIdx?_eq_none_iff]
      intro entry hentry
      refine beq_false_of_ne fun heq ↦ ?_
      have hdisjoint := (List.nodup_append.mp hnames).2.2
      exact hdisjoint entry.name (List.mem_map_of_mem (Array.mem_toList_iff.mpr hentry)) name
        List.mem_cons_self heq
    have hdeclare : Grammar.declareRule name g =
        (g.rules.size, { g with rules := g.rules.push { name } }) := by
      simp only [Grammar.declareRule, hnew]
    have hrest := ih { g with rules := g.rules.push { name } } (by simpa using hnames)
    rw [List.mapM_cons]
    show (names.mapM Grammar.declareRule (Grammar.declareRule name g).2).2 = _
    rw [hdeclare, hrest]
    simp

/-- The names of the rules are different. -/
theorem name_injective : Function.Injective fun i : Nat ↦ "R" ++ toString i := by
  intro i j h
  exact Nat.repr_inj.mp (String.append_right_inj _ |>.mp h)

/-- At the beginning all rules are declared and none is built. -/
theorem stage_declared (count : Nat) :
    Stage count count (List.replicate count false)
      ((List.range count).mapM (fun i ↦ Grammar.declareRule ("R" ++ toString i)) {}).2 := by
  have hnames : ((List.range count).map fun i : Nat ↦ "R" ++ toString i).Nodup :=
    List.Nodup.map name_injective List.nodup_range
  have hdeclared := mapM_declareRule_eq _ {} (by simpa using hnames)
  rw [List.mapM_map] at hdeclared
  rw [show ((List.range count).mapM (fun i ↦ Grammar.declareRule ("R" ++ toString i)) {}).2 = _
    from hdeclared]
  refine ⟨List.length_replicate, ?_, rfl, rfl, fun k _ e he ↦ absurd he (Nat.not_lt_zero e),
    fun other hother hlt ↦ absurd hother (Nat.not_le_of_lt hlt)⟩
  simp [Grammar.ruleCount]

/-- All rules of the grammar of a list of shapes are built. -/
theorem stage_grammar {shapes : List Shape} (hshapes : ∀ shape ∈ shapes, shape.literalsFilled) :
    ∃ nullable, Stage shapes.length 0 nullable (grammar shapes) :=
  ensures_buildRules hshapes (Nat.le_refl _) (stage_declared shapes.length)

/-! ### Grammars of which all rules are built -/

namespace Stage

variable {nullable : List Bool} {e : ExprId}

theorem shaped_self (hg : Stage count 0 nullable g) (he : e < g.size) : Shaped count g e :=
  hg.shaped g (.refl 0 g) e he

/-- A grammar of which all rules are built is well formed. -/
theorem wellFormed (hg : Stage count 0 nullable g) : g.WellFormed where
  bottomUp e he child hc :=
    (hg.shaped_self he).successor_lt child (Grammar.mem_successors_of_mem_children hc)
  body_lt rule body hbody := by
    have hlt : rule < count := by
      refine Nat.lt_of_not_le fun hle ↦ ?_
      rw [← hg.ruleCount_eq] at hle
      rw [Grammar.body?, Array.getElem?_eq_none hle] at hbody
      cases hbody
    obtain ⟨other, hother, hanswers⟩ := hg.bodies rule (Nat.zero_le _) hlt
    rw [hother] at hbody
    cases hbody
    exact hanswers.lt

/-- No node takes part in matching itself. -/
theorem settled (hg : Stage count 0 nullable g) (e : ExprId) : g.Settled e := by
  induction e using Nat.strongRecOn with
  | ind e ih =>
    refine .intro e fun x hx ↦ ih x ?_
    refine (hg.shaped_self (Grammar.lt_size_of_op_ne fun hop ↦ ?_)).successor_lt x hx
    rw [Grammar.successors, hop] at hx
    cases hx

theorem isDefinition_eq (hg : Stage count 0 nullable g) (e : ExprId) :
    (g.op e).isDefinition = false := by
  by_cases he : e < g.size
  · exact (hg.shaped_self he).isDefinition_eq
  · rw [Grammar.op_of_size_le (Nat.le_of_not_lt he)]
    rfl

/-- The flags of repetitions are right. -/
theorem consumes (hg : Stage count 0 nullable g) {inner : ExprId}
    (hop : g.op e = .star inner false ∨ g.op e = .plus inner false) : g.Consumes inner := by
  refine (hg.shaped_self (Grammar.lt_size_of_op_ne fun hfail ↦ ?_)).consumes inner hop
  simp [hfail] at hop

theorem rule_lt (hg : Stage count 0 nullable g) {rule : RuleId} (hop : g.op e = .reference rule) :
    rule < count := by
  refine (hg.shaped_self (Grammar.lt_size_of_op_ne fun hfail ↦ ?_)).rule_lt rule hop
  simp [hfail] at hop

theorem isSome_body? (hg : Stage count 0 nullable g) {rule : RuleId} (hrule : rule < count) :
    (g.body? rule).isSome := by
  obtain ⟨body, hbody, -⟩ := hg.bodies rule (Nat.zero_le _) hrule
  rw [hbody]
  rfl

end Stage

end Shape

end ParsingMachine
