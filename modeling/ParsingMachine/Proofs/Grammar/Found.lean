import Mathlib.Data.Nat.Find
import ParsingMachine.Proofs.Grammar.Correspond
import ParsingMachine.Proofs.Grammar.Simplify

/-!
# What simplification finds

Simplification goes through a grammar in an order that depends on what was recorded before, and cuts
recursion at nodes that are being simplified. What it finds does not depend on this order: it is
described here without a record, as what can be found by going down far enough
(`Grammar.foundWithin`, `Grammar.found`).

Going down a number of levels is a definition by recursion on that number, in which nothing is found
at the last level. More levels find more and never something else (`foundWithin_mono`), because the
search for one node uses only nodes for which something was found, or which are terminals or
literals themselves (`tells_of_foundIn`). A node whose search comes back to itself, through rules,
finds nothing at any level; so no cycle has to be cut. From some level on nothing changes any more,
and what is found there satisfies the equation without levels (`found_eq_foundIn`).

Only the form of the node that is found matters (`Form`), not its place: whether it is a terminal, a
literal or a dispatch form, and of which bytes. So nodes of two grammars that correspond to one
another, like those that factoring makes in different places, are simplified to nodes of the same
form. With nodes that correspond to themselves this says that a larger grammar finds the same for
old nodes.

Results that were recorded beforehand (`base`) count as they are: for a grammar in use, what is
found is relative to the record it started with.

## Main statements

* `foundWithin_mono`: going down further finds the same.
* `tells_of_foundIn`, `foundIn_mono`: what is found depends on nodes that tell something only.
* `found_eq_foundIn`: what is found for a node follows from what is found for those it depends on.
* `Mirrors.found_eq`: corresponding nodes are simplified to nodes of the same form.
* `Extends.found_eq`: in a larger grammar the same is found for old nodes.
-/

namespace ParsingMachine

/-- What is looked at in a node found for another one. -/
structure Form where
  /-- The operator of a terminal. -/
  terminal : Option Operator := none
  /-- The bytes of a literal. -/
  literal : Option (List UInt8) := none
  /-- The class of a dispatch form. -/
  dispatch : Option ByteSet := none
  deriving DecidableEq

namespace Form

/-- The form of a terminal. -/
def ofTerminal (op : Operator) : Form :=
  { terminal := some op }

/-- The bytes that a terminal tests for. -/
def byteSet? (f : Form) : Option ByteSet :=
  f.terminal.bind Operator.byteSet?

/-- Whether it can matter to what is found for other nodes. -/
def Tells (f : Form) : Prop :=
  f.terminal.isSome ∨ f.literal.isSome

theorem tells_of_terminal {f : Form} {op : Operator} (h : f.terminal = some op) : f.Tells :=
  .inl (by rw [h]; rfl)

theorem tells_of_byteSet? {f : Form} {set : ByteSet} (h : f.byteSet? = some set) : f.Tells := by
  obtain ⟨op, hop, -⟩ := Option.bind_eq_some_iff.mp h
  exact tells_of_terminal hop

end Form

/-- The operand of a negation. -/
def Operator.negated : Operator → List ExprId
  | not inner => [inner]
  | _ => []

namespace Grammar

variable {g h : Grammar} {e x : ExprId}

/-- The form of a node. -/
def form (g : Grammar) (e : ExprId) : Form where
  terminal := if (g.op e).isTerminal then some (g.op e) else none
  literal := g.literalBytes? e
  dispatch := g.dispatchForm? e

/-- The form of a node has the byte set of the node. -/
theorem byteSet?_form (g : Grammar) (e : ExprId) : (g.form e).byteSet? = (g.op e).byteSet? := by
  show Option.bind (if (g.op e).isTerminal then some (g.op e) else none) _ = _
  cases g.op e <;> rfl

/-- The form of a node is that of a terminal exactly if the node is this terminal. -/
theorem terminal_form_eq_some {op : Operator} :
    (g.form e).terminal = some op ↔ g.op e = op ∧ op.isTerminal := by
  show (if (g.op e).isTerminal then some (g.op e) else none) = some op ↔ _
  split
  · rename_i hterminal
    rw [Option.some_inj]
    exact ⟨fun h ↦ ⟨h, h ▸ hterminal⟩, fun h ↦ h.1⟩
  · rename_i hterminal
    exact ⟨fun h ↦ (nomatch h), fun ⟨h, h'⟩ ↦ absurd (h ▸ h') hterminal⟩

/-- A terminal is neither a literal nor a dispatch form. -/
theorem form_eq_ofTerminal {op : Operator} (hop : g.op e = op) (hterminal : op.isTerminal) :
    g.form e = .ofTerminal op := by
  subst hop
  unfold form literalBytes? dispatchForm? Form.ofTerminal
  cases hop : g.op e with rw [hop] at hterminal
  | anyByte | byte _ | byteClass _ => rfl
  | _ => cases hterminal

/-! ### One node, given the forms found for others -/

section

variable (forms : ExprId → Form)

/-- The union of the byte sets of `alts`, if all are found to be byte sets. -/
def unionIn (set : ByteSet) : List ExprId → Option ByteSet
  | [] => some set
  | alt :: alts => (forms alt).byteSet?.bind fun s ↦ unionIn (set.union s) alts

/-- The bytes that start one of the negated operands, and whether one of these is a literal. -/
def startsIn (g : Grammar) (starts : ByteSet) (hasLiteral : Bool) :
    List ExprId → Option (ByteSet × Bool)
  | [] => some (starts, hasLiteral)
  | item :: items =>
    match g.op item with
    | .not inner =>
      match (forms inner).byteSet?, (forms inner).literal with
      | some set, _ => startsIn g (starts.union set) hasLiteral items
      | none, some (first :: _) => startsIn g (starts.insert first) true items
      | none, _ => none
    | _ => none

/-- The form for a sequence of negations and any byte. -/
def lookaheadIn (g : Grammar) (items : List ExprId) : Option Form :=
  match items.getLast? with
  | none => none
  | some last =>
    if items.dropLast.isEmpty then none
    else
      match (forms last).terminal with
      | some .anyByte => (startsIn forms g .empty false items.dropLast).map fun (starts, literal) ↦
        if literal then { dispatch := some starts.compl } else .ofTerminal (.byteClass starts.compl)
      | _ => none

/-- The form for a node; nothing when the node itself is what is found. -/
def foundIn (g : Grammar) (e : ExprId) : Option Form :=
  match g.op e with
  | .choice alts => (unionIn forms .empty alts).map fun set ↦ .ofTerminal (.byteClass set)
  | .sequence [only] => (forms only).terminal.map .ofTerminal
  | .sequence items => lookaheadIn forms g items
  | .reference rule => (g.body? rule).bind fun body ↦ (forms body).terminal.map .ofTerminal
  | _ => none

end

/-- The nodes that the form for a node depends on. -/
def asked (g : Grammar) (e : ExprId) : List ExprId :=
  match g.op e with
  | .choice alts => alts
  | .sequence items => items.getLast?.toList ++ items.dropLast.flatMap fun i ↦ (g.op i).negated
  | .reference rule => (g.body? rule).toList
  | _ => []

section

variable {forms forms' : ExprId → Form}

/-- A union is found of alternatives that tell something. -/
theorem unionIn_tells {alts : List ExprId} {set union : ByteSet}
    (h : unionIn forms set alts = some union) : ∀ x ∈ alts, (forms x).Tells := by
  induction alts generalizing set with
  | nil => exact fun x hx ↦ nomatch hx
  | cons alt alts ih =>
    obtain ⟨s, hs, h⟩ := Option.bind_eq_some_iff.mp h
    intro x hx
    rcases List.mem_cons.mp hx with rfl | hx
    · exact Form.tells_of_byteSet? hs
    · exact ih h x hx

/-- And stays the same however the forms of others change. -/
theorem unionIn_mono {alts : List ExprId} {set union : ByteSet}
    (h : unionIn forms set alts = some union)
    (hforms : ∀ x ∈ alts, (forms x).Tells → forms' x = forms x) :
    unionIn forms' set alts = some union := by
  induction alts generalizing set with
  | nil => exact h
  | cons alt alts ih =>
    have htells := unionIn_tells h alt List.mem_cons_self
    rw [unionIn] at h ⊢
    rw [hforms alt List.mem_cons_self htells]
    obtain ⟨s, hs, h⟩ := Option.bind_eq_some_iff.mp h
    rw [hs]
    exact ih h fun x hx ↦ hforms x (List.mem_cons_of_mem _ hx)

/-- Going on from a negation whose operand tells. -/
theorem startsIn_cons {item : ExprId} {items : List ExprId} {starts : ByteSet} {hasLiteral : Bool}
    {result : ByteSet × Bool}
    (h : startsIn forms g starts hasLiteral (item :: items) = some result) :
    ∃ inner starts' hasLiteral', g.op item = .not inner ∧ (forms inner).Tells ∧
      startsIn forms g starts' hasLiteral' items = some result ∧
      ∀ forms', forms' inner = forms inner →
        startsIn forms' g starts hasLiteral (item :: items) =
          startsIn forms' g starts' hasLiteral' items := by
  rw [startsIn] at h
  split at h
  · rename_i inner hop
    split at h
    · rename_i set hset
      refine ⟨inner, _, _, hop, Form.tells_of_byteSet? hset, h, fun forms' heq ↦ ?_⟩
      simp only [startsIn, hop, heq, hset]
    · rename_i first rest hset hliteral
      refine ⟨inner, _, _, hop, .inr (by rw [hliteral]; rfl), h, fun forms' heq ↦ ?_⟩
      simp only [startsIn, hop, heq, hset, hliteral]
    · cases h
  · cases h

/-- The starts of negated operands are gathered from operands that tell something. -/
theorem startsIn_tells {items : List ExprId} {starts : ByteSet} {hasLiteral : Bool}
    {result : ByteSet × Bool} (h : startsIn forms g starts hasLiteral items = some result) :
    ∀ x ∈ items.flatMap fun i ↦ (g.op i).negated, (forms x).Tells := by
  induction items generalizing starts hasLiteral with
  | nil => exact fun x hx ↦ nomatch hx
  | cons item items ih =>
    obtain ⟨inner, _, _, hop, htells, hrest, -⟩ := startsIn_cons h
    intro x hx
    rw [List.flatMap_cons, hop, List.mem_append] at hx
    rcases hx with hx | hx
    · rwa [List.mem_singleton.mp hx]
    · exact ih hrest x hx

/-- Only negations are gone through. -/
theorem startsIn_not {items : List ExprId} {starts : ByteSet} {hasLiteral : Bool}
    {result : ByteSet × Bool} (h : startsIn forms g starts hasLiteral items = some result) :
    ∀ item ∈ items, ∃ inner, g.op item = .not inner := by
  induction items generalizing starts hasLiteral with
  | nil => exact fun x hx ↦ nomatch hx
  | cons item items ih =>
    obtain ⟨inner, _, _, hop, -, hrest, -⟩ := startsIn_cons h
    intro x hx
    rcases List.mem_cons.mp hx with rfl | hx
    · exact ⟨inner, hop⟩
    · exact ih hrest x hx

/-- And stay the same however the forms of others change. -/
theorem startsIn_mono {items : List ExprId} {starts : ByteSet} {hasLiteral : Bool}
    {result : ByteSet × Bool} (h : startsIn forms g starts hasLiteral items = some result)
    (hforms : ∀ x ∈ items.flatMap fun i ↦ (g.op i).negated, (forms x).Tells → forms' x = forms x) :
    startsIn forms' g starts hasLiteral items = some result := by
  induction items generalizing starts hasLiteral with
  | nil => exact h
  | cons item items ih =>
    obtain ⟨inner, _, _, hop, htells, hrest, hstep⟩ := startsIn_cons h
    rw [List.flatMap_cons, hop] at hforms
    have hinner : inner ∈ (Operator.not inner).negated := List.mem_singleton_self inner
    rw [hstep forms' (hforms inner (List.mem_append_left _ hinner) htells)]
    exact ih hrest fun x hx ↦ hforms x (List.mem_append_right _ hx)

/-- A sequence for which a form is found: any byte after negations, at least one of them. -/
theorem lookaheadIn_eq_some {items : List ExprId} {f : Form}
    (h : lookaheadIn forms g items = some f) :
    ∃ last starts hasLiteral, items.getLast? = some last ∧ items.dropLast ≠ [] ∧
      (forms last).terminal = some .anyByte ∧
      startsIn forms g .empty false items.dropLast = some (starts, hasLiteral) ∧
      f = if hasLiteral then { dispatch := some starts.compl }
        else .ofTerminal (.byteClass starts.compl) := by
  unfold lookaheadIn at h
  split at h
  · cases h
  · rename_i last hlast
    split at h
    · cases h
    · rename_i hne
      split at h
      · rename_i hany
        obtain ⟨⟨starts, hasLiteral⟩, hstarts, rfl⟩ := Option.map_eq_some_iff.mp h
        exact ⟨last, starts, hasLiteral, hlast, fun hnil ↦ hne (by rw [hnil]; rfl), hany, hstarts,
          rfl⟩
      · cases h

/-- This is also sufficient. -/
theorem lookaheadIn_of {items : List ExprId} {last : ExprId} {starts : ByteSet} {hasLiteral : Bool}
    (hlast : items.getLast? = some last) (hne : items.dropLast ≠ [])
    (hany : (forms last).terminal = some .anyByte)
    (hstarts : startsIn forms g .empty false items.dropLast = some (starts, hasLiteral)) :
    lookaheadIn forms g items = some (if hasLiteral then { dispatch := some starts.compl }
      else .ofTerminal (.byteClass starts.compl)) := by
  have hempty : items.dropLast.isEmpty = false := by
    rwa [List.isEmpty_eq_false_iff]
  simp only [lookaheadIn, hlast, hempty, hany, hstarts, Option.map_some, Bool.false_eq_true,
    if_false]

/-- A dispatch form is found for sequences only. -/
theorem exists_lookahead_of_dispatch {fast : ByteSet}
    (h : foundIn forms g e = some { dispatch := some fast }) :
    ∃ items, g.op e = .sequence items ∧
      lookaheadIn forms g items = some { dispatch := some fast } := by
  unfold foundIn at h
  split at h
  · obtain ⟨set, -, hset⟩ := Option.map_eq_some_iff.mp h
    cases hset
  · obtain ⟨op, -, hop⟩ := Option.map_eq_some_iff.mp h
    cases hop
  · rename_i items _ hop
    exact ⟨items, hop, h⟩
  · obtain ⟨body, -, h⟩ := Option.bind_eq_some_iff.mp h
    obtain ⟨op, -, hop⟩ := Option.map_eq_some_iff.mp h
    cases hop
  · cases h

/-- When a form is found, those of all nodes that it depends on tell something. -/
theorem tells_of_foundIn {f : Form} (h : foundIn forms g e = some f) :
    ∀ x ∈ g.asked e, (forms x).Tells := by
  unfold foundIn at h
  unfold asked
  split at h
  · rename_i alts hop
    obtain ⟨set, hset, -⟩ := Option.map_eq_some_iff.mp h
    rw [hop]
    exact unionIn_tells hset
  · rename_i only hop
    obtain ⟨op, hterminal, -⟩ := Option.map_eq_some_iff.mp h
    rw [hop]
    intro x hx
    obtain rfl : x = only := by simpa using hx
    exact Form.tells_of_terminal hterminal
  · rename_i items _ hop
    obtain ⟨last, starts, hasLiteral, hlast, -, hany, hstarts, -⟩ := lookaheadIn_eq_some h
    rw [hop]
    intro x hx
    change x ∈ items.getLast?.toList ++ _ at hx
    rw [hlast, List.mem_append] at hx
    rcases hx with hx | hx
    · obtain rfl : x = last := by simpa using hx
      exact Form.tells_of_terminal hany
    · exact startsIn_tells hstarts x hx
  · rename_i rule hop
    obtain ⟨body, hbody, h⟩ := Option.bind_eq_some_iff.mp h
    obtain ⟨op, hterminal, -⟩ := Option.map_eq_some_iff.mp h
    rw [hop]
    intro x hx
    obtain rfl : x = body := by simpa [hbody] using hx
    exact Form.tells_of_terminal hterminal
  · cases h

/-- A form that is found depends on forms that tell something only. -/
theorem foundIn_mono {f : Form} (h : foundIn forms g e = some f)
    (hforms : ∀ x ∈ g.asked e, (forms x).Tells → forms' x = forms x) :
    foundIn forms' g e = some f := by
  have htells := tells_of_foundIn h
  have heq (x : ExprId) (hx : x ∈ g.asked e) : forms' x = forms x := hforms x hx (htells x hx)
  unfold foundIn at h ⊢
  unfold asked at hforms heq
  split at h
  · rename_i alts hop
    rw [hop] at hforms
    obtain ⟨set, hset, rfl⟩ := Option.map_eq_some_iff.mp h
    simp only [unionIn_mono hset hforms]
    rfl
  · rename_i only hop
    rw [hop] at heq
    simp only [heq only (List.mem_singleton_self only)]
    exact h
  · rename_i items hne hop
    rw [hop] at hforms heq
    obtain ⟨last, starts, hasLiteral, hlast, hnots, hany, hstarts, rfl⟩ := lookaheadIn_eq_some h
    have hlast' := heq last
      (List.mem_append_left _ (by rw [hlast]; exact List.mem_singleton_self _))
    refine lookaheadIn_of hlast hnots (by rw [hlast', hany]) (startsIn_mono hstarts fun x hx ↦ ?_)
    exact hforms x (List.mem_append_right _ hx)
  · rename_i rule hop
    obtain ⟨body, hbody, h⟩ := Option.bind_eq_some_iff.mp h
    rw [hop] at heq
    simp only [hbody, Option.bind_some]
    rw [heq body (by simp [hbody])]
    exact h
  · cases h

/-- What is found depends on the nodes that are asked for. -/
theorem foundIn_congr (h : ∀ x ∈ g.asked e, forms' x = forms x) :
    foundIn forms' g e = foundIn forms g e := by
  ext f
  exact ⟨fun hf ↦ foundIn_mono hf fun x hx _ ↦ (h x hx).symm,
    fun hf ↦ foundIn_mono hf fun x hx _ ↦ h x hx⟩

end

/-! ### Going down -/

section

variable {base : ExprId → Option ExprId}

/-- The form found for a node by going down at most `n` levels; nothing when the node itself is what
is found. -/
def foundWithin (base : ExprId → Option ExprId) (g : Grammar) : Nat → ExprId → Option Form
  | 0, e => (base e).bind fun other ↦ if other = e then none else some (g.form other)
  | n + 1, e =>
    match base e with
    | some other => if other = e then none else some (g.form other)
    | none => foundIn (fun x ↦ (foundWithin base g n x).getD (g.form x)) g e

theorem foundWithin_of_base {other : ExprId} (hbase : base e = some other) (n : Nat) :
    g.foundWithin base n e = if other = e then none else some (g.form other) := by
  cases n with
  | zero => rw [foundWithin, hbase]; rfl
  | succ n => simp only [foundWithin, hbase]

theorem foundWithin_zero (hbase : base e = none) : g.foundWithin base 0 e = none := by
  rw [foundWithin, hbase]
  rfl

theorem foundWithin_succ (hbase : base e = none) (n : Nat) :
    g.foundWithin base (n + 1) e =
      foundIn (fun x ↦ (g.foundWithin base n x).getD (g.form x)) g e := by
  simp only [foundWithin, hbase]

/-- Nothing else is found for a node that tells something itself. -/
theorem foundIn_eq_none_of_tells {forms : ExprId → Form} (he : (g.form e).Tells) :
    foundIn forms g e = none := by
  rcases he with he | he
  · obtain ⟨op, hop⟩ := Option.isSome_iff_exists.mp he
    obtain ⟨rfl, hterminal⟩ := terminal_form_eq_some.mp hop
    unfold foundIn
    split
    all_goals first
      | rfl
      | rename_i hop; rw [hop] at hterminal; cases hterminal
  · -- the items of a literal are bytes, none of them a negation
    obtain ⟨bytes, hbytes⟩ := Option.isSome_iff_exists.mp he
    obtain ⟨items, hop, hlength, hitems⟩ := exists_bytes_of_literalBytes? hbytes
    obtain ⟨first, second, rest, rfl⟩ : ∃ a b l, items = a :: b :: l := by
      rcases items with - | ⟨a, - | ⟨b, l⟩⟩
      · cases hlength
      · exact absurd hlength (by simp)
      · exact ⟨a, b, l, rfl⟩
    by_contra hne
    obtain ⟨f, hf⟩ := Option.ne_none_iff_exists'.mp hne
    simp only [foundIn, hop] at hf
    obtain ⟨last, starts, hasLiteral, -, -, -, hstarts, -⟩ := lookaheadIn_eq_some hf
    obtain ⟨inner, _, _, hnot, -⟩ := startsIn_cons hstarts
    obtain ⟨b, hb⟩ := hitems first List.mem_cons_self
    rw [hnot] at hb
    cases hb

/-- Nothing else is found for it at any level. -/
theorem foundWithin_of_tells (hbase : base e = none) (he : (g.form e).Tells) (n : Nat) :
    g.foundWithin base n e = none := by
  cases n with
  | zero => exact foundWithin_zero hbase
  | succ n => rw [foundWithin_succ hbase, foundIn_eq_none_of_tells he]

/-- Going down further finds the same. -/
theorem foundWithin_mono {m n : Nat} {f : Form} (hmn : m ≤ n)
    (h : g.foundWithin base m e = some f) : g.foundWithin base n e = some f := by
  induction m generalizing n e f with
  | zero =>
    rcases hbase : base e with - | other
    · rw [foundWithin_zero hbase] at h
      cases h
    · rwa [foundWithin_of_base hbase] at h ⊢
  | succ m ih =>
    rcases hbase : base e with - | other
    · obtain ⟨n, rfl⟩ : ∃ k, n = k + 1 := ⟨n - 1, by omega⟩
      rw [foundWithin_succ hbase] at h ⊢
      refine foundIn_mono h fun x _ htells ↦ ?_
      rcases hx : g.foundWithin base m x with - | f
      · rw [hx, Option.getD_none] at htells
        rcases hbasex : base x with - | other
        · rw [foundWithin_of_tells hbasex htells]
        · rw [foundWithin_of_base hbasex] at hx ⊢
          rw [hx]
      · rw [ih (by omega) hx]
    · rwa [foundWithin_of_base hbase] at h ⊢

open Classical in
/-- The form found for a node by going down as far as it takes. -/
noncomputable def found (base : ExprId → Option ExprId) (g : Grammar) (e : ExprId) : Option Form :=
  if h : ∃ n, (g.foundWithin base n e).isSome then g.foundWithin base (Nat.find h) e else none

/-- A form is found if it is found at some level. -/
theorem found_eq_some {f : Form} :
    g.found base e = some f ↔ ∃ n, g.foundWithin base n e = some f := by
  classical
  unfold found
  split
  · rename_i hsome
    obtain ⟨f', hf'⟩ := Option.isSome_iff_exists.mp (Nat.find_spec hsome)
    constructor
    · exact fun h ↦ ⟨_, h⟩
    · rintro ⟨n, hn⟩
      have hle : Nat.find hsome ≤ n := Nat.find_min' hsome (by rw [hn]; rfl)
      rw [hf', ← hn, foundWithin_mono hle hf']
  · rename_i hnone
    refine ⟨fun h ↦ (nomatch h), fun ⟨n, hn⟩ ↦ absurd ⟨n, ?_⟩ hnone⟩
    rw [hn]
    rfl

/-- Nothing is found if nothing is found at any level. -/
theorem found_eq_none : g.found base e = none ↔ ∀ n, g.foundWithin base n e = none := by
  constructor
  · intro h n
    rcases hn : g.foundWithin base n e with - | f
    · rfl
    · rw [found_eq_some.mpr ⟨n, hn⟩] at h
      cases h
  · intro h
    rcases hf : g.found base e with - | f
    · rfl
    · obtain ⟨n, hn⟩ := found_eq_some.mp hf
      rw [h n] at hn
      cases hn

theorem found_of_base {other : ExprId} (hbase : base e = some other) :
    g.found base e = if other = e then none else some (g.form other) := by
  ext f
  rw [found_eq_some]
  simp only [foundWithin_of_base hbase, exists_const]

/-- From some level on nothing more is found. -/
theorem exists_foundWithin_eq (base : ExprId → Option ExprId) (g : Grammar) (e : ExprId) :
    ∃ n, ∀ m ≥ n, g.foundWithin base m e = g.found base e := by
  rcases hf : g.found base e with - | f
  · exact ⟨0, fun m _ ↦ found_eq_none.mp hf m⟩
  · obtain ⟨n, hn⟩ := found_eq_some.mp hf
    exact ⟨n, fun m hm ↦ foundWithin_mono hm hn⟩

/-- The form of the node that is encoded for another one. -/
noncomputable def formFound (base : ExprId → Option ExprId) (g : Grammar) (e : ExprId) : Form :=
  (g.found base e).getD (g.form e)

/-- What is found for a node follows from what is found for the nodes that it depends on. -/
theorem found_eq_foundIn (hbase : base e = none) :
    g.found base e = foundIn (g.formFound base) g e := by
  have hlevels (xs : List ExprId) :
      ∃ n, ∀ m ≥ n, ∀ x ∈ xs, g.foundWithin base m x = g.found base x := by
    induction xs with
    | nil => exact ⟨0, fun m _ x hx ↦ nomatch hx⟩
    | cons x xs ih =>
      obtain ⟨n, hn⟩ := ih
      obtain ⟨n', hn'⟩ := exists_foundWithin_eq base g x
      refine ⟨max n n', fun m hm y hy ↦ ?_⟩
      rcases List.mem_cons.mp hy with rfl | hy
      · exact hn' m (by omega)
      · exact hn m (by omega) y hy
  obtain ⟨n, hn⟩ := hlevels (g.asked e)
  obtain ⟨n', hn'⟩ := exists_foundWithin_eq base g e
  rw [← hn' (max n n' + 1) (by omega), foundWithin_succ hbase]
  refine foundIn_congr fun x hx ↦ ?_
  rw [hn _ (by omega) x hx]
  rfl

end

/-! ### Corresponding nodes -/

/-- Corresponding nodes have corresponding operators, and negations the same operand. -/
structure Mirrors (R : ExprId → ExprId → Prop) (g h : Grammar) : Prop where
  /-- Their operators correspond. -/
  op : ∀ {a x}, R a x → (g.op a).Corresponds R g.body? h.body? (h.op x)
  /-- The operand of a negation corresponds to itself. -/
  negated : ∀ {a x}, R a x → ∀ inner, g.op a = .not inner → R inner inner

namespace Mirrors

variable {R : ExprId → ExprId → Prop} {a : ExprId} (hr : g.Mirrors R h)

include hr in
/-- Corresponding nodes are the same terminals. -/
theorem op_eq_iff (ha : R a x) {op : Operator} (hterminal : op.isTerminal) :
    g.op a = op ↔ h.op x = op := by
  have hop := hr.op ha
  generalize g.op a = op₁, h.op x = op₂ at hop
  cases hop with
  | sequence _ | choice _ | reference _ _ =>
    constructor
    all_goals
      rintro rfl
      cases hterminal
  | same _ _ _ => exact Iff.rfl

include hr in
/-- Corresponding nodes are the same bytes. -/
theorem byte?_eq (ha : R a x) : (g.op a).byte? = (h.op x).byte? := by
  have hop := hr.op ha
  generalize g.op a = op₁, h.op x = op₂ at hop
  cases hop with
  | sequence _ | choice _ | reference _ _ | same _ _ _ => rfl

include hr in
theorem literalBytes?_eq (ha : R a x) : g.literalBytes? a = h.literalBytes? x := by
  have hop := hr.op ha
  unfold literalBytes?
  generalize g.op a = op₁, h.op x = op₂ at hop
  cases hop with
  | @sequence xs ys hxs =>
    have hbytes : xs.mapM (fun item ↦ (g.op item).byte?) =
        ys.mapM fun item ↦ (h.op item).byte? := by
      induction hxs with
      | nil => rfl
      | cons hx _ ih => rw [List.mapM_cons, List.mapM_cons, hr.byte?_eq hx, ih]
    dsimp only
    rw [hbytes, hxs.length_eq]
  | choice _ | reference _ _ => rfl
  | same hsequence _ _ =>
    split
    · exact absurd rfl (hsequence _)
    · rfl

include hr in
theorem dispatchForm?_eq (ha : R a x) : g.dispatchForm? a = h.dispatchForm? x := by
  have hop := hr.op ha
  unfold dispatchForm?
  generalize g.op a = op₁, h.op x = op₂ at hop
  cases hop with
  | choice hxs =>
    rcases hxs with - | ⟨hfast, - | ⟨hany, - | _⟩⟩
    · rfl
    · rfl
    · have hfast := hr.op hfast
      have hany := hr.op hany
      dsimp only
      generalize g.op _ = op₁, h.op _ = op₂ at hfast
      generalize g.op _ = op₃, h.op _ = op₄ at hany
      cases hfast with
      | sequence _ | choice _ | reference _ _ => rfl
      | same _ _ _ =>
        cases hany with
        | same _ _ _ => rfl
        | sequence _ | choice _ | reference _ _ => cases op₁ <;> rfl
    · rfl
  | sequence _ | reference _ _ => rfl
  | same _ hchoice _ =>
    split
    · exact absurd rfl (hchoice _)
    · rfl

include hr in
/-- Corresponding nodes have the same form. -/
theorem form_eq (ha : R a x) : g.form a = h.form x := by
  have hterminal : (g.form a).terminal = (h.form x).terminal := by
    ext op
    rw [terminal_form_eq_some, terminal_form_eq_some]
    exact and_congr_left fun hterminal ↦ hr.op_eq_iff ha hterminal
  have hliteral : (g.form a).literal = (h.form x).literal := hr.literalBytes?_eq ha
  have hdispatch : (g.form a).dispatch = (h.form x).dispatch := hr.dispatchForm?_eq ha
  rw [Form.mk.injEq]
  exact ⟨hterminal, hliteral, hdispatch⟩

variable {forms forms' : ExprId → Form}

theorem unionIn_eq (hforms : ∀ a x, R a x → forms a = forms' x) {xs ys : List ExprId}
    (hxs : List.Forall₂ R xs ys) (set : ByteSet) :
    unionIn forms set xs = unionIn forms' set ys := by
  induction hxs generalizing set with
  | nil => rfl
  | cons hx _ ih =>
    rw [unionIn, unionIn, hforms _ _ hx]
    exact congrArg _ (funext fun s ↦ ih (set.union s))

include hr in
theorem startsIn_eq (hforms : ∀ a x, R a x → forms a = forms' x) {xs ys : List ExprId}
    (hxs : List.Forall₂ R xs ys) (starts : ByteSet) (hasLiteral : Bool) :
    startsIn forms g starts hasLiteral xs = startsIn forms' h starts hasLiteral ys := by
  induction hxs generalizing starts hasLiteral with
  | nil => rfl
  | @cons a x _ _ hx _ ih =>
    have hop := hr.op hx
    have hnegated := hr.negated hx
    rw [startsIn, startsIn]
    generalize g.op a = op₁, h.op x = op₂ at hop hnegated
    cases hop with
    | sequence _ | choice _ | reference _ _ => rfl
    | same _ _ _ =>
      cases op₁ with
      | not inner =>
        dsimp only
        rw [hforms _ _ (hnegated inner rfl)]
        split
        · exact ih _ _
        · exact ih _ _
        · rfl
      | _ => rfl

theorem getLast?_rel {xs ys : List ExprId} (hxs : List.Forall₂ R xs ys) :
    Option.Rel R xs.getLast? ys.getLast? := by
  rw [List.getLast?_eq_head?_reverse, List.getLast?_eq_head?_reverse]
  have hreverse := List.rel_reverse hxs
  generalize xs.reverse = xs', ys.reverse = ys' at hreverse
  cases hreverse with
  | nil => exact .none
  | cons hx _ => exact .some hx

theorem dropLast_rel {xs ys : List ExprId} (hxs : List.Forall₂ R xs ys) :
    List.Forall₂ R xs.dropLast ys.dropLast := by
  rw [List.dropLast_eq_take, List.dropLast_eq_take, hxs.length_eq]
  exact List.forall₂_take _ hxs

include hr in
/-- Corresponding sequences become the same. -/
theorem lookaheadIn_eq (hforms : ∀ a x, R a x → forms a = forms' x) {xs ys : List ExprId}
    (hxs : List.Forall₂ R xs ys) : lookaheadIn forms g xs = lookaheadIn forms' h ys := by
  have hlast := getLast?_rel hxs
  have hnots := dropLast_rel hxs
  have hstarts := hr.startsIn_eq hforms hnots .empty false
  unfold lookaheadIn
  rw [hstarts]
  generalize xs.getLast? = last, ys.getLast? = last' at hlast
  generalize xs.dropLast = nots, ys.dropLast = nots' at hnots
  cases hlast with
  | none => rfl
  | some hlast =>
    have hempty : nots.isEmpty = nots'.isEmpty := by
      cases hnots with
      | nil => rfl
      | cons _ _ => rfl
    dsimp only
    rw [hforms _ _ hlast, hempty]

include hr in
/-- The same form is found for corresponding nodes, given forms of other nodes that are the same for
corresponding ones. -/
theorem foundIn_eq (hforms : ∀ a x, R a x → forms a = forms' x) (ha : R a x) :
    foundIn forms g a = foundIn forms' h x := by
  have hop := hr.op ha
  unfold foundIn
  generalize g.op a = op₁, h.op x = op₂ at hop
  cases hop with
  | choice hxs =>
    dsimp only
    rw [unionIn_eq hforms hxs]
  | sequence hxs =>
    have hlookahead := hr.lookaheadIn_eq hforms hxs
    rcases hxs with - | ⟨hx, - | ⟨hy, hxs⟩⟩
    · exact hlookahead
    · dsimp only
      rw [hforms _ _ hx]
    · exact hlookahead
  | reference rule hbody =>
    dsimp only
    generalize g.body? rule = body, h.body? rule = body' at hbody
    cases hbody with
    | none => rfl
    | some hbody =>
      exact congrArg (fun f : Form ↦ f.terminal.map Form.ofTerminal) (hforms _ _ hbody)
  | same hsequence hchoice hreference =>
    split
    · exact absurd rfl (hchoice _)
    · exact absurd rfl (hsequence _)
    · exact absurd rfl (hsequence _)
    · exact absurd rfl (hreference _)
    · rfl

variable {base : ExprId → Option ExprId} (hbase : ∀ a x, R a x →
  (base a = none ∧ base x = none) ∨ (a = x ∧ ∀ other, base a = some other → R other other))

include hr hbase in
/-- The same is found for corresponding nodes at every level. -/
theorem foundWithin_eq (ha : R a x) (n : Nat) :
    g.foundWithin base n a = h.foundWithin base n x := by
  induction n generalizing a x with
  | zero =>
    rcases hbase a x ha with ⟨hnone, hnone'⟩ | ⟨rfl, hother⟩
    · rw [foundWithin_zero hnone, foundWithin_zero hnone']
    · rcases hsome : base a with - | other
      · rw [foundWithin_zero hsome, foundWithin_zero hsome]
      · rw [foundWithin_of_base hsome, foundWithin_of_base hsome, hr.form_eq (hother other hsome)]
  | succ n ih =>
    have hforms (a x : ExprId) (ha : R a x) : (g.foundWithin base n a).getD (g.form a) =
        (h.foundWithin base n x).getD (h.form x) := by
      rw [ih ha, hr.form_eq ha]
    have hfound := hr.foundIn_eq hforms ha
    rcases hbase a x ha with ⟨hnone, hnone'⟩ | ⟨rfl, hother⟩
    · rw [foundWithin_succ hnone, foundWithin_succ hnone', hfound]
    · rcases hsome : base a with - | other
      · rw [foundWithin_succ hsome, foundWithin_succ hsome, hfound]
      · rw [foundWithin_of_base hsome, foundWithin_of_base hsome, hr.form_eq (hother other hsome)]

include hr hbase in
/-- What simplification finds for a node has the same form as what it finds for a corresponding
one. -/
theorem found_eq (ha : R a x) : g.found base a = h.found base x := by
  ext f
  simp only [found_eq_some, hr.foundWithin_eq hbase ha]

end Mirrors

/-- The recorded results are about nodes, and are nodes. -/
def Closed (g : Grammar) (base : ExprId → Option ExprId) : Prop :=
  ∀ e other, base e = some other → e < g.size ∧ other < g.size

/-- The old nodes correspond to themselves in a larger grammar. -/
theorem Extends.mirrors (hgh : g.Extends h) (hg : g.WellFormed) :
    g.Mirrors (fun a x ↦ a = x ∧ a < g.size) h where
  op := by
    rintro a _ ⟨rfl, ha⟩
    rw [hgh.op_eq a ha, funext hgh.body?_eq]
    exact Operator.corresponds_self (fun e he ↦ ⟨rfl, Nat.lt_trans (hg.child_lt he) ha⟩)
      fun rule e _ hbody ↦ ⟨rfl, hg.body_lt rule e hbody⟩
  negated := by
    rintro a _ ⟨rfl, ha⟩ inner hop
    exact ⟨rfl, Nat.lt_trans (hg.child_lt (by rw [hop]; exact List.mem_singleton_self inner)) ha⟩

theorem Extends.form_eq (hgh : g.Extends h) (hg : g.WellFormed) (he : e < g.size) :
    h.form e = g.form e :=
  ((hgh.mirrors hg).form_eq ⟨rfl, he⟩).symm

/-- In a larger grammar the same is found for old nodes. -/
theorem Extends.foundWithin_eq {base : ExprId → Option ExprId} (hgh : g.Extends h)
    (hg : g.WellFormed) (hbase : g.Closed base) (he : e < g.size) (n : Nat) :
    h.foundWithin base n e = g.foundWithin base n e := by
  refine ((hgh.mirrors hg).foundWithin_eq ?_ ⟨rfl, he⟩ n).symm
  rintro a _ ⟨rfl, ha⟩
  exact .inr ⟨rfl, fun other hother ↦ ⟨rfl, (hbase a other hother).2⟩⟩

/-- However far one goes down. -/
theorem Extends.found_eq {base : ExprId → Option ExprId} (hgh : g.Extends h) (hg : g.WellFormed)
    (hbase : g.Closed base) (he : e < g.size) : h.found base e = g.found base e := by
  ext f
  simp only [found_eq_some, hgh.foundWithin_eq hg hbase he]

end Grammar

end ParsingMachine
