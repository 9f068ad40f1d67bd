import Mathlib.Computability.StateTransition
import Mathlib.Data.Finset.Card
import ParsingMachine.Proofs.Byte.Reading
import ParsingMachine.Proofs.Grammar.Attachment
import ParsingMachine.Proofs.Grammar.Evolution

/-!
# The notation of grammars can be read back

A written tree is read from left to right, one piece at a time (`Tree.readToken`). For each
parenthesis that is open the reader keeps what stands before the place where it is: alternatives,
items, the signs before an operand, and that operand as far as it is read (`Tree.Frame`). The reader
is a machine over the characters of the text. It is not part of what runs; it is there to show that
the text determines the tree.

What reading a tree does to a frame depends on the level at which the tree is written: an atom is an
operand, an operator with its operand is an item, a sequence is an alternative, and a choice is all
of a frame (`Tree.Ends`). Something else may stand in the frame already, and what may stand there
depends on the level as well (`Tree.Starts`). A tree of a tighter level than its place asks for does
there what a tree of that level does (`Tree.Ends.loosen`), and a tree of a looser level stands in
parentheses and is a single piece (`Tree.Readable.enclose`). So the levels are enough to find every
operand again, and there is one lemma for every place in which an operand can stand.

Items and alternatives are separated in the same way, by a space or by a slash between spaces, and
one structure covers both (`Tree.Separates`). A space also stands on both sides of the slash; there
it ends an item and starts none.

The reader never has a choice. It ends at one place only, and trees that are written alike are the
same. The operators in question are those of recognition, without references, for the name of a rule
may be any text (`Tree.Plain`). An expression is written as the tree that it unfolds to, in whatever
order the nodes of its arena were made (`Grammar.Unfolds`).

## Main statements

* `Grammar.Unfolds.display_eq`: an expression is written as the tree that it unfolds to.
* `Tree.Readable.enclose`: an operand is read as a tree of the level of its place.
* `Tree.Plain.readable`: a written tree is read as a tree of its level.
* `Tree.Plain.eq_of_chars_eq`: trees that are written alike are the same.
* `Grammar.eq_of_display_eq`: expressions that are displayed alike unfold to the same tree.
-/

namespace ParsingMachine

/-! ### Unfolding -/

namespace Grammar

variable {g : Grammar} {e : ExprId} {t : Tree}

/-- An expression unfolds to a tree if its operands unfold to the trees below. -/
inductive Unfolds (g : Grammar) : ExprId → Tree → Prop
  | node {e : ExprId} (sub : ExprId → Tree)
      (hsub : ∀ c ∈ (g.op e).children, Unfolds g c (sub c)) :
      Unfolds g e (g.treeOf sub (g.op e))

namespace Unfolds

/-- What unfolds does not contain itself. -/
theorem not_contains (h : g.Unfolds e t) : ∀ c ∈ (g.op e).children, ¬g.Contains c e := by
  induction h with
  | node sub _ ih =>
    intro c hc hpath
    rcases Relation.ReflTransGen.cases_head hpath with rfl | ⟨c', hc', hpath⟩
    · exact ih c hc c hc .refl
    · exact ih c hc c' hc' (hpath.tail hc)

/-- As many levels are enough as there are nodes that are not above the expression. -/
theorem treeWithin_eq (h : g.Unfolds e t) {depth : Nat} {above : Finset ExprId}
    (habove : above ⊆ Finset.range g.size) (hdepth : g.size < depth + above.card)
    (hnew : ∀ x, g.Contains e x → x ∉ above) : g.treeWithin depth e = t := by
  induction h generalizing depth above with
  | @node e sub hsub ih =>
    have hacyclic := (Unfolds.node sub hsub).not_contains
    cases depth with
    | zero =>
      have hcard := Finset.card_le_card habove
      rw [Finset.card_range] at hcard
      omega
    | succ depth =>
      rw [treeWithin_succ]
      refine treeOf_congr (fun _ ↦ rfl) fun c hc ↦ ?_
      have he : e ∈ Finset.range g.size := Finset.mem_range.mpr (lt_size_of_mem_children hc)
      refine ih c hc (Finset.insert_subset he habove) ?_ fun x hx hmem ↦ ?_
      · rw [Finset.card_insert_of_notMem (hnew e .refl)]
        omega
      · rcases Finset.mem_insert.mp hmem with rfl | hmem
        · exact hacyclic c hc hx
        · exact hnew x (.head hc hx) hmem

/-- The tree of an expression is the one that it unfolds to. -/
theorem tree_eq (h : g.Unfolds e t) : g.tree e = t :=
  h.treeWithin_eq (Finset.empty_subset _) (Nat.lt_succ_self _) fun _ _ ↦ Finset.notMem_empty _

/-- An expression is displayed as the tree that it unfolds to. -/
theorem display_eq (h : g.Unfolds e t) : g.display e = t.text := by
  rw [display, h.tree_eq]

end Unfolds

/-- Where nodes are made after their operands, every expression unfolds. -/
theorem WellFormed.unfolds (hg : g.WellFormed) (e : ExprId) : g.Unfolds e (g.tree e) := by
  induction e using Nat.strongRecOn with
  | ind e ih =>
    have hnode : g.Unfolds e (g.treeOf g.tree (g.op e)) :=
      .node g.tree fun c hc ↦ ih c (hg.child_lt hc)
    rwa [hnode.tree_eq]

end Grammar

namespace Tree

/-! ### Pieces -/

/-- A piece of a written tree. -/
inductive Token where
  /-- A tree that is one piece. -/
  | operand (t : Tree)
  /-- An operator before its operand. -/
  | sign (op : Tree → Tree)
  /-- An operator behind its operand. -/
  | suffix (op : Tree → Tree)
  /-- An opening parenthesis. -/
  | opening
  /-- A closing parenthesis. -/
  | closing
  /-- A space. -/
  | space
  /-- A slash. -/
  | slash

/-- The tree that is written as quoted bytes. -/
def ofQuoted : List (UInt8 × Bool) → Tree
  | [] => .empty
  | [b] => .byte b.1
  | read => .sequence (read.map fun b ↦ .byte b.1)

/-- The first piece of a text, and the text behind. -/
def readToken : List Char → Option (Token × List Char)
  | '<' :: 'f' :: 'a' :: 'i' :: 'l' :: '>' :: cs => some (.operand .fail, cs)
  | '[' :: cs => (readSet ('[' :: cs)).map fun (set, rest) ↦ (.operand (.byteClass set), rest)
  | '\'' :: cs => (readEscaped '\'' cs).map fun (read, rest) ↦ (.operand (ofQuoted read), rest)
  | '"' :: cs => (readEscaped '"' cs).map fun (read, rest) ↦ (.operand (ofQuoted read), rest)
  | '.' :: cs => some (.operand .anyByte, cs)
  | '&' :: cs => some (.sign .and, cs)
  | '!' :: cs => some (.sign .not, cs)
  | '*' :: cs => some (.suffix .star, cs)
  | '+' :: cs => some (.suffix .plus, cs)
  | '?' :: cs => some (.suffix .optional, cs)
  | '(' :: cs => some (.opening, cs)
  | ')' :: cs => some (.closing, cs)
  | ' ' :: cs => some (.space, cs)
  | '/' :: cs => some (.slash, cs)
  | _ => none

/-! ### The reader -/

/-- What has been read behind an opening parenthesis. -/
structure Frame where
  /-- The alternatives before the last one. -/
  alts : List Tree := []
  /-- The items of the last alternative, up to the last space. -/
  items : List Tree := []
  /-- The signs behind that space, the last first. -/
  signs : List (Tree → Tree) := []
  /-- What stands behind the signs. -/
  operand : Option Tree := none

/-- A single operand stands for itself. -/
def collect (wrap : List Tree → Tree) : List Tree → Tree
  | [t] => t
  | ts => wrap ts

namespace Frame

/-- A tree under the signs before it. -/
def signed (f : Frame) (t : Tree) : Tree :=
  f.signs.foldl (fun t op ↦ op t) t

/-- The last item: the operand under its signs. -/
def item (f : Frame) : Option Tree :=
  f.operand.map f.signed

/-- The items of the last alternative. -/
def allItems (f : Frame) : List Tree :=
  f.items ++ f.item.toList

/-- The alternatives. -/
def allAlts (f : Frame) : List Tree :=
  f.alts ++ [collect .sequence f.allItems]

/-- The tree that has been read. -/
def tree (f : Frame) : Tree :=
  collect .choice f.allAlts

end Frame

/-- What a piece does to the innermost frame and to those around it. -/
def shift : Token → Frame → List Frame → Frame × List Frame
  | .operand t, f, outer => ({ f with operand := some t }, outer)
  | .sign op, f, outer => ({ f with signs := op :: f.signs }, outer)
  | .suffix op, f, outer => ({ f with operand := f.operand.map op }, outer)
  | .space, f, outer => ({ alts := f.alts, items := f.allItems }, outer)
  | .slash, f, outer => ({ alts := f.allAlts }, outer)
  | .opening, f, outer => ({}, f :: outer)
  | .closing, f, around :: outer => ({ around with operand := some f.tree }, outer)
  | .closing, f, [] => (f, [])

/-- A reader at some place of a text. -/
structure Reader where
  /-- The innermost frame. -/
  frame : Frame
  /-- The frames around it. -/
  outer : List Frame
  /-- The text that is left. -/
  text : List Char

/-- Reads one piece. -/
def Reader.step (r : Reader) : Option Reader :=
  (readToken r.text).map fun (token, rest) ↦
    let (frame, outer) := shift token r.frame r.outer
    { frame, outer, text := rest }

/-- Reading goes from one place to another. -/
abbrev Reads : Reader → Reader → Prop :=
  StateTransition.Reaches Reader.step

variable {f f' : Frame} {outer outer' : List Frame} {t u : Tree} {text rest : List Char}
  {token : Token} {place level : Level}

/-- One piece is read. -/
theorem Reads.of_readToken (htoken : readToken text = some (token, rest))
    (hshift : shift token f outer = (f', outer')) :
    Reads ⟨f, outer, text⟩ ⟨f', outer', rest⟩ :=
  .single (by simp [Reader.step, htoken, hshift])

/-! ### What reading does to a frame -/

/-- A frame in which a tree of some level may start: what stands there already would otherwise
become a part of it. -/
structure Starts (level : Level) (f : Frame) : Prop where
  /-- Alternatives start with the first one. -/
  alts_eq : level.rank ≤ Level.choice.rank → f.alts = []
  /-- Items start with the first one. -/
  items_eq : level.rank ≤ Level.sequence.rank → f.items = []
  /-- Signs are for one operand only. -/
  signs_eq : level.rank ≤ Level.sequence.rank → f.signs = []

/-- What a frame has become when a tree of some level has been read. -/
def Ends : Level → Frame → Tree → Frame → Prop
  | .choice, _, t, f' => f'.tree = t
  | .sequence, f, t, f' => f'.alts = f.alts ∧ collect .sequence f'.allItems = t
  | .unary, f, t, f' => f'.alts = f.alts ∧ f'.items = f.items ∧ f'.item = some (f.signed t)
  | .atom, f, t, f' => f' = { f with operand := some t }

theorem starts_empty (level : Level) : Starts level {} :=
  ⟨fun _ ↦ rfl, fun _ ↦ rfl, fun _ ↦ rfl⟩

theorem starts_unary (f : Frame) : Starts .unary f :=
  ⟨fun h ↦ absurd h (by decide), fun h ↦ absurd h (by decide), fun h ↦ absurd h (by decide)⟩

/-- Where a tree may start, a tighter one may. -/
theorem Starts.tighten (hf : Starts place f) (hle : place.rank ≤ level.rank) : Starts level f :=
  ⟨fun h ↦ hf.alts_eq (Nat.le_trans hle h), fun h ↦ hf.items_eq (Nat.le_trans hle h),
    fun h ↦ hf.signs_eq (Nat.le_trans hle h)⟩

namespace Ends

/-- An operand is an item. -/
theorem unary (h : Ends level f t f') (hle : Level.unary.rank ≤ level.rank) :
    Ends .unary f t f' := by
  cases level with
  | choice | sequence => exact absurd hle (by decide)
  | unary => exact h
  | atom =>
    obtain rfl : f' = { f with operand := some t } := h
    exact ⟨rfl, rfl, rfl⟩

/-- An item is an alternative where no other item is before it. -/
theorem sequence (h : Ends level f t f') (hle : Level.sequence.rank ≤ level.rank)
    (hf : Starts .sequence f) : Ends .sequence f t f' := by
  cases level with
  | choice => exact absurd hle (by decide)
  | sequence => exact h
  | unary | atom =>
    obtain ⟨halts, hitems, hitem⟩ := h.unary (by decide)
    refine ⟨halts, ?_⟩
    rw [Frame.allItems, hitems, hitem, Frame.signed, hf.items_eq (Nat.le_refl _),
      hf.signs_eq (Nat.le_refl _)]
    rfl

/-- An alternative is everything where no other one is before it. -/
theorem choice (h : Ends level f t f') (hf : Starts .choice f) : Ends .choice f t f' := by
  cases level with
  | choice => exact h
  | sequence | unary | atom =>
    obtain ⟨halts, hlast⟩ := h.sequence (by decide) (hf.tighten (by decide))
    rw [Ends, Frame.tree, Frame.allAlts, halts, hlast, hf.alts_eq (Nat.le_refl _)]
    rfl

/-- A tree at a looser place does there what a tree of that level does. -/
theorem loosen (h : Ends level f t f') (hle : place.rank ≤ level.rank) (hf : Starts place f) :
    Ends place f t f' := by
  cases place with
  | choice => exact h.choice hf
  | sequence => exact h.sequence hle hf
  | unary => exact h.unary hle
  | atom =>
    cases level with
    | choice | sequence | unary => exact absurd hle (by decide)
    | atom => exact h

end Ends

/-! ### Reading a tree -/

/-- A written tree is read as a tree of its level, whatever stands around it. -/
def Readable (t : Tree) : Prop :=
  ∀ f outer rest, Starts t.level f →
    ∃ f', Reads ⟨f, outer, t.write rest⟩ ⟨f', outer, rest⟩ ∧ Ends t.level f t f'

/-- A tree at a place is read as a tree of the level of that place. -/
theorem Readable.enclose (h : t.Readable) (hf : Starts place f) (outer : List Frame)
    (rest : List Char) :
    ∃ f', Reads ⟨f, outer, Tree.enclose place t.level t.write rest⟩ ⟨f', outer, rest⟩ ∧
      Ends place f t f' := by
  unfold Tree.enclose
  split
  · -- between parentheses it is read into a new frame, which then becomes a single operand
    obtain ⟨inner, hreads, hends⟩ := h {} (f :: outer) (')' :: rest) (starts_empty _)
    have hopen : Reads ⟨f, outer, '(' :: t.write (')' :: rest)⟩
        ⟨{}, f :: outer, t.write (')' :: rest)⟩ := .of_readToken rfl rfl
    have hclose : Reads ⟨inner, f :: outer, ')' :: rest⟩
        ⟨{ f with operand := some inner.tree }, outer, rest⟩ := .of_readToken rfl rfl
    have htree : inner.tree = t := hends.choice (starts_empty _)
    rw [htree] at hclose
    have hatom : Ends .atom f t { f with operand := some t } := rfl
    exact ⟨_, (hopen.trans hreads).trans hclose, hatom.loosen (by cases place <;> decide) hf⟩
  · rename_i hlt
    have hle : place.rank ≤ t.level.rank := Nat.le_of_not_lt hlt
    obtain ⟨f', hreads, hends⟩ := h f outer rest (hf.tighten hle)
    exact ⟨f', hreads, hends.loosen hle hf⟩

/-- A tree that is a single piece is read as an operand. -/
theorem readable_operand (hlevel : t.level = .atom)
    (hread : ∀ rest, readToken (t.write rest) = some (.operand t, rest)) : t.Readable := by
  intro f outer rest _
  refine ⟨_, .of_readToken (hread rest) rfl, ?_⟩
  rw [hlevel]
  rfl

/-- An operator before its operand is read as a sign of it. -/
theorem readable_sign {op : Tree → Tree} {c : Char} (hlevel : (op t).level = .unary)
    (hwrite : ∀ rest, (op t).write rest = c :: enclose .unary t.level t.write rest)
    (hread : ∀ cs, readToken (c :: cs) = some (.sign op, cs)) (h : t.Readable) :
    (op t).Readable := by
  intro f outer rest _
  obtain ⟨f', hreads, hends⟩ :=
    h.enclose (starts_unary { f with signs := op :: f.signs }) outer rest
  have hsign : Reads ⟨f, outer, (op t).write rest⟩
      ⟨{ f with signs := op :: f.signs }, outer, enclose .unary t.level t.write rest⟩ := by
    rw [hwrite]
    exact .of_readToken (hread _) rfl
  rw [hlevel]
  exact ⟨f', hsign.trans hreads, hends⟩

/-- An operator behind its operand is read after it. -/
theorem readable_suffix {op : Tree → Tree} {c : Char} (hlevel : (op t).level = .unary)
    (hwrite : ∀ rest, (op t).write rest = enclose .atom t.level t.write (c :: rest))
    (hread : ∀ cs, readToken (c :: cs) = some (.suffix op, cs)) (h : t.Readable) :
    (op t).Readable := by
  intro f outer rest _
  have hstarts : Starts .atom f := (starts_unary f).tighten (by decide)
  obtain ⟨_, hreads, rfl⟩ := h.enclose hstarts outer (c :: rest)
  have hsuffix : Reads ⟨{ f with operand := some t }, outer, c :: rest⟩
      ⟨{ f with operand := some (op t) }, outer, rest⟩ := .of_readToken (hread rest) rfl
  rw [hlevel, hwrite]
  exact ⟨_, hreads.trans hsuffix, rfl, rfl, rfl⟩

/-- Operands with separators between them: what a frame is like before an operand, when some were
read, and behind it. -/
structure Separates (place : Level) (separator : List Char)
    (before behind : List Tree → Frame → Prop) : Prop where
  /-- An operand may start. -/
  starts : ∀ ts f, before ts f → Starts place f
  /-- It is the next one. -/
  ends : ∀ ts f t f', before ts f → Ends place f t f' → behind (ts ++ [t]) f'
  /-- A separator makes room for one more. -/
  next : ∀ ts f outer rest, behind ts f →
    ∃ f', Reads ⟨f, outer, separator ++ rest⟩ ⟨f', outer, rest⟩ ∧ before ts f'

/-- Operands with separators between them are read one after the other. -/
theorem Separates.reads {separator : List Char} {before behind : List Tree → Frame → Prop}
    (h : Separates place separator before behind) {read ts : List Tree} (hne : ts ≠ [])
    (hts : ∀ t ∈ ts, t.Readable) (hf : before read f) (outer : List Frame) (rest : List Char) :
    ∃ f', Reads ⟨f, outer, writeOperands place separator ts rest⟩ ⟨f', outer, rest⟩ ∧
      behind (read ++ ts) f' := by
  induction ts generalizing f read with
  | nil => exact absurd rfl hne
  | cons t ts ih =>
    have ht := hts t List.mem_cons_self
    rw [writeOperands]
    split
    · rename_i hnil
      obtain rfl := List.isEmpty_iff.mp hnil
      obtain ⟨f', hreads, hends⟩ := ht.enclose (h.starts read f hf) outer rest
      exact ⟨f', hreads, h.ends read f t f' hf hends⟩
    · rename_i hcons
      have hne : ts ≠ [] := fun hnil ↦ hcons (List.isEmpty_iff.mpr hnil)
      obtain ⟨f₁, hfirst, hends⟩ := ht.enclose (h.starts read f hf) outer
        (separator ++ writeOperands place separator ts rest)
      obtain ⟨f₂, hseparator, hf₂⟩ := h.next (read ++ [t]) f₁ outer
        (writeOperands place separator ts rest) (h.ends read f t f₁ hf hends)
      obtain ⟨f', hothers, hbehind⟩ :=
        ih hne (fun u hu ↦ hts u (List.mem_cons_of_mem t hu)) hf₂
      refine ⟨f', (hfirst.trans hseparator).trans hothers, ?_⟩
      rwa [List.append_assoc] at hbehind

/-- A space makes the last item one of those before. -/
theorem separates_items (alts : List Tree) :
    Separates .unary [' '] (fun ts f ↦ f.alts = alts ∧ f.items = ts ∧ f.signs = [])
      (fun ts f ↦ f.alts = alts ∧ f.allItems = ts) where
  starts _ f _ := starts_unary f
  ends ts f t f' hf hends := by
    obtain ⟨halts, hitems, hsigns⟩ := hf
    obtain ⟨halts', hitems', hitem⟩ := hends
    refine ⟨halts'.trans halts, ?_⟩
    rw [Frame.allItems, hitems', hitem, hitems, Frame.signed, hsigns]
    rfl
  next ts f outer rest hf :=
    ⟨{ alts := f.alts, items := f.allItems }, .of_readToken rfl rfl, hf.1, hf.2, rfl⟩

/-- A slash between spaces makes the last alternative one of those before. -/
theorem separates_alts :
    Separates .sequence [' ', '/', ' '] (fun ts f ↦ f.alts = ts ∧ f.items = [] ∧ f.signs = [])
      (fun ts f ↦ f.allAlts = ts) where
  starts _ f hf := ⟨fun h ↦ absurd h (by decide), fun _ ↦ hf.2.1, fun _ ↦ hf.2.2⟩
  ends ts f t f' hf hends := by
    obtain ⟨halts, hlast⟩ := hends
    rw [Frame.allAlts, halts, hlast, hf.1]
  next ts f outer rest hf := by
    have hspace : Reads ⟨f, outer, ' ' :: '/' :: ' ' :: rest⟩
        ⟨{ alts := f.alts, items := f.allItems }, outer, '/' :: ' ' :: rest⟩ :=
      .of_readToken rfl rfl
    have hslash : Reads ⟨{ alts := f.alts, items := f.allItems }, outer, '/' :: ' ' :: rest⟩
        ⟨{ alts := f.allAlts }, outer, ' ' :: rest⟩ :=
      .of_readToken rfl (by simp [shift, Frame.allAlts, Frame.allItems, Frame.item])
    have hafter : Reads ⟨{ alts := f.allAlts }, outer, ' ' :: rest⟩
        ⟨{ alts := f.allAlts }, outer, rest⟩ := .of_readToken rfl rfl
    exact ⟨_, (hspace.trans hslash).trans hafter, hf, rfl, rfl⟩

/-! ### Trees that can be read -/

/-- Trees of recognition without references, in which sequences and choices have at least two
operands. -/
inductive Plain : Tree → Prop
  | empty : Plain .empty
  | fail : Plain .fail
  | anyByte : Plain .anyByte
  | byte (b : UInt8) : Plain (.byte b)
  | byteClass (set : ByteSet) : Plain (.byteClass set)
  | sequence {items : List Tree} (htwo : 2 ≤ items.length) (hitems : ∀ t ∈ items, Plain t) :
      Plain (.sequence items)
  | choice {alts : List Tree} (htwo : 2 ≤ alts.length) (halts : ∀ t ∈ alts, Plain t) :
      Plain (.choice alts)
  | star {inner : Tree} (hinner : Plain inner) : Plain (.star inner)
  | plus {inner : Tree} (hinner : Plain inner) : Plain (.plus inner)
  | optional {inner : Tree} (hinner : Plain inner) : Plain (.optional inner)
  | and {inner : Tree} (hinner : Plain inner) : Plain (.and inner)
  | not {inner : Tree} (hinner : Plain inner) : Plain (.not inner)

theorem collect_of_two_le {wrap : List Tree → Tree} {ts : List Tree} (htwo : 2 ≤ ts.length) :
    collect wrap ts = wrap ts := by
  match ts, htwo with
  | _ :: _ :: _, _ => rfl

/-- A sequence that is written as quoted bytes consists of these bytes. -/
theorem eq_map_of_mapM_byte? {items : List Tree} {bytes : List UInt8}
    (h : items.mapM byte? = some bytes) : items = bytes.map .byte := by
  induction items generalizing bytes with
  | nil =>
    cases h
    rfl
  | cons t items ih =>
    simp only [List.mapM_cons, Option.bind_eq_bind, Option.bind_eq_some_iff, Option.pure_def,
      Option.some.injEq] at h
    obtain ⟨b, hb, others, hothers, rfl⟩ := h
    have ht : t = .byte b := by
      cases t with
      | byte b' => exact congrArg Tree.byte (Option.some.inj hb)
      | _ => cases hb
    rw [List.map_cons, ht, ← ih hothers]

theorem ofQuoted_of_two_le {bytes : List UInt8} (htwo : 2 ≤ bytes.length) (escaped : UInt8 → Bool) :
    ofQuoted (bytes.map fun b ↦ (b, escaped b)) = .sequence (bytes.map .byte) := by
  match bytes, htwo with
  | _ :: _ :: _, _ => simp [ofQuoted]

theorem readable_byte (b : UInt8) : (byte b).Readable := by
  refine readable_operand rfl fun rest ↦ ?_
  have hread := readEscaped_quotedBytes EscapeStyle.quoted_guards_single [b] rest
  rw [quotedBytes, List.flatMap_singleton] at hread
  rw [write, readToken, hread]
  rfl

theorem readable_byteClass (set : ByteSet) : (byteClass set).Readable := by
  refine readable_operand rfl fun rest ↦ ?_
  have hread := readSet_chars set rest
  rw [ByteSet.chars, List.cons_append, List.cons_append] at hread
  rw [write, ByteSet.chars, List.cons_append, List.cons_append, readToken, hread]
  rfl

/-- A sequence is read as a string of bytes or item by item. -/
theorem readable_sequence {items : List Tree} (htwo : 2 ≤ items.length)
    (hitems : ∀ t ∈ items, t.Readable) : (sequence items).Readable := by
  cases hbytes : items.mapM byte? with
  | some bytes =>
    obtain rfl := eq_map_of_mapM_byte? hbytes
    rw [List.length_map] at htwo
    refine readable_operand (by simp [level, hbytes]) fun rest ↦ ?_
    have hread := readEscaped_quotedBytes EscapeStyle.quoted_guards_double bytes rest
    simp only [write, hbytes]
    rw [readToken, hread, Option.map_some]
    simp only [ofQuoted_of_two_le htwo]
  | none =>
    have hlevel : (sequence items).level = .sequence := by simp [level, hbytes]
    have hwrite (rest : List Char) :
        (sequence items).write rest = writeOperands .unary [' '] items rest := by
      simp only [write, hbytes]
    intro f outer rest hf
    rw [hlevel] at hf ⊢
    rw [hwrite]
    have hne : items ≠ [] := List.ne_nil_of_length_pos (Nat.lt_of_lt_of_le Nat.two_pos htwo)
    obtain ⟨f', hreads, halts, hall⟩ := (separates_items f.alts).reads hne hitems
      ⟨rfl, hf.items_eq (Nat.le_refl _), hf.signs_eq (Nat.le_refl _)⟩ outer rest
    exact ⟨f', hreads, halts, hall ▸ collect_of_two_le htwo⟩

/-- A choice is read alternative by alternative. -/
theorem readable_choice {alts : List Tree} (htwo : 2 ≤ alts.length)
    (halts : ∀ t ∈ alts, t.Readable) : (choice alts).Readable := by
  intro f outer rest hf
  have hstarts : f.items = [] ∧ f.signs = [] :=
    ⟨hf.items_eq (Nat.zero_le _), hf.signs_eq (Nat.zero_le _)⟩
  have hne : alts ≠ [] := List.ne_nil_of_length_pos (Nat.lt_of_lt_of_le Nat.two_pos htwo)
  obtain ⟨f', hreads, hall⟩ :=
    separates_alts.reads hne halts ⟨hf.alts_eq (Nat.le_refl _), hstarts⟩ outer rest
  have htree : f'.tree = .choice alts := by
    rw [Frame.tree, hall]
    exact collect_of_two_le htwo
  exact ⟨f', hreads, htree⟩

namespace Plain

/-- A written tree is read as a tree of its level. -/
theorem readable (h : t.Plain) : t.Readable := by
  induction h with
  | empty | fail | anyByte => exact readable_operand rfl fun _ ↦ rfl
  | byte b => exact readable_byte b
  | byteClass set => exact readable_byteClass set
  | sequence htwo _ hitems => exact readable_sequence htwo hitems
  | choice htwo _ halts => exact readable_choice htwo halts
  | star _ hinner | plus _ hinner | optional _ hinner =>
    exact readable_suffix rfl (fun _ ↦ rfl) (fun _ ↦ rfl) hinner
  | and _ hinner | not _ hinner => exact readable_sign rfl (fun _ ↦ rfl) (fun _ ↦ rfl) hinner

/-- Reading the text of a tree ends with that tree. -/
theorem exists_mem_eval (h : t.Plain) :
    ∃ f : Frame, f.tree = t ∧ ⟨f, [], []⟩ ∈ StateTransition.eval Reader.step ⟨{}, [], t.chars⟩ := by
  obtain ⟨f, hreads, hends⟩ := h.readable {} [] [] (starts_empty t.level)
  exact ⟨f, hends.choice (starts_empty .choice), StateTransition.mem_eval.mpr ⟨hreads, rfl⟩⟩

/-- Trees that are written alike are the same. -/
theorem eq_of_chars_eq (ht : t.Plain) (hu : u.Plain) (h : t.chars = u.chars) : t = u := by
  obtain ⟨f, hf, hmem⟩ := ht.exists_mem_eval
  obtain ⟨f', hf', hmem'⟩ := hu.exists_mem_eval
  rw [h] at hmem
  have hframe : f = f' := congrArg Reader.frame (Part.mem_unique hmem hmem')
  rw [← hf, hframe, hf']

end Plain

end Tree

/-! ### Expressions -/

/-- Expressions that are displayed alike unfold to the same tree: the notation is unambiguous up to
ids, spans and the flags of repetitions. -/
theorem Grammar.eq_of_display_eq {g h : Grammar} {e f : ExprId} {t u : Tree}
    (ht : g.Unfolds e t) (hu : h.Unfolds f u) (hplain : t.Plain) (hplain' : u.Plain)
    (hdisplay : g.display e = h.display f) : t = u := by
  refine hplain.eq_of_chars_eq hplain' (String.ofList_injective ?_)
  rw [ht.display_eq, hu.display_eq] at hdisplay
  exact hdisplay

theorem Grammar.eq_of_display_eq_sharedByte :
    let g : Grammar := { nodes := #[⟨.byte 0x61, .synthetic⟩, ⟨.anyByte, .synthetic⟩,
      ⟨.choice [0, 1], .synthetic⟩, ⟨.star 2 false, .synthetic⟩, ⟨.byte 0x61, .synthetic⟩,
      ⟨.sequence [0, 4], .synthetic⟩, ⟨.not 5, .synthetic⟩, ⟨.sequence [3, 6], .synthetic⟩] }
    let h : Grammar := { nodes := #[⟨.anyByte, .synthetic⟩, ⟨.byte 0x61, .synthetic⟩,
      ⟨.sequence [1, 1], .synthetic⟩, ⟨.not 2, .synthetic⟩, ⟨.choice [1, 0], .synthetic⟩,
      ⟨.star 4 true, .synthetic⟩, ⟨.sequence [5, 3], .synthetic⟩] }
    g.Unfolds 7 (g.tree 7) ∧ h.Unfolds 6 (h.tree 6) ∧ (g.tree 7).Plain ∧ (h.tree 6).Plain ∧
      g.display 7 = h.display 6 ∧ g.tree 7 = h.tree 6 := by
  intro g h
  have hg : g.Unfolds 7 (g.tree 7) := WellFormed.unfolds (by decide) 7
  have hh : h.Unfolds 6 (h.tree 6) := WellFormed.unfolds (by decide) 6
  have hplain : (g.tree 7).Plain :=
    .sequence (by decide) <| List.forall_mem_cons.mpr ⟨.star <| .choice (by decide) <|
      List.forall_mem_cons.mpr ⟨.byte 0x61, List.forall_mem_singleton.mpr .anyByte⟩,
      List.forall_mem_singleton.mpr <| .not <| .sequence (by decide) <|
        List.forall_mem_cons.mpr ⟨.byte 0x61, List.forall_mem_singleton.mpr (.byte 0x61)⟩⟩
  exact ⟨hg, hh, hplain, hplain, rfl, eq_of_display_eq hg hh hplain hplain rfl⟩

end ParsingMachine
