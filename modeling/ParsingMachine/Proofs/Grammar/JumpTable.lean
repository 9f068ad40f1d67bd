import ParsingMachine.Grammar.JumpTable
import ParsingMachine.Proofs.Grammar.FirstByte

/-!
# Jump tables are sound

Where the byte of a slot is next, the entry of the slot has every result of the choice
(`SoundTable`). An entry leaves out alternatives that the first-byte analysis rejects, and these
fail there (`yields_filter`); the order of the others stays. A table stays right in every grammar
that agrees on the choice, so it may be attached early and used after other passes and edits.

Which nodes a table leads to is settled by the viable alternatives of the slots (`Routes`): the
choice itself if all are viable, else a failing node, a single alternative, or a new choice. Slots
with the same viable alternatives share their entry, and no node is made that is no entry.

The table is filled slot by slot, with a memory of the nodes made so far. The invariant (`Filling`)
says which nodes are in this memory and that every new node is the entry for some slot. That an
entry does not change any more once it is known (`Narrowed.Within`) is what lets the entries of
earlier slots be read off the final memory, and sharing follows: the entry is a function of the
viable alternatives.

Viable alternatives are kept as places in the list of alternatives and not as nodes. An alternative
may stand in the list twice, and then both places are viable or none; `map_viable` goes from places
to nodes, and nothing after it looks at places.

## Main statements

* `yields_filter`: leaving out rejected alternatives changes no result where the byte is next.
* `Selects.soundEntry`: what is selected for a slot is right for it.
* `ensures_makeTable_routes`: when a table is made, and where it leads.
* `results_of_makeTable`: walks from an entry end as those from the choice do.
* `ensures_attachTables`: `attachTables` attaches sound tables only.
-/

namespace ParsingMachine.Grammar

variable {g h k : Grammar} {src : Resident}

/-! ### Sound tables -/

/-- What a slot of the jump table of a choice holds. -/
structure SoundEntry (g : Grammar) (e : ExprId) (slot : Nat) (target : ExprId) : Prop where
  /-- Entries are nodes. -/
  lt : target < g.size
  /-- Where the byte is next, the entry has every result of the choice. -/
  yields : ∀ k, g.Agrees e k → ∀ src d pos s r, src.slot pos = slot →
    Yields k src d (.node e) pos s r → Yields k src d (.node target) pos s r
  /-- The entry is the choice, one of its alternatives, or a new node made from these. -/
  shape : ∃ alts, g.op e = .choice alts ∧ (target = e ∨ target ∈ alts ∨ g.op target = .fail ∨
    ∃ subset, g.op target = .choice subset ∧ subset.Sublist alts)

/-- A jump table that a choice may be encoded by. -/
structure SoundTable (g : Grammar) (e : ExprId) (table : JumpTable) : Prop where
  /-- There is an entry for each slot. -/
  length_eq : table.length = slotCount
  /-- Each entry is right for its slot. -/
  entry : ∀ slot target, table[slot]? = some target → g.SoundEntry e slot target

/-- Each target of a sound table is right for some slot. -/
theorem SoundTable.exists_entry {e target : ExprId} {table : JumpTable} (h : g.SoundTable e table)
    (htarget : target ∈ table) : ∃ slot, g.SoundEntry e slot target := by
  obtain ⟨slot, hslot⟩ := List.mem_iff_getElem?.mp htarget
  exact ⟨slot, h.entry slot target hslot⟩

/-- The attached tables are right. -/
def SoundTables (g : Grammar) : Prop :=
  ∀ e table, g.table? e = some table → g.SoundTable e table

/-- Only a choice has a jump table. -/
theorem SoundTable.exists_choice {e : ExprId} {table : JumpTable} (h : g.SoundTable e table) :
    ∃ alts, g.op e = .choice alts := by
  have hlt : 0 < table.length := by
    rw [h.length_eq]
    decide
  obtain ⟨alts, hop, -⟩ := (h.entry 0 _ (List.getElem?_eq_getElem hlt)).shape
  exact ⟨alts, hop⟩

/-- An entry stays right in a grammar that agrees on the choice. -/
theorem SoundEntry.agrees {e target : ExprId} {slot : Nat} (he : g.SoundEntry e slot target)
    (hgh : g.Agrees e h) : h.SoundEntry e slot target where
  lt := Nat.lt_of_lt_of_le he.lt hgh.size_le
  yields k hk := he.yields k (hgh.trans hk)
  shape := by
    obtain ⟨alts, hop, hshape⟩ := he.shape
    rw [hgh.op_eq target he.lt]
    exact ⟨alts, (hgh.op_eq_of_ne (by simp [hop])).trans hop, hshape⟩

/-- So does a table. -/
theorem SoundTable.agrees {e : ExprId} {table : JumpTable} (he : g.SoundTable e table)
    (hgh : g.Agrees e h) : h.SoundTable e table :=
  ⟨he.length_eq, fun slot target htarget ↦ (he.entry slot target htarget).agrees hgh⟩

/-- Tables stay right in a grammar that agrees on their choices. -/
theorem SoundTables.agrees (hs : g.SoundTables) (htables : h.tables = g.tables)
    (hgh : ∀ e, (g.table? e).isSome → g.Agrees e h) : h.SoundTables := by
  intro e table htable
  rw [table?, htables] at htable
  exact (hs e table htable).agrees (hgh e (Option.isSome_of_eq_some htable))

theorem SoundTables.extends (hs : g.SoundTables) (hgh : g.Extends h)
    (htables : h.tables = g.tables) : h.SoundTables :=
  hs.agrees htables fun e _ ↦ hgh.agrees e

/-! ### Viable alternatives -/

/-- The viable alternatives of a choice for a slot, in their order. -/
def viableAlternatives (g : Grammar) (alts : List ExprId) (slot : Nat) : List ExprId :=
  alts.filter fun alt ↦ g.accept alt slot != .reject

/-- The viable alternatives are those that are not rejected. -/
theorem map_filter_zipIdx (p : ExprId → Bool) {alts : List ExprId} (before rest : List ExprId)
    (hall : alts = before ++ rest) :
    (((rest.zipIdx before.length).filter fun x ↦ p x.1).map Prod.snd).map
      (fun i ↦ alts.getD i 0) = rest.filter p := by
  induction rest generalizing before with
  | nil => rfl
  | cons alt rest ih =>
    have htail := ih (before ++ [alt]) (by rw [hall, List.append_assoc]; rfl)
    rw [List.length_append, List.length_singleton] at htail
    have hhead : alts.getD before.length 0 = alt := by simp [hall]
    rw [List.zipIdx_cons, List.filter_cons, List.filter_cons]
    by_cases hp : p alt
    · rw [if_pos hp, if_pos hp, List.map_cons, List.map_cons, htail, hhead]
    · rw [if_neg hp, if_neg hp, htail]

/-- The places found viable are those of the viable alternatives. -/
theorem map_viable (alts : List ExprId) (slot : Nat) :
    (g.viable alts slot).map (fun i ↦ alts.getD i 0) = g.viableAlternatives alts slot :=
  map_filter_zipIdx (fun alt ↦ g.accept alt slot != .reject) [] alts rfl

theorem length_viable (alts : List ExprId) (slot : Nat) :
    (g.viable alts slot).length = (g.viableAlternatives alts slot).length := by
  rw [← map_viable, List.length_map]

/-- The slots for which the same alternatives are viable are looked up in the same place. -/
theorem viable_congr {alts : List ExprId} {slot slot' : Nat}
    (h : ∀ alt ∈ alts, g.accept alt slot = .reject ↔ g.accept alt slot' = .reject) :
    g.viable alts slot = g.viable alts slot' := by
  refine congrArg (List.map Prod.snd) (List.filter_congr fun x hx ↦ ?_)
  rw [Bool.eq_iff_iff, bne_iff_ne, bne_iff_ne]
  exact not_congr (h x.1 (List.fst_mem_of_mem_zipIdx hx))

/-- All alternatives are viable if none is rejected. -/
theorem viableAlternatives_eq_self {alts : List ExprId} {slot : Nat} :
    g.viableAlternatives alts slot = alts ↔ ∀ alt ∈ alts, g.accept alt slot ≠ .reject := by
  rw [viableAlternatives, List.filter_eq_self]
  exact forall₂_congr fun alt _ ↦ bne_iff_ne

/-- All places are viable exactly if all alternatives are. -/
theorem length_viable_eq_iff {alts : List ExprId} {slot : Nat} :
    (g.viable alts slot).length = alts.length ↔ g.viableAlternatives alts slot = alts := by
  rw [length_viable, viableAlternatives, List.length_filter_eq_length_iff, List.filter_eq_self]

/-- Leaving out rejected alternatives changes no result where the byte is next. -/
theorem yields_filter (hg : g.WellFormed) {alts : List ExprId} (halts : ∀ alt ∈ alts, alt < g.size)
    (hgk : ∀ alt ∈ alts, g.Agrees alt k) {slot d pos : Nat} {s : ParseState} {r : Match}
    (hslot : src.slot pos = slot) (hyields : Yields k src d (.any (alts.map .node)) pos s r) :
    Yields k src d (.any ((g.viableAlternatives alts slot).map .node)) pos s r := by
  induction alts with
  | nil => exact hyields
  | cons alt alts ih =>
    have hrest := ih (fun x hx ↦ halts x (List.mem_cons_of_mem _ hx))
      fun x hx ↦ hgk x (List.mem_cons_of_mem _ hx)
    rw [viableAlternatives, List.filter_cons]
    split
    · rcases Yields.either_iff.mp hyields with ⟨hr, h₁⟩ | ⟨h₁, h₂⟩
      · exact Yields.either_iff.mpr (.inl ⟨hr, h₁⟩)
      · exact .eitherNone h₁ (hrest h₂)
    · rename_i hreject
      have hreject' : g.accept alt slot = .reject := by simpa using hreject
      have hsound : (g.accept alt slot).Sound k src slot (.node alt) :=
        sound_accept hg (halts alt List.mem_cons_self) (hgk alt List.mem_cons_self) slot
      rcases Yields.either_iff.mp hyields with ⟨hr, h₁⟩ | ⟨-, h₂⟩
      · rw [hsound.reject hreject' d pos s r hslot h₁] at hr
        cases hr
      · exact hrest h₂

/-! ### Entries -/

/-- What a jump table holds for the viable alternatives of a slot: the choice itself if all are
viable, else a new node that fails, the only one, or a new choice of them in their order. The table
is made in `g`, and `h` has the new nodes. -/
inductive Selects (g h : Grammar) (e : ExprId) (alts viable : List ExprId) (target : ExprId) : Prop
  | whole (hall : viable = alts) (htarget : target = e)
  | nothing (hpart : viable ≠ alts) (hviable : viable = []) (hnew : g.size ≤ target)
    (hlt : target < h.size) (hop : h.op target = .fail)
  | single (hpart : viable ≠ alts) (hviable : viable = [target])
  | several (hpart : viable ≠ alts) (htwo : 2 ≤ viable.length) (hnew : g.size ≤ target)
    (hop : h.op target = .choice viable)

/-- What is selected for a slot is right for it. -/
theorem Selects.soundEntry (hg : g.WellFormed) (hgh : g.Extends h) {e target : ExprId}
    {alts : List ExprId} (hop : g.op e = .choice alts) {slot : Nat}
    (hselects : g.Selects h e alts (g.viableAlternatives alts slot) target) :
    h.SoundEntry e slot target := by
  have he : e < g.size := lt_size_of_op_ne (by simp [hop])
  have halts (alt : ExprId) (halt : alt ∈ alts) : alt < g.size :=
    Nat.lt_trans (hg.child_lt (by rw [hop]; exact halt)) he
  have hop' : h.op e = .choice alts := (hgh.op_eq e he).trans hop
  have hyields {k : Grammar} (hk : h.Agrees e k) {src : Resident} {d pos : Nat} {s : ParseState}
      {r : Match} (hslot : src.slot pos = slot) (hnode : Yields k src d (.node e) pos s r) :
      Yields k src d (.any ((g.viableAlternatives alts slot).map .node)) pos s r := by
    rw [Yields.node_iff, hk.op_eq_of_ne (by simp [hop']), hop'] at hnode
    refine yields_filter hg halts (fun alt halt ↦ ?_) hslot hnode
    have hmem : alt ∈ (g.op e).children := by rwa [hop]
    exact ((hgh.agrees e).trans hk).of_mem (mem_successors_of_mem_children hmem)
  cases hselects with
  | whole _ htarget =>
    subst htarget
    exact ⟨Nat.lt_of_lt_of_le he hgh.size_le, fun k hk src d pos s r _ h ↦ h, alts, hop', .inl rfl⟩
  | nothing _ hviable _ hlt hfail =>
    refine ⟨hlt, fun k hk src d pos s r hslot hnode ↦ ?_, alts, hop', .inr (.inr (.inl hfail))⟩
    have hany := hyields hk hslot hnode
    rw [hviable] at hany
    rw [Yields.node_iff, hk.op_eq target hlt, hfail]
    exact hany
  | single _ hviable =>
    have hmem : target ∈ alts := by
      have htarget : target ∈ g.viableAlternatives alts slot := by simp [hviable]
      exact (List.mem_filter.mp htarget).1
    refine ⟨Nat.lt_of_lt_of_le (halts target hmem) hgh.size_le,
      fun k hk src d pos s r hslot hnode ↦ ?_, alts, hop', .inr (.inl hmem)⟩
    have hany := hyields hk hslot hnode
    rw [hviable] at hany
    exact refines_of_either_fails _ d pos s r hany
  | several _ _ _ hchoice =>
    refine ⟨lt_size_of_op_ne (by simp [hchoice]),
      fun k hk src d pos s r hslot hnode ↦ ?_, alts, hop',
      .inr (.inr (.inr ⟨_, hchoice, List.filter_sublist⟩))⟩
    rw [Yields.node_iff, hk.op_eq_of_ne (by simp [hchoice]), hchoice]
    exact hyields hk hslot hnode

/-! ### Filling a table -/

/-- The entry for the alternatives at some places, as far as it is known. -/
def Narrowed.entry? (n : Narrowed) (e : ExprId) (alts : List ExprId) (viable : List Nat) :
    Option ExprId :=
  if viable.length = alts.length then some e
  else
    match viable with
    | [] => n.failure
    | [i] => some (alts.getD i 0)
    | _ => n.subsets.lookup viable

/-- The alternatives at some places. -/
def subset (alts : List ExprId) (viable : List Nat) : List ExprId :=
  viable.map fun i ↦ alts.getD i 0

section

variable {e : ExprId} {alts : List ExprId} {filled : List (List Nat)} {n n' : Narrowed}

/-- Known entries stay. -/
def Narrowed.Within (n n' : Narrowed) (e : ExprId) (alts : List ExprId) : Prop :=
  ∀ viable target, n.entry? e alts viable = some target → n'.entry? e alts viable = some target

theorem Narrowed.Within.refl (n : Narrowed) : n.Within n e alts :=
  fun _ _ h ↦ h

theorem Narrowed.Within.trans {n'' : Narrowed} (h : n.Within n' e alts)
    (h' : n'.Within n'' e alts) : n.Within n'' e alts :=
  fun viable target hentry ↦ h' viable target (h viable target hentry)

/-- The first failing node makes no known entry another one. -/
theorem Narrowed.within_failure (hnone : n.failure = none) (node : ExprId) :
    n.Within { n with failure := some node } e alts := by
  intro viable target hentry
  unfold entry? at hentry ⊢
  split
  · rwa [if_pos ‹_›] at hentry
  · rw [if_neg ‹_›] at hentry
    rcases viable with - | ⟨i, - | ⟨j, rest⟩⟩
    · rw [hnone] at hentry
      cases hentry
    · exact hentry
    · exact hentry

/-- Neither does a node for alternatives that had none. -/
theorem Narrowed.within_subsets {places : List Nat} (hnone : n.subsets.lookup places = none)
    (node : ExprId) : n.Within { n with subsets := (places, node) :: n.subsets } e alts := by
  intro viable target hentry
  unfold entry? at hentry ⊢
  split
  · rwa [if_pos ‹_›] at hentry
  · rw [if_neg ‹_›] at hentry
    rcases viable with - | ⟨i, - | ⟨j, rest⟩⟩
    · exact hentry
    · exact hentry
    · have hold : n.subsets.lookup (i :: j :: rest) = some target := hentry
      have hne : (i :: j :: rest == places) = false := by
        refine beq_eq_false_iff_ne.mpr fun heq ↦ ?_
        rw [← heq, hold] at hnone
        cases hnone
      show List.lookup (i :: j :: rest) ((places, node) :: n.subsets) = some target
      rw [List.lookup_cons, hne]
      exact hold

/-- The nodes made while a table is filled, when the entries in `filled` are known. The filling
began with `g` and has come to `h`. -/
structure Filling (g h : Grammar) (e : ExprId) (alts : List ExprId) (filled : List (List Nat))
    (n : Narrowed) : Prop extends g.Appends h where
  /-- The node for slots without a viable alternative fails. -/
  failure : ∀ node, n.failure = some node → g.size ≤ node ∧ node < h.size ∧ h.op node = .fail
  /-- The node for a set of alternatives is their choice. -/
  subsets : ∀ viable node, n.subsets.lookup viable = some node →
    g.size ≤ node ∧ h.op node = .choice (subset alts viable)
  /-- Each node was made for an entry. -/
  made : ∀ node, g.size ≤ node → node < h.size →
    ∃ viable ∈ filled, n.entry? e alts viable = some node

namespace Filling

/-- Nothing is made at the beginning. -/
theorem start (g : Grammar) (e : ExprId) (alts : List ExprId) : g.Filling g e alts [] {} where
  toAppends := .refl g
  failure _ h := nomatch h
  subsets _ _ h := nomatch h
  made _ hle hlt := absurd hlt (Nat.not_lt_of_le hle)

theorem mono (hn : g.Filling h e alts filled n) {filled' : List (List Nat)}
    (hsub : filled ⊆ filled') : g.Filling h e alts filled' n where
  toAppends := hn.toAppends
  failure := hn.failure
  subsets := hn.subsets
  made node hle hlt := by
    obtain ⟨viable, hviable, hentry⟩ := hn.made node hle hlt
    exact ⟨viable, hsub hviable, hentry⟩

/-- A node is made for an entry that was not known. -/
theorem push (hn : g.Filling h e alts filled n) (op : Operator) (hop : op.isGlue)
    (hchild : ∀ child ∈ op.children, child < h.size) {viable : List Nat}
    (hknown : n.Within n' e alts) (hentry : n'.entry? e alts viable = some h.size)
    (hfailure : ∀ node, n'.failure = some node →
      n.failure = some node ∨ node = h.size ∧ op = .fail)
    (hsubsets : ∀ places node, n'.subsets.lookup places = some node →
      n.subsets.lookup places = some node ∨ node = h.size ∧ op = .choice (subset alts places)) :
    g.Filling (h.push op .synthetic) e alts (viable :: filled) n' where
  toAppends := hn.toAppends.trans (.push h .synthetic hop hchild)
  failure node hnode := by
    rw [size_push, op_push]
    rcases hfailure node hnode with hold | ⟨rfl, rfl⟩
    · obtain ⟨hle, hlt, hfail⟩ := hn.failure node hold
      exact ⟨hle, Nat.lt_succ_of_lt hlt, by rw [if_neg (Nat.ne_of_lt hlt), hfail]⟩
    · exact ⟨hn.size_le, Nat.lt_succ_self _, if_pos rfl⟩
  subsets places node hnode := by
    rw [op_push]
    rcases hsubsets places node hnode with hold | ⟨rfl, rfl⟩
    · obtain ⟨hle, hchoice⟩ := hn.subsets places node hold
      have hlt : node < h.size := lt_size_of_op_ne (by simp [hchoice])
      exact ⟨hle, by rw [if_neg (Nat.ne_of_lt hlt), hchoice]⟩
    · exact ⟨hn.size_le, if_pos rfl⟩
  made node hle hlt := by
    rw [size_push] at hlt
    rcases Nat.lt_succ_iff_lt_or_eq.mp hlt with hlt | rfl
    · obtain ⟨places, hplaces, hold⟩ := hn.made node hle hlt
      exact ⟨places, List.mem_cons_of_mem _ hplaces, hknown places node hold⟩
    · exact ⟨viable, List.mem_cons_self, hentry⟩

/-- The entry that is known for the viable alternatives of a slot. -/
theorem selects (hn : g.Filling h e alts filled n) {slot : Nat} {target : ExprId}
    (hentry : n.entry? e alts (g.viable alts slot) = some target) :
    g.Selects h e alts (g.viableAlternatives alts slot) target := by
  have hsubset : subset alts (g.viable alts slot) = g.viableAlternatives alts slot :=
    map_viable alts slot
  unfold Narrowed.entry? at hentry
  split at hentry
  · rename_i hlength
    exact .whole (length_viable_eq_iff.mp hlength) (Option.some.inj hentry).symm
  · rename_i hlength
    have hpart : g.viableAlternatives alts slot ≠ alts := mt length_viable_eq_iff.mpr hlength
    split at hentry
    · rename_i hviable
      obtain ⟨hle, hlt, hfail⟩ := hn.failure target hentry
      exact .nothing hpart (by rw [← hsubset, hviable]; rfl) hle hlt hfail
    · rename_i i hviable
      refine .single hpart ?_
      rw [← hsubset, hviable, ← Option.some.inj hentry]
      rfl
    · rename_i hnil hone
      obtain ⟨hle, hchoice⟩ := hn.subsets _ target hentry
      rw [hsubset] at hchoice
      refine .several hpart ?_ hle hchoice
      rw [← length_viable]
      rcases hviable : g.viable alts slot with - | ⟨i, - | ⟨j, rest⟩⟩
      · exact absurd hviable hnil
      · exact absurd hviable (hone i)
      · exact Nat.le_add_left 2 _

end Filling

/-- The entry for some places is known afterwards, and what was known before still is. -/
theorem ensures_tableEntry (viable : List Nat) (he : e < g.size)
    (halts : ∀ alt ∈ alts, alt < g.size) (hn : g.Filling h e alts filled n) :
    Builder.Ensures ((tableEntry e alts viable).run n) h fun (target, n') k ↦
      g.Filling k e alts (viable :: filled) n' ∧ n.Within n' e alts ∧
        n'.entry? e alts viable = some target := by
  have hsame {target : ExprId} (hentry : n.entry? e alts viable = some target) :
      g.Filling h e alts (viable :: filled) n ∧ n.Within n e alts ∧
        n.entry? e alts viable = some target :=
    ⟨hn.mono (List.subset_cons_self _ _), .refl n, hentry⟩
  unfold tableEntry
  split
  · rename_i hlength
    exact hsame (if_pos hlength)
  · rename_i hlength
    split
    · simp only [StateT.run_bind, StateT.run_get, pure_bind]
      rcases hfailure : n.failure with - | node
      · have hknown : n.Within { n with failure := some h.size } e alts :=
          Narrowed.within_failure hfailure h.size
        refine ⟨hn.push .fail rfl (fun _ h ↦ nomatch h) hknown (if_neg hlength)
          (fun node hnode ↦ ?_) fun _ _ hnode ↦ .inl hnode, hknown, if_neg hlength⟩
        exact .inr ⟨(Option.some.inj hnode).symm, rfl⟩
      · exact hsame ((if_neg hlength).trans hfailure)
    · exact hsame (if_neg hlength)
    · rename_i hnil hone
      have hentry (n : Narrowed) : n.entry? e alts viable = n.subsets.lookup viable := by
        refine (if_neg hlength).trans ?_
        split
        · exact absurd rfl hnil
        · exact absurd rfl (hone _)
        · rfl
      simp only [StateT.run_bind, StateT.run_get, pure_bind]
      rcases hsubset : n.subsets.lookup viable with - | node
      · have hknown : n.Within { n with subsets := (viable, h.size) :: n.subsets } e alts :=
          Narrowed.within_subsets hsubset h.size
        have hnew : List.lookup viable ((viable, h.size) :: n.subsets) = some h.size := by simp
        refine ⟨hn.push (.choice (subset alts viable)) rfl (fun x hx ↦ ?_) hknown
          ((hentry _).trans hnew) (fun _ hnode ↦ .inl hnode) fun places node hnode ↦ ?_, hknown,
          (hentry _).trans hnew⟩
        · obtain ⟨i, -, rfl⟩ := List.mem_map.mp hx
          refine Nat.lt_of_lt_of_le ?_ hn.size_le
          rw [List.getD_eq_getElem?_getD]
          rcases hi : alts[i]? with - | alt
          · exact Nat.lt_of_le_of_lt (Nat.zero_le e) he
          · exact halts alt (List.mem_of_getElem? hi)
        · change List.lookup places ((viable, h.size) :: n.subsets) = some node at hnode
          rw [List.lookup_cons] at hnode
          split at hnode
          · rename_i heq
            exact .inr ⟨(Option.some.inj hnode).symm, by rw [eq_of_beq heq]⟩
          · exact .inl hnode
      · exact hsame ((hentry n).trans hsubset)

/-- All entries of a table. -/
theorem ensures_entries (viables : List (List Nat)) (he : e < g.size)
    (halts : ∀ alt ∈ alts, alt < g.size) (hn : g.Filling h e alts filled n) :
    Builder.Ensures ((viables.mapM (tableEntry e alts)).run n) h fun (targets, n') k ↦
      g.Filling k e alts (viables ++ filled) n' ∧ n.Within n' e alts ∧
        List.Forall₂ (fun viable target ↦ n'.entry? e alts viable = some target) viables
          targets := by
  induction viables generalizing h n filled with
  | nil => exact ⟨hn, .refl n, .nil⟩
  | cons viable viables ih =>
    rw [List.mapM_cons, StateT.run_bind]
    refine (ensures_tableEntry viable he halts hn).bind fun ⟨target, n₁⟩ h₁ htarget ↦ ?_
    obtain ⟨hn₁, hknown, hentry⟩ := htarget
    rw [StateT.run_bind]
    refine (ih hn₁).bind fun ⟨targets, n₂⟩ h₂ htargets ↦ ?_
    obtain ⟨hn₂, hknown', hall⟩ := htargets
    refine ⟨hn₂.mono fun x hx ↦ ?_, hknown.trans hknown', .cons (hknown' _ _ hentry) hall⟩
    simp only [List.mem_append, List.mem_cons, List.cons_append] at hx ⊢
    tauto

end

/-! ### The table of one choice -/

/-- How the table of a choice, made in `g`, leads from the slots to nodes of `h`. -/
structure Routes (g h : Grammar) (e : ExprId) (alts : List ExprId) (table : JumpTable) :
    Prop where
  /-- There is an entry for each slot. -/
  length_eq : table.length = slotCount
  /-- Each entry is for the viable alternatives of its slot. -/
  selects : ∀ slot target, table[slot]? = some target →
    g.Selects h e alts (g.viableAlternatives alts slot) target
  /-- Slots with the same viable alternatives share their entry. -/
  shared : ∀ slot < slotCount, ∀ slot' < slotCount,
    (∀ alt ∈ alts, g.accept alt slot = .reject ↔ g.accept alt slot' = .reject) →
      table[slot]? = table[slot']?
  /-- New nodes are made for entries only. -/
  fresh : ∀ node, g.size ≤ node → node < h.size → node ∈ table

/-- What is known when all slots are filled. -/
theorem Filling.routes {e : ExprId} {alts : List ExprId} {n : Narrowed} {table : JumpTable}
    (hn : g.Filling h e alts ((List.range slotCount).map (g.viable alts)) n)
    (hall : List.Forall₂ (fun viable target ↦ n.entry? e alts viable = some target)
      ((List.range slotCount).map (g.viable alts)) table) : g.Routes h e alts table := by
  have hlength : table.length = slotCount := by
    rw [← hall.length_eq, List.length_map, List.length_range]
  have hentry {slot : Nat} (hslot : slot < table.length) :
      n.entry? e alts (g.viable alts slot) = some table[slot] := by
    have hslot' : slot < ((List.range slotCount).map (g.viable alts)).length := by
      rwa [hall.length_eq]
    simpa using hall.get hslot' hslot
  refine ⟨hlength, fun slot target htarget ↦ ?_, fun slot hslot slot' hslot' hviable ↦ ?_,
    fun node hle hlt ↦ ?_⟩
  · obtain ⟨hslot, rfl⟩ := List.getElem?_eq_some_iff.mp htarget
    exact hn.selects (hentry hslot)
  · rw [← hlength] at hslot hslot'
    have heq := hentry hslot
    rw [viable_congr hviable, hentry hslot'] at heq
    rw [List.getElem?_eq_getElem hslot, List.getElem?_eq_getElem hslot', heq]
  · obtain ⟨viable, hviable, hnode⟩ := hn.made node hle hlt
    obtain ⟨slot, hslot, rfl⟩ := List.mem_map.mp hviable
    rw [List.mem_range, ← hlength] at hslot
    rw [hentry hslot] at hnode
    rw [← Option.some.inj hnode]
    exact List.getElem_mem hslot

/-- The answers of `makeTable`: none for a node that is no choice, and for a choice whose
alternatives are all viable for all slots; otherwise a table that leads to what is viable. -/
theorem ensures_makeTable_routes (hg : g.WellFormed) (e : ExprId) :
    Builder.Ensures (makeTable e) g fun result h ↦
      match result with
      | none => h = g ∧ ∀ alts, g.op e = .choice alts →
          ∀ slot < slotCount, ∀ alt ∈ alts, g.accept alt slot ≠ .reject
      | some table => g.Appends h ∧ ∃ alts, g.op e = .choice alts ∧
          (∃ slot < slotCount, ∃ alt ∈ alts, g.accept alt slot = .reject) ∧
          g.Routes h e alts table := by
  unfold makeTable
  refine Builder.Ensures.get ?_
  split
  · rename_i alts hop
    dsimp only
    generalize hviables : (List.range slotCount).map (g.viable alts) = viables
    have hviable (slot : Nat) (hslot : slot < slotCount) : g.viable alts slot ∈ viables := by
      rw [← hviables]
      exact List.mem_map_of_mem (List.mem_range.mpr hslot)
    split
    · rename_i hwhole
      refine ⟨rfl, fun alts' hop' slot hslot ↦ ?_⟩
      obtain rfl : alts = alts' := Operator.choice.inj (hop.symm.trans hop')
      have hlength := List.all_eq_true.mp hwhole _ (hviable slot hslot)
      exact viableAlternatives_eq_self.mp (length_viable_eq_iff.mp (of_decide_eq_true hlength))
    · rename_i hpart
      have he : e < g.size := lt_size_of_op_ne (by simp [hop])
      have halts (alt : ExprId) (halt : alt ∈ alts) : alt < g.size :=
        Nat.lt_trans (hg.child_lt (by rw [hop]; exact halt)) he
      refine (ensures_entries viables he halts (.start g e alts)).bind fun ⟨table, n⟩ h htable ↦ ?_
      obtain ⟨hn, -, hall⟩ := htable
      rw [List.append_nil] at hn
      refine .pure ⟨hn.toAppends, alts, hop, ?_, (hviables ▸ hn).routes (hviables ▸ hall)⟩
      by_contra hnone
      refine hpart (List.all_eq_true.mpr fun viable hmem ↦ ?_)
      rw [← hviables] at hmem
      obtain ⟨slot, hslot, rfl⟩ := List.mem_map.mp hmem
      refine decide_eq_true (length_viable_eq_iff.mpr (viableAlternatives_eq_self.mpr ?_))
      exact fun alt halt hreject ↦ hnone ⟨slot, List.mem_range.mp hslot, alt, halt, hreject⟩
  · rename_i hop
    exact ⟨rfl, fun alts hop' ↦ absurd hop' (hop alts)⟩

/-- An attached table is sound. -/
theorem ensures_makeTable (hg : g.WellFormed) (e : ExprId) :
    Builder.Ensures (makeTable e) g fun result h ↦
      g.Appends h ∧ ∀ table, result = some table → h.SoundTable e table := by
  refine (ensures_makeTable_routes hg e).imp fun result h hresult ↦ ?_
  rcases result with - | table
  · obtain ⟨rfl, -⟩ := hresult
    exact ⟨.refl h, fun _ h ↦ (nomatch h)⟩
  · obtain ⟨hgh, alts, hop, -, hroutes⟩ := hresult
    refine ⟨hgh, fun table' htable ↦ ?_⟩
    cases htable
    exact ⟨hroutes.length_eq, fun slot target htarget ↦
      (hroutes.selects slot target htarget).soundEntry hg hgh.toExtends hop⟩

/-- The jump table of a choice does what the choice does: where the byte of a slot is next, walks
from the entry find the result of the choice. There is no table for a node that is no choice, nor if
all alternatives are viable for all slots, and then nothing is made. -/
theorem results_of_makeTable (hg : g.WellFormed) (e : ExprId) :
    let result := (makeTable e g).1
    let h := (makeTable e g).2
    (result = none ↔ ∀ alts, g.op e = .choice alts →
      ∀ slot < slotCount, ∀ alt ∈ alts, g.accept alt slot ≠ .reject) ∧
    (result = none → h = g) ∧
    ∀ table, result = some table → ∃ alts, g.op e = .choice alts ∧ g.Routes h e alts table ∧
      ∀ slot target, table[slot]? = some target → ∀ src pos s, src.slot pos = slot →
        g.results src e pos s ⊆ h.results src target pos s := by
  have hroutes := ensures_makeTable_routes hg e
  have hsound := ensures_makeTable hg e
  unfold Builder.Ensures at hroutes hsound
  dsimp only
  generalize (makeTable e g).1 = result, (makeTable e g).2 = h at hroutes hsound
  rcases result with - | table
  · exact ⟨⟨fun _ ↦ hroutes.2, fun _ ↦ rfl⟩, fun _ ↦ hroutes.1, fun _ htable ↦ nomatch htable⟩
  · obtain ⟨hgh, alts, hop, ⟨slot, hslot, alt, halt, hreject⟩, hroutes⟩ := hroutes
    refine ⟨⟨fun hnone ↦ (nomatch hnone), fun hwhole ↦ ?_⟩, fun hnone ↦ (nomatch hnone), ?_⟩
    · exact absurd hreject (hwhole alts hop slot hslot alt halt)
    · rintro _ ⟨⟩
      refine ⟨alts, hop, hroutes, fun slot target htarget src pos s hslot ↦ ?_⟩
      have he : e < g.size := lt_size_of_op_ne (by simp [hop])
      refine results_subset fun d r hyields ↦ ?_
      rw [hgh.yields_iff hg (t := .node e) he] at hyields
      exact ((hsound.2 table rfl).entry slot target htarget).yields h (.refl h e) src d pos s r
        hslot hyields

/-- `S = 'a' 'b' / 'b' / 'a' S`. -/
def sharedFirstByte : Grammar where
  nodes := #[⟨.byte 97, .synthetic⟩, ⟨.byte 98, .synthetic⟩, ⟨.reference 0, .synthetic⟩,
    ⟨.sequence [0, 1], .synthetic⟩, ⟨.sequence [0, 2], .synthetic⟩,
    ⟨.choice [3, 1, 4], .synthetic⟩]
  rules := #[{ name := "S", body := some 5 }]

theorem results_of_makeTable_sharedFirstByte :
    sharedFirstByte.WellFormed ∧ ∃ table h, makeTable 5 sharedFirstByte = (some table, h) ∧
      table[97]? = some 7 ∧ table[98]? = some 1 ∧ ({ text := #[97, 98] } : Resident).slot 0 = 97 ∧
      sharedFirstByte.Routes h 5 [3, 1, 4] table ∧
      some (2, {}) ∈ h.results { text := #[97, 98] } 7 0 {} := by
  have hg : sharedFirstByte.WellFormed := by decide
  have hslot : ({ text := #[97, 98] } : Resident).slot 0 = 97 := by decide
  have hcheck : ((makeTable 5 sharedFirstByte).1.any fun table ↦
      table[97]? == some 7 && table[98]? == some 1) = true := by decide +kernel
  obtain ⟨-, -, hresults⟩ := results_of_makeTable hg 5
  generalize hmake : makeTable 5 sharedFirstByte = made at hcheck hresults
  obtain ⟨table, htable, hentries⟩ := (Option.any_eq_true _ _).mp hcheck
  obtain ⟨ha, hb⟩ := Bool.and_eq_true_iff.mp hentries
  obtain ⟨alts, hop, hroutes, hsubset⟩ := hresults table htable
  obtain rfl : [3, 1, 4] = alts := Operator.choice.inj hop
  refine ⟨hg, table, made.2, Prod.ext htable rfl, eq_of_beq ha, eq_of_beq hb, hslot, hroutes,
    hsubset 97 7 (eq_of_beq ha) _ 0 {} hslot ?_⟩
  exact ⟨9, 9, _, _, rfl, rfl⟩

/-! ### Attaching tables -/

/-- What is left when tables are attached. -/
structure Attaches (g h : Grammar) : Prop extends g.Grows h where
  /-- What is known of simpler nodes is the same. -/
  simplified_eq : h.simplified = g.simplified
  /-- The tables are right. -/
  sound : h.SoundTables

theorem Attaches.trans (hgh : g.Attaches h) (hhk : h.Attaches k) : g.Attaches k :=
  ⟨hgh.toGrows.trans hhk.toGrows, hhk.simplified_eq.trans hgh.simplified_eq, hhk.sound⟩

/-- Attaching a table to one choice leaves sound tables. -/
theorem ensures_attachTable (hg : g.WellFormed) (hs : g.SoundTables) (e : ExprId) :
    Builder.Ensures (attachTable e) g fun _ h ↦ g.Attaches h := by
  unfold attachTable
  refine Builder.Ensures.get ?_
  split
  · exact ⟨.refl g, rfl, hs⟩
  · refine (ensures_makeTable hg e).bind fun result h hresult ↦ ?_
    obtain ⟨hgh, htable⟩ := hresult
    have hs' := hs.extends hgh.toExtends hgh.tables_eq
    split
    · rename_i table
      have hext : h.Extends (h.setTable e table) := .of_eq rfl rfl
      have hgrows : h.Grows (h.setTable e table) :=
        ⟨hext, (Grows.refl h).isGlue, (Grows.refl h).child_lt, rfl⟩
      refine ⟨hgh.toGrows.trans hgrows, hgh.simplified_eq, fun x t hx ↦ ?_⟩
      change (h.setTable e table).table? x = some t at hx
      rw [table?_setTable] at hx
      split at hx
      · rename_i heq
        cases hx
        rw [heq]
        exact (htable table rfl).agrees (hext.agrees e)
      · exact (hs' x t hx).agrees (hext.agrees x)
    · exact ⟨hgh.toGrows, hgh.simplified_eq, hs'⟩

/-- Attached tables are sound. -/
theorem ensures_attachTables (hg : g.WellFormed) (hs : g.SoundTables) :
    Builder.Ensures attachTables g fun _ h ↦ g.Attaches h := by
  have key (choices : List ExprId) (g : Grammar) (hg : g.WellFormed) (hs : g.SoundTables) :
      Builder.Ensures (choices.mapM attachTable) g fun _ h ↦ g.Attaches h := by
    induction choices generalizing g with
    | nil => exact ⟨.refl g, rfl, hs⟩
    | cons e choices ih =>
      rw [List.mapM_cons]
      refine (ensures_attachTable hg hs e).bind fun _ h hgh ↦ ?_
      refine (ih h (hgh.wellFormed hg) hgh.sound).bind fun _ k hhk ↦ ?_
      exact hgh.trans hhk
  refine Builder.Ensures.get ((key g.reachableChoices g hg hs).bind fun _ h hgh ↦ ?_)
  exact hgh

end ParsingMachine.Grammar
