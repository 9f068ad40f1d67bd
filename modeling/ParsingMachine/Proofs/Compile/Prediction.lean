import Mathlib.Data.Fintype.EquivFin
import ParsingMachine.Proofs.Compile.Attribution
import ParsingMachine.Proofs.Compile.Linking
import ParsingMachine.Proofs.Grammar.Provenance

/-!
# A dispatch runs only the selected alternative

A choice with a jump table is encoded as a dispatch to the code of its entries. The code of an entry
leads only to itself and to what comes after the choice (`Encoder.Types.leads`), and it was made for
what the entry involves and for what that is simplified to. So if the alternative that the next byte
selects has nothing to do with the others, nothing is executed that was made for one of these
(`Grammar.executed_of_selects`).

That alternatives have no nodes in common is not enough. What was simplified before is recorded, and
such a record may be an operand of another alternative; so may an entry of the jump table of a
nested choice (`Grammar.strays_recordedOperand_and_sharedFailure`).

Two earlier inductions over the encoder are put together here. One says where code leads: what is
encoded on a level leads to itself and to what comes next (`Encoder.types_encode`). The other says
for which nodes instructions are made, if encoding does not leave a kind
(`Encoder.attributes_encode`), and the kind is that of plain nodes that have nothing to do with the
other alternatives (`Grammar.confines_spares`). Together they give a set of instructions that lead
only to each other and were made for the right nodes (`Session.Encloses`).

Entries are encoded one after the other, and what is simplified for one is recorded when the next
one is encoded. So the selected entry has to be apart from the others in the grammar as it is by
then. That holds because nothing else than what is involved gets recorded for it (`Grammar.Avoids`).

An enclosed set is carried to the program and through a run like any invariant. The dispatch itself
comes first, was made for the choice, and goes to the entry that the table has for the first byte;
how the run ends does not matter.

## Main statements

* `Grammar.confines_spares`: encoding nodes apart from a set makes nothing for nodes of the set.
* `Encoder.confined_entryCodes`: the code of the selected entry is enclosed.
* `Session.Laid.executed_of_predicts`: what a run executes when its program goes to enclosed code.
* `Grammar.executed_of_selects`: nothing made for another alternative is executed.
* `Grammar.strays_recordedOperand_and_sharedFailure`: what goes wrong with records and entries in
  common.
-/

namespace ParsingMachine

open Machine

/-! ### Nodes that are apart from others -/

namespace Grammar

variable {g h : Grammar} {J : ExprId → Prop} {e x : ExprId}

/-- A plain node of a grammar in use. -/
structure PlainIn (g h : Grammar) (e : ExprId) : Prop extends h.Plain e where
  /-- What was there before stays. -/
  intact : g.IntactIn h
  /-- The side tables are about nodes. -/
  tidy : h.Tidy

namespace PlainIn

/-- What a plain node involves is plain in the same grammar. -/
theorem of_involves (he : g.PlainIn h e) (hx : h.Involves e x) : g.PlainIn h x :=
  ⟨he.toPlain.of_involves hx, he.intact, he.tidy⟩

/-- The nodes of a set are still there. -/
theorem lt_size_of_mem (he : g.PlainIn h e) (hJ : ∀ x, J x → x < g.size) (x : ExprId) (hx : J x) :
    x < h.size :=
  Nat.lt_of_lt_of_le (hJ x hx) he.intact.size_le

/-- Terminals are plain, for only choices have jump tables. -/
theorem of_isTerminal (htables : g.NarrowTables) (hgh : g.IntactIn h) (hh : h.Tidy)
    (hop : (h.op e).isTerminal) : g.PlainIn h e := by
  have hparts (x : ExprId) : x ∉ h.parts e := by
    intro hx
    rcases mem_parts.mp hx with hc | ⟨table, htable, hmem⟩
    · cases hop' : h.op e with rw [hop'] at hop hc
      | anyByte | byte _ | byteClass _ => cases hc
      | _ => cases hop
    · rw [hgh.table?_eq] at htable
      obtain ⟨alts, hchoice, -⟩ := (htables e table htable).2 x hmem
      rw [hgh.toExtends.op_eq_of_ne (by simp [hchoice]), hchoice] at hop
      cases hop
  have hinvolves {x : ExprId} (hx : h.Involves e x) : x = e := by
    induction hx with
    | refl => rfl
    | tail _ hz ih => exact absurd (ih ▸ hz) (hparts _)
  refine ⟨⟨fun x hx ↦ ?_, fun x rule hx hrule ↦ ?_⟩, hgh, hh⟩
  · rw [hinvolves hx]
    refine lt_size_of_op_ne fun hfail ↦ ?_
    rw [hfail] at hop
    cases hop
  · rw [← hinvolves hx, hrule] at hop
    cases hop

section

variable (he : g.PlainIn h e)
include he

/-- Plain nodes stay so while others are simplified. -/
theorem simplify (hx : g.PlainIn h x) : g.PlainIn (Grammar.simplify e h).2 x := by
  have hintact := keeps_simplify (enduring_intactIn h) e h (.refl h)
  exact ⟨hx.toPlain.intact hintact, hx.intact.trans hintact, hx.tidy.simplify he.toPlain⟩

theorem simplified (htables : g.NarrowTables)
    (hop : ((Grammar.simplify e h).2.op (Grammar.simplify e h).1).isTerminal) :
    g.PlainIn (Grammar.simplify e h).2 (Grammar.simplify e h).1 :=
  .of_isTerminal htables (he.simplify he).intact (he.simplify he).tidy hop

/-- Plain nodes stay so while others are factored. -/
theorem factor (hx : g.PlainIn h x) : g.PlainIn (factorCommonHead e h).2 x := by
  have hcomposes := ensures_known_factorCommonHead he.toPlain
  exact ⟨hx.toPlain.intact hcomposes.toIntactIn, hx.intact.trans hcomposes.toIntactIn,
    hcomposes.tidy hx.tidy⟩

theorem factored {factored : ExprId} (hfactored : (factorCommonHead e h).1 = some factored) :
    g.PlainIn (factorCommonHead e h).2 factored := by
  have hcomposes := ensures_known_factorCommonHead he.toPlain
  have hknown := hcomposes.known factored (by rw [hfactored]; exact List.mem_singleton_self _)
  exact ⟨hcomposes.plain he.tidy he.toPlain hknown, (he.factor he).intact, (he.factor he).tidy⟩

end

end PlainIn

/-- A plain node of a grammar in use that has nothing to do with a set of nodes, or a terminal that
is not in the set. -/
structure Spares (g : Grammar) (J : ExprId → Prop) (h : Grammar) (e : ExprId) : Prop
    extends g.PlainIn h e where
  /-- It has nothing to do with the set, or is a terminal. -/
  avoids : h.Avoids J e ∨ (h.op e).isTerminal ∧ ¬J e

namespace Spares

/-- A node that is apart from a set is not in it. -/
theorem not_mem (he : g.Spares J h e) : ¬J e :=
  he.avoids.elim (fun h ↦ h.not_mem e .refl) And.right

theorem avoids_of_isTerminal_eq_false (he : g.Spares J h e) (hop : (h.op e).isTerminal = false) :
    h.Avoids J e := by
  refine he.avoids.resolve_right fun hterminal ↦ ?_
  rw [hop] at hterminal
  cases hterminal.1

end Spares

section

variable (htables : g.NarrowTables) (hJ : ∀ x, J x → x < g.size)
include htables hJ

/-- Encoding plain nodes keeps a node apart from a set of nodes. -/
theorem confines_plainIn (x : ExprId) :
    Confines (fun h e ↦ g.PlainIn h e ∧ h.Avoids J x) fun _ ↦ True where
  own _ := trivial
  noReference he := he.1.noReference _ _ .refl
  child he hc := ⟨he.1.of_involves (.single (mem_parts.mpr (.inl hc))), he.2⟩
  entry he htable htarget :=
    ⟨he.1.of_involves (.single (mem_parts.mpr (.inr ⟨_, htable, htarget⟩))), he.2⟩
  simplify he hy := ⟨he.1.simplify hy.1, hy.2.simplify (he.1.lt_size_of_mem hJ) _⟩
  simplified _ _ := trivial
  terminal he _ hterminal :=
    ⟨he.1.simplified htables hterminal, he.2.simplify (he.1.lt_size_of_mem hJ) _⟩
  factor he hy := ⟨he.1.factor hy.1, hy.2.factorCommonHead he.1.toPlain⟩
  factored he hfactored := ⟨he.1.factored hfactored, he.2.factorCommonHead he.1.toPlain⟩

/-- Encoding nodes that are apart from a set of nodes comes to no others, and makes nothing for
nodes of the set. -/
theorem confines_spares : Confines (g.Spares J) (¬J ·) where
  own := Spares.not_mem
  noReference he := he.noReference _ _ .refl
  child {h e c} he hc := by
    have hpart : h.Involves e c := .single (mem_parts.mpr (.inl hc))
    have hop : (h.op e).isTerminal = false := by
      cases hop : h.op e with rw [hop] at hc
      | anyByte | byte _ | byteClass _ => cases hc
      | _ => rfl
    exact ⟨he.toPlainIn.of_involves hpart,
      .inl ((he.avoids_of_isTerminal_eq_false hop).of_involves hpart)⟩
  entry {h e table target} he htable htarget := by
    have hpart : h.Involves e target := .single (mem_parts.mpr (.inr ⟨table, htable, htarget⟩))
    -- only choices have jump tables
    have hop : (h.op e).isTerminal = false := by
      rw [he.intact.table?_eq] at htable
      obtain ⟨alts, hop, -⟩ := (htables e table htable).2 target htarget
      rw [he.intact.toExtends.op_eq_of_ne (by simp [hop]), hop]
      rfl
    exact ⟨he.toPlainIn.of_involves hpart,
      .inl ((he.avoids_of_isTerminal_eq_false hop).of_involves hpart)⟩
  simplify {h e x} he hx := by
    have hext := (keeps_simplify (enduring_intactIn h) e h (.refl h)).toExtends
    refine ⟨he.toPlainIn.simplify hx.toPlainIn, hx.avoids.imp
      (fun havoids ↦ havoids.simplify (he.lt_size_of_mem hJ) e) ?_⟩
    rw [hext.op_eq x (hx.lt_size x .refl)]
    exact id
  simplified he hop :=
    (he.avoids_of_isTerminal_eq_false hop).not_mem_simplify (he.lt_size_of_mem hJ)
  terminal he hop hterminal := ⟨he.toPlainIn.simplified htables hterminal, .inr ⟨hterminal,
    (he.avoids_of_isTerminal_eq_false hop).not_mem_simplify (he.lt_size_of_mem hJ)⟩⟩
  factor {h e x} he hx := by
    have hext := (ensures_known_factorCommonHead he.toPlain).toExtends
    refine ⟨he.toPlainIn.factor hx.toPlainIn, hx.avoids.imp
      (fun havoids ↦ havoids.factorCommonHead he.toPlain) ?_⟩
    rw [hext.op_eq x (hx.lt_size x .refl)]
    exact id
  factored {h e x} he hfactored := by
    have hop : (h.op e).isTerminal = false := by
      by_contra hop
      have hnone := (ensures_factorCommonHead_eq_none (g := h) e).mpr fun alts halts ↦ by
        rw [halts] at hop
        exact absurd rfl hop
      rw [hnone] at hfactored
      cases hfactored
    exact ⟨he.toPlainIn.factored hfactored, .inl ((he.avoids_of_isTerminal_eq_false hop).factored
      he.tidy (he.lt_size_of_mem hJ) hfactored)⟩

end

end Grammar

/-! ### Enclosed code -/

namespace Session

variable {s s' : Session} {Q : ExprId → Prop} {T : InstrId → Prop} {pc : InstrId} {slot : Nat}

/-- The arena holds a set of instructions that lead only to each other. They were made for nodes
with a property, and none is a call. -/
def Encloses (s : Session) (Q : ExprId → Prop) (T : InstrId → Prop) : Prop :=
  ∀ i, T i → ∃ instr, s.code.instrs[i]? = some instr ∧ Q instr.origin ∧ instr.op.isCall = false ∧
    ∀ j ∈ instr.successors, T j

/-- The code at a place is enclosed. -/
def Confined (s : Session) (Q : ExprId → Prop) (pc : InstrId) : Prop :=
  ∃ T, T pc ∧ s.Encloses Q T

/-- The code at a place is enclosed, or dispatches and is enclosed where the table has a slot. -/
def Predicts (s : Session) (Q : ExprId → Prop) (slot : Nat) (pc : InstrId) : Prop :=
  s.Confined Q pc ∨ ∃ instr codes, s.code.instrs[pc]? = some instr ∧ Q instr.origin ∧
    instr.op = .dispatch codes ∧ ∃ code, codes[slot]? = some code ∧ s.Confined Q code

/-- Instructions may be added. -/
theorem Encloses.mono (h : s.Encloses Q T)
    (hinstrs : ∀ i < s.code.instrs.size, s'.code.instrs[i]? = s.code.instrs[i]?) :
    s'.Encloses Q T := by
  intro i hi
  obtain ⟨instr, hinstr, hrest⟩ := h i hi
  exact ⟨instr, (hinstrs i (Array.getElem?_eq_some_iff.mp hinstr).1).trans hinstr, hrest⟩

theorem Confined.lt_size (h : s.Confined Q pc) : pc < s.code.instrs.size := by
  obtain ⟨T, hT, hencloses⟩ := h
  obtain ⟨instr, hinstr, -⟩ := hencloses pc hT
  exact (Array.getElem?_eq_some_iff.mp hinstr).1

/-- Code stays enclosed when more is made. -/
theorem Confined.mono (h : s.Confined Q pc)
    (hinstrs : ∀ i < s.code.instrs.size, s'.code.instrs[i]? = s.code.instrs[i]?) :
    s'.Confined Q pc :=
  h.imp fun _ hT ↦ ⟨hT.1, hT.2.mono hinstrs⟩

theorem Predicts.mono (h : s.Predicts Q slot pc)
    (hinstrs : ∀ i < s.code.instrs.size, s'.code.instrs[i]? = s.code.instrs[i]?) :
    s'.Predicts Q slot pc := by
  refine h.imp (·.mono hinstrs) fun ⟨instr, codes, hinstr, horigin, hop, code, hcode, hcode'⟩ ↦ ?_
  have hlt := (Array.getElem?_eq_some_iff.mp hinstr).1
  exact ⟨instr, codes, (hinstrs pc hlt).trans hinstr, horigin, hop, code, hcode,
    hcode'.mono hinstrs⟩

end Session

namespace Encoder

variable {s s' : Session} {P : Grammar → ExprId → Prop} {Q : ExprId → Prop} {next pc : InstrId}
  {m : Encoder InstrId}

/-- What is encoded leads to itself and to what comes next, and to no instruction before. -/
theorem Types.leads (hm : Types [next] m here s) (hnext : next < s.code.instrs.size)
    (htables : s.grammar.FullTables) (hrun : m s = some (pc, s')) :
    s.Emits s' ∧ (pc = next ∨ s.code.instrs.size ≤ pc ∧ pc < s'.code.instrs.size) ∧
      ∀ i, s.code.instrs.size ≤ i → i < s'.code.instrs.size → ∃ instr,
        s'.code.instrs[i]? = some instr ∧ ∀ j ∈ instr.successors,
          j = next ∨ s.code.instrs.size ≤ j ∧ j < s'.code.instrs.size := by
  obtain ⟨hemits, hids, htypes⟩ := hm
    (fun j hj ↦ by rwa [List.mem_singleton.mp hj]) htables pc s' hrun
  obtain ⟨contexts, hcontexts⟩ := htypes []
  -- the other instructions before are given a bracket that no new instruction opens
  obtain ⟨fresh, hfresh⟩ := Infinite.exists_notMem_finset (List.toFinset
    (((List.range s'.code.instrs.size).flatMap contexts).map Bracket.opener ++
      List.range s'.code.instrs.size))
  rw [List.mem_toFinset, List.mem_append, not_or, List.mem_range] at hfresh
  let Γ (i : Nat) : Context :=
    if s.code.instrs.size ≤ i then contexts i
    else if i = next then [] else [⟨.frame, fresh, fresh, 0⟩]
  have hold : Γ next = [] := (if_neg (Nat.not_le_of_lt hnext)).trans (if_pos rfl)
  obtain ⟨-, hfits⟩ := hcontexts s'.code.instrs Γ 0 (Nat.zero_le _) (fun _ _ _ ↦ rfl)
    (fun j hj ↦ by rw [List.mem_singleton.mp hj]; exact ⟨Nat.zero_le _, hold⟩)
    fun i hi _ ↦ if_pos hi
  refine ⟨hemits, (hids pc (List.mem_singleton_self _)).imp_left List.mem_singleton.mp,
    fun i hi hlt ↦ ?_⟩
  obtain ⟨instr, hinstr, hfit, hsuccessor, -⟩ := hfits i hi hlt
  refine ⟨instr, hinstr, fun j hj ↦ ?_⟩
  by_contra hne
  obtain ⟨hne, hnew⟩ := not_or.mp hne
  have hj_eq : Γ j = [⟨.frame, fresh, fresh, 0⟩] :=
    (if_neg fun hle ↦ hnew ⟨hle, (hsuccessor j hj).2⟩).trans (if_neg hne)
  have hi_eq : Γ i = contexts i := if_pos hi
  rcases hfit.mem_or_opens hj (hj_eq ▸ List.mem_singleton_self _) with hmem | ⟨rfl, -⟩
  · rw [hi_eq] at hmem
    exact hfresh.1 (List.mem_map_of_mem (List.mem_flatMap.mpr ⟨i, List.mem_range.mpr hlt, hmem⟩))
  · exact hfresh.2 hlt

/-- What is encoded is enclosed if what comes next is. -/
theorem Types.confined (hm : Types [next] m here s) (hattributes : Attributes P Q m s)
    (hnext : s.Confined Q next) (htables : s.grammar.FullTables) (hrun : m s = some (pc, s')) :
    s.Emits s' ∧ s'.Confined Q pc := by
  obtain ⟨hemits, hpc, hleads⟩ := hm.leads hnext.lt_size htables hrun
  obtain ⟨T, hT, hencloses⟩ := hnext
  have hmadeFor : s'.MadeFor Q s.code.instrs.size :=
    (hattributes pc s' hrun).madeFor _ fun i instr hi hinstr ↦
      absurd hi (Nat.not_le_of_lt (Array.getElem?_eq_some_iff.mp hinstr).1)
  refine ⟨hemits, fun i ↦ T i ∨ s.code.instrs.size ≤ i ∧ i < s'.code.instrs.size,
    hpc.imp_left fun heq ↦ by rwa [heq], fun i hi ↦ ?_⟩
  rcases hi with hi | ⟨hi, hlt⟩
  · obtain ⟨instr, hinstr, horigin, hop, hsuccessor⟩ := hencloses.mono hemits.instrs_eq i hi
    exact ⟨instr, hinstr, horigin, hop, fun j hj ↦ .inl (hsuccessor j hj)⟩
  · obtain ⟨instr, hinstr, hsuccessor⟩ := hleads i hi hlt
    obtain ⟨horigin, hop⟩ := hmadeFor i instr hi hinstr
    exact ⟨instr, hinstr, horigin, hop, fun j hj ↦
      (hsuccessor j hj).imp_left fun heq ↦ by rwa [heq]⟩

/-! ### Choices -/

section

variable {α : Type} {slot : Nat}

/-- The code that is answered is enclosed, or dispatches and is enclosed where the table has a
slot. -/
def Predicts (Q : ExprId → Prop) (slot : Nat) (m : Encoder InstrId) (s : Session) : Prop :=
  ∀ pc s', m s = some (pc, s') → s'.Predicts Q slot pc

namespace Predicts

/-- Only what comes last matters. -/
theorem bind {m : Encoder α} {f : α → Encoder InstrId}
    (hf : ∀ a s₁, m s = some (a, s₁) → Predicts Q slot (f a) s₁) :
    Predicts Q slot (m >>= f) s := by
  intro pc s₂ h
  obtain ⟨a, s₁, h₁, h₂⟩ := bind_eq_some h
  exact hf a s₁ h₁ pc s₂ h₂

/-- Reading the options. -/
theorem options {f : Options → Encoder InstrId} (hf : Predicts Q slot (f s.options) s) :
    Predicts Q slot (Encoder.options >>= f) s :=
  hf

/-- Reading the grammar. -/
theorem grammar {f : Grammar → Encoder InstrId} (hf : Predicts Q slot (f s.grammar) s) :
    Predicts Q slot (Encoder.grammar >>= f) s :=
  hf

end Predicts

end

end Encoder

/-! ### Entries of a jump table -/

/-- A session in which the entries of a jump table may be encoded, of which one has nothing to do
with a set of nodes. -/
structure Session.Prepared (s : Session) (g : Grammar) (J : ExprId → Prop) (alts : List ExprId)
    (selected : ExprId) (next : InstrId) : Prop where
  /-- The jump tables are complete. -/
  fullTables : s.grammar.FullTables
  /-- What comes after the choice is enclosed. -/
  next : s.Confined (¬J ·) next
  /-- The alternatives are plain, and the selected one is apart. -/
  alternatives : ∀ alt ∈ alts, g.PlainIn s.grammar alt ∧ s.grammar.Avoids J selected

namespace Encoder

section

variable {g : Grammar} {J : ExprId → Prop} (htables : g.NarrowTables)
  (hJ : ∀ x, J x → x < g.size) {alts : List ExprId} {selected choice next depth : Nat}
  {s s' : Session}
include htables hJ

/-- Encoding an entry leaves the others to be encoded. The code of the selected one is enclosed. -/
theorem prepared_entryCode (hs : s.Prepared g J alts selected next) {target code : Nat}
    (htarget : target ∈ alts)
    (h : entryCode (encode depth) choice next target s = some (code, s')) :
    s.Emits s' ∧ s'.Prepared g J alts selected next ∧
      (target = selected → s'.Confined (¬J ·) code) := by
  have htypes : Types [next] (entryCode (encode depth) choice next target) here s :=
    types_entryCode (types_encode depth) choice target (List.mem_singleton_self _)
  have hkinds := attributes_entryCode (Grammar.confines_plainIn htables hJ selected)
    (attributes_encode (Grammar.confines_plainIn htables hJ selected) depth) choice
    (hs.alternatives target htarget) code s' h
  have hemits : s.Emits s' := (htypes.leads hs.next.lt_size hs.fullTables h).1
  refine ⟨hemits, ⟨hemits.fullTables hs.fullTables, hs.next.mono hemits.instrs_eq,
    fun alt halt ↦ hkinds.kind alt (hs.alternatives alt halt)⟩, ?_⟩
  rintro rfl
  have hselected : g.Spares J s.grammar target :=
    ⟨(hs.alternatives target htarget).1, .inl (hs.alternatives target htarget).2⟩
  exact (htypes.confined (attributes_entryCode (Grammar.confines_spares htables hJ)
    (attributes_encode (Grammar.confines_spares htables hJ) depth) choice hselected) hs.next
    hs.fullTables h).2

/-- Where a table has the selected entry, its code is enclosed. -/
theorem confined_entryCodes (hs : s.Prepared g J alts selected next)
    {done : List (ExprId × InstrId)} (hdone : ∀ code, (selected, code) ∈ done →
      s.Confined (¬J ·) code) {table : JumpTable} (htable : ∀ target ∈ table, target ∈ alts)
    {codes : List InstrId}
    (h : entryCodes (encode depth) choice next done table s = some (codes, s')) :
    s.Emits s' ∧ ∀ slot : Nat, table[slot]? = some selected →
      ∃ code, codes[slot]? = some code ∧ s'.Confined (¬J ·) code := by
  induction table generalizing s done codes with
  | nil =>
    cases h
    exact ⟨.refl _, fun _ h ↦ nomatch h⟩
  | cons target table ih =>
    have hrest : ∀ x ∈ table, x ∈ alts := fun x hx ↦ htable x (List.mem_cons_of_mem _ hx)
    rw [entryCodes] at h
    rcases hlookup : done.lookup target with - | code
    · rw [hlookup] at h
      obtain ⟨code, s₁, h₁, h⟩ := bind_eq_some h
      obtain ⟨rest, s₂, h₂, h⟩ := bind_eq_some h
      cases h
      obtain ⟨hemits₁, hs₁, hcode⟩ :=
        prepared_entryCode htables hJ hs (htable target List.mem_cons_self) h₁
      have hdone₁ (code' : InstrId) (hmem : (selected, code') ∈ (target, code) :: done) :
          s₁.Confined (¬J ·) code' := by
        rcases List.mem_cons.mp hmem with heq | hmem
        · cases heq
          exact hcode rfl
        · exact (hdone code' hmem).mono hemits₁.instrs_eq
      obtain ⟨hemits₂, hcodes⟩ := ih hs₁ hdone₁ hrest h₂
      refine ⟨hemits₁.trans hemits₂, fun slot hslot ↦ ?_⟩
      cases slot with
      | zero => exact ⟨code, rfl, (hcode (Option.some.inj hslot)).mono hemits₂.instrs_eq⟩
      | succ slot => exact hcodes slot hslot
    · -- an equal entry before has code already
      have hmem := mem_of_lookup_eq_some hlookup
      rw [hlookup] at h
      obtain ⟨rest, s₁, h₁, h⟩ := bind_eq_some h
      cases h
      obtain ⟨hemits, hcodes⟩ := ih hs hdone hrest h₁
      refine ⟨hemits, fun slot hslot ↦ ?_⟩
      cases slot with
      | zero =>
        cases hslot
        exact ⟨code, rfl, (hdone code hmem).mono hemits.instrs_eq⟩
      | succ slot => exact hcodes slot hslot

/-- The code of a node that has nothing to do with the set is enclosed. -/
theorem predicts_of_spares (hs : s.Prepared g J alts selected next) {e : ExprId}
    (he : g.Spares J s.grammar e) (slot : Nat) :
    Predicts (¬J ·) slot (encode depth e next) s :=
  fun _ _ h ↦ .inl ((types_encode depth e s next).confined (attributes_encode
    (Grammar.confines_spares htables hJ) depth e next s he) hs.next hs.fullTables h).2

section

variable (hop : g.op choice = .choice alts) (hchoice : ¬J choice)
  (hrecorded : ∀ other, g.simplified? choice = some other → ¬J other) {table : JumpTable}
  (htable : g.table? choice = some table) (hsub : ∀ target ∈ table, target ∈ alts) {slot : Nat}
  (hslot : table[slot]? = some selected) (hs : s.Prepared g J alts selected next)
  (hgrammar : s.grammar = g)
include hop hchoice hrecorded htable hsub hslot hs hgrammar

/-- The code of a choice goes to the code of the selected entry, which is enclosed. -/
theorem predicts_choiceCode :
    Predicts (¬J ·) slot (choiceCode (encode depth) choice alts next) s := by
  subst hgrammar
  have halts := hs.alternatives
  have hselected := halts selected (hsub selected (List.mem_of_getElem? hslot))
  have hplain : s.grammar.PlainIn s.grammar choice := by
    refine ⟨.of_parts (Grammar.lt_size_of_op_ne (by simp [hop]))
      (fun rule hrule ↦ nomatch hop.symm.trans hrule) fun x hx ↦ (halts x ?_).1.toPlain,
      hselected.1.intact, hselected.1.tidy⟩
    rcases Grammar.mem_parts.mp hx with hc | ⟨table', htable', hmem⟩
    · rwa [hop] at hc
    · cases htable.symm.trans htable'
      exact hsub x hmem
  have hterminal : (s.grammar.op choice).isTerminal = false := by rw [hop]; rfl
  refine .bind fun other s₁ hother ↦ .grammar ?_
  have hconfines := Grammar.confines_plainIn htables hJ selected
  have hkinds := attributes_simplified hconfines ⟨hplain, hselected.2⟩ other s₁ hother
  have htypes : Types [] (simplified choice) nowhere s := types_simplified
  have hemits : s.Emits s₁ := (htypes (List.forall_mem_nil _) hs.fullTables other s₁ hother).1
  have hs₁ : s₁.Prepared s.grammar J alts selected next :=
    ⟨hemits.fullTables hs.fullTables, hs.next.mono hemits.instrs_eq,
      fun alt halt ↦ hkinds.kind alt (halts alt halt)⟩
  split
  · -- a byte class, which may be recorded
    rename_i set hne hclass
    have hother_terminal : (s₁.grammar.op other).isTerminal := by rw [hclass]; rfl
    have hother_not : ¬J other := by
      rcases eq_or_of_simplified hother with ⟨rfl, -⟩ | ⟨rfl, -⟩
      · exact hchoice
      · exact Grammar.not_mem_simplify_choice hJ hop hchoice hrecorded
    exact predicts_of_spares htables hJ hs₁
      ⟨((kind_of_confines hconfines ⟨hplain, hselected.2⟩ hterminal hother).2 hother_terminal).1,
        .inr ⟨hother_terminal, hother_not⟩⟩ slot
  · refine .grammar ?_
    rw [(hkinds.kind choice ⟨hplain, hselected.2⟩).1.intact.table?_eq, htable]
    dsimp only
    refine .bind fun codes s₂ hcodes ↦ ?_
    obtain ⟨-, hentries⟩ :=
      confined_entryCodes htables hJ hs₁ (fun _ h ↦ absurd h List.not_mem_nil) hsub hcodes
    intro pc s₃ h
    obtain ⟨hemits₃, rfl, -, hinstr⟩ := emits_emitWith h
    obtain ⟨code, hcode, hconfined⟩ := hentries slot hslot
    exact .inr ⟨_, codes, hinstr, hchoice, rfl, code, hcode, hconfined.mono hemits₃.instrs_eq⟩

/-- The code of a choice, encoded as a node. -/
theorem predicts_encode : Predicts (¬J ·) slot (encode depth choice next) s := by
  cases depth with
  | zero => exact fun _ _ h ↦ (nomatch h)
  | succ depth =>
    refine .options (.grammar ?_)
    rw [hgrammar, hop]
    exact predicts_choiceCode htables hJ hop hchoice hrecorded htable hsub hslot hs hgrammar

end

end

end Encoder

/-! ### Finished programs -/

/-- A dispatch goes on where its table has the slot of the next byte. -/
theorem Machine.step_dispatch {p : Program} {src : Resident} {st : State} {instr : Instruction}
    (hinstr : p.code[st.pc]? = some instr) {table : List InstrId} (hop : instr.op = .dispatch table)
    {target : InstrId} (htarget : table[src.slot st.pos]? = some target) :
    (step p st src).1 = .running { st with pc := target } := by
  have hperform : perform instr.op instr.next st src = (.jump target st, src) := by
    rw [hop]
    exact Image.perform_dispatch htarget _
  simp only [step, hinstr]
  rw [Resident.bind_run hperform]
  rfl

theorem Opcode.isCall_moved (op : Opcode) (target : RuleId → Option InstrId)
    (place : InstrId → InstrId) : ((op.linked target).mapTargets place).isCall = op.isCall := by
  cases op <;> rfl

namespace Session

variable {s s' : Session} {Γ : InstrId → Context} {Q : ExprId → Prop} {T : InstrId → Prop}
  {pc : InstrId} {p : Program} {n : Nat}

/-- The places of enclosed code enclose it in the program. -/
theorem Laid.encloses (hs : s.Laid Γ) (hp : s.finish = .ok p) (hT : s.Encloses Q T) :
    p.Encloses (fun n ↦ ∃ i, T i ∧ s.code.order[n]? = some i) ∧
      ∀ (n i : InstrId), T i → s.code.order[n]? = some i →
        ∃ instr, p.code[n]? = some instr ∧ Q instr.origin := by
  have hplaced {n : InstrId} {i : InstrId} {instr' : Instruction} (hi : T i)
      (hn : s.code.order[n]? = some i) (hinstr' : p.code[n]? = some instr') : ∃ instr,
      s.code.instrs[i]? = some instr ∧ s.Moves instr instr' ∧ instr.op.isCall = false ∧
        ∀ j ∈ instr.successors, T j := by
    obtain ⟨_, instr, hn', hinstr, hmoves⟩ := hs.exists_placed hp hinstr'
    cases hn.symm.trans hn'
    obtain ⟨_, hget, -, hop, hsuccessor⟩ := hT i hi
    cases hinstr.symm.trans hget
    exact ⟨instr, hinstr, hmoves, hop, hsuccessor⟩
  refine ⟨⟨?_, ?_⟩, fun n i hi hn ↦ ?_⟩
  · rintro n instr' ⟨i, hi, hn⟩ hinstr' j' hj'
    obtain ⟨instr, hinstr, hmoves, hop, hsuccessor⟩ := hplaced hi hn hinstr'
    rw [hmoves.successors_eq fun rule target heq ↦ by rw [heq] at hop; cases hop] at hj'
    obtain ⟨j, hj, rfl⟩ := List.mem_map.mp hj'
    obtain ⟨m, hm⟩ := Array.mem_iff_getElem?.mp
      (hs.mem_order (Array.mem_of_getElem? hn) hinstr hj)
    exact ⟨j, hsuccessor j hj, by rw [hs.moved_eq hm, hm]⟩
  · rintro n instr' ⟨i, hi, hn⟩ hinstr'
    obtain ⟨instr, -, hmoves, hop, -⟩ := hplaced hi hn hinstr'
    rw [hmoves.op_eq, Opcode.isCall_moved, hop]
  · obtain ⟨instr, hinstr, horigin, -⟩ := hT i hi
    obtain ⟨instr', hget, hmoves⟩ := (hs.fetch hp).2 n i instr hn hinstr
    exact ⟨instr', hget, by rwa [hmoves.origin_eq]⟩

/-- Running a program whose code goes to enclosed code where the table has the slot of the first
byte. -/
theorem Laid.executed_of_predicts (hs : s.Laid Γ) (hp : s.finish = .ok p) {src : Resident}
    (hpredicts : s.Predicts Q (src.slot 0) pc) (hpc : s.code.order[n]? = some pc)
    (hentry : p.entry = n) (limit : Nat) : ∀ i ∈ (runOn limit p src).executed,
      ∃ instr, p.code[i]? = some instr ∧ Q instr.origin := by
  subst hentry
  intro i hi
  rcases hpredicts with ⟨T, hT, hencloses⟩ |
    ⟨instr, codes, hinstr, horigin, hop, code, hcode, T, hT, hencloses⟩
  · obtain ⟨hp', hmade⟩ := hs.encloses hp hencloses
    rcases executed_enclosed hp' limit #[] src ⟨pc, hT, hpc⟩
      ⟨rfl, fun _ hf ↦ absurd hf List.not_mem_nil⟩ i hi with
      hmem | ⟨j, hj, hn⟩
    · exact absurd hmem (Array.not_mem_empty _)
    · exact hmade i j hj hn
  · obtain ⟨hp', hmade⟩ := hs.encloses hp hencloses
    obtain ⟨instr', hget, hmoves⟩ := (hs.fetch hp).2 _ pc instr hpc hinstr
    have hplaced : code ∈ s.code.order := by
      refine hs.mem_order (Array.mem_of_getElem? hpc) hinstr (List.mem_append_right _ ?_)
      rw [hop]
      exact List.mem_of_getElem? hcode
    obtain ⟨m, hm⟩ := Array.mem_iff_getElem?.mp hplaced
    -- the first step is the jump to the code of the entry
    have hstep : (step p (Machine.start p) src).1.Enclosed
        fun n ↦ ∃ i, T i ∧ s.code.order[n]? = some i := by
      rw [step_dispatch hget (by rw [hmoves.op_eq, hop]; rfl)
        (by rw [List.getElem?_map, Machine.start, hcode]; rfl), hs.moved_eq hm]
      exact ⟨⟨code, hT, hm⟩, rfl, fun _ hf ↦ absurd hf List.not_mem_nil⟩
    rcases executed_of_step hp' limit #[] src hstep i hi with hmem | ⟨j, hj, hn⟩
    · rw [Array.mem_push] at hmem
      obtain rfl := hmem.resolve_left (Array.not_mem_empty _)
      exact ⟨instr', hget, by rwa [hmoves.origin_eq]⟩
    · exact hmade i j hj hn

/-- Encoding the body of a rule adds instructions and a block, and changes nothing else. -/
theorem exists_of_encodeRule_emits (hs : s.grammar.FullTables) {rule : RuleId} {body : ExprId}
    {u : Unit} (h : Session.encodeRule rule body s = some (u, s')) :
    ∃ head s₂, s.Emits s₂ ∧ s' = s₂.addBlock rule head := by
  obtain ⟨ret, s₁, head, s₂, hret, hhead, rfl⟩ := exists_of_encodeRule h
  obtain ⟨hemits, rfl, hsize, -⟩ := Encoder.emits_emitWith hret
  exact ⟨head, s₂, hemits.trans ((Encoder.types_encode s₁.depth body).run hsize
    (hemits.fullTables hs) hhead).1, rfl⟩

/-- What is known of the first block stays known while further rules are compiled. -/
theorem predicts_of_compileRules {slot : Nat} {block : Block} {rules : List RuleId}
    {e : Option CompileError} (hs : s.Laid Γ) (hblock : s.blocks[0]? = some block)
    (hpredicts : s.Predicts Q slot block.head) (h : s.compileRules rules = some (e, s')) :
    (∃ Γ', s'.Laid Γ') ∧ s'.blocks[0]? = some block ∧ s'.Predicts Q slot block.head := by
  refine keeps_compileRules_of_step (P := fun t ↦ (∃ Γ', t.Laid Γ') ∧
    t.blocks[0]? = some block ∧ t.Predicts Q slot block.head) (fun rule t t' ht hrule ↦ ?_) h
    ⟨⟨Γ, hs⟩, hblock, hpredicts⟩
  obtain ⟨⟨Γ₁, hlaid⟩, hblock, hpredicts⟩ := ht
  rcases exists_of_compileRule hrule with ⟨-, rfl⟩ | ⟨-, body, u, -, hencode⟩
  · exact ⟨⟨Γ₁, hlaid⟩, hblock, hpredicts⟩
  · obtain ⟨Γ', hlaid', -⟩ := hlaid.encodeRule hencode
    obtain ⟨head, t₂, hemits, rfl⟩ := exists_of_encodeRule_emits hlaid.fullTables hencode
    refine ⟨⟨Γ', hlaid'⟩, ?_, hpredicts.mono hemits.instrs_eq⟩
    have hlt := (Array.getElem?_eq_some_iff.mp hblock).1
    rw [← hemits.blocks_eq] at hblock hlt
    exact (Array.getElem?_push_lt hlt).trans ((Array.getElem?_eq_getElem hlt).symm.trans hblock)

end Session

/-- The first rule is encoded in a session that holds nothing, and where its code goes decides what
a run of the program executes. -/
theorem exists_encode_of_compile {g k : Grammar} (htables : g.FullTables) {rule : RuleId}
    {body : ExprId} (hbody : g.body? rule = some body) {depth : Nat} {rules : List RuleId}
    {o : Options} {p : Program}
    (hcompile : compileWithin depth g (rule :: rules) o = some (.ok p, k)) :
    ∃ ret s₁ head s₂, Encoder.emitEnd .ret body (Session.start depth g o) = some (ret, s₁) ∧
      Encoder.encode s₁.depth body ret s₁ = some (head, s₂) ∧
      ∀ Q (src : Resident), s₂.Predicts Q (src.slot 0) head → ∀ limit,
        ∀ i ∈ (runOn limit p src).executed, ∃ instr, p.code[i]? = some instr ∧ Q instr.origin := by
  obtain ⟨_, s, hrules, -, hok⟩ := Grammar.exists_session hcompile
  obtain ⟨rfl, hfinish⟩ := hok p rfl
  unfold Session.compileRules at hrules
  split at hrules
  · cases hrules
  · cases hrules
  rename_i s' hrule
  have hlaid := Session.laid_start htables depth o fun _ ↦ []
  rcases Session.exists_of_compileRule hrule with ⟨hsome, -⟩ | ⟨-, body', u, hbody', hencode⟩
  · cases hsome
  obtain rfl : body = body' := Option.some.inj (hbody.symm.trans hbody')
  obtain ⟨Γ, hlaid', -⟩ := hlaid.encodeRule hencode
  obtain ⟨ret, s₁, head, s₂, hret, hhead, rfl⟩ := Session.exists_of_encodeRule hencode
  refine ⟨ret, s₁, head, s₂, hret, hhead, fun Q src hpredicts limit ↦ ?_⟩
  obtain ⟨hemits, rfl, hsize, -⟩ := Encoder.emits_emitWith hret
  have hblocks : s₂.blocks = #[] := ((Encoder.types_encode s₁.depth body).run hsize
    (hemits.fullTables htables) hhead).1.blocks_eq.trans hemits.blocks_eq
  have hblock : (s₂.addBlock rule head).blocks[0]? =
      some ⟨rule, head, s₂.code.order.size, (s₂.code.place head).order.size⟩ := by
    rw [Session.addBlock, hblocks]
    rfl
  have hpredicts' : (s₂.addBlock rule head).Predicts Q (src.slot 0) head :=
    hpredicts.mono fun _ _ ↦ rfl
  -- further rules leave the first block as it is
  obtain ⟨⟨Γ', hlaid⟩, hblock, hpredicts⟩ :=
    Session.predicts_of_compileRules hlaid' hblock hpredicts' hrules
  have hplaced := (hlaid.stretch _ (Array.mem_of_getElem? hblock)).head
  obtain ⟨-, first, hfirst, hentry⟩ := Session.blocks_of_finish hfinish
  cases hblock.symm.trans hfirst
  rw [hlaid.moved_eq hplaced] at hentry
  exact hlaid.executed_of_predicts hfinish hpredicts hplaced hentry limit

/-! ### Selected alternatives -/

namespace Grammar

variable {g : Grammar} {choice selected alt : ExprId} {alts : List ExprId}

/-- The alternatives of a choice have no references, and the others have neither the choice nor
anything that the selected one involves. Nor have they what was recorded when such a node was
simplified. -/
structure KeptApart (g : Grammar) (choice : ExprId) (alts : List ExprId) (selected : ExprId) :
    Prop where
  /-- There are no references. -/
  noReference : ∀ alt ∈ alts, ∀ x ∈ g.subtree alt, ∀ rule, g.op x ≠ .reference rule
  /-- The others have nothing of what the selected one involves, nor the choice. -/
  apart : ∀ other ∈ alts, other ≠ selected → ∀ x, x = choice ∨ g.Involves selected x →
    x ∉ g.subtree other
  /-- The others have nothing of what is recorded for that. -/
  recorded : ∀ other ∈ alts, other ≠ selected → ∀ x simpler, x = choice ∨ g.Involves selected x →
    g.simplified? x = some simpler → simpler ∉ g.subtree other

/-- The nodes of the other alternatives. -/
def InOthers (g : Grammar) (alts : List ExprId) (selected x : ExprId) : Prop :=
  ∃ other ∈ alts, other ≠ selected ∧ x ∈ g.subtree other

/-- A node involves its operands at every depth and what the jump tables of these lead to: nodes
that fail, and choices of such operands. -/
theorem NarrowTables.of_involves (htables : g.NarrowTables) {e x : ExprId} (hx : g.Involves e x) :
    g.Contains e x ∨ g.op x = .fail ∨
      ∃ subset, g.op x = .choice subset ∧ ∀ y ∈ subset, g.Contains e y := by
  have hchild {x : ExprId} (hx : g.Contains e x ∨ g.op x = .fail ∨
      ∃ subset, g.op x = .choice subset ∧ ∀ y ∈ subset, g.Contains e y) {y : ExprId}
      (hy : y ∈ (g.op x).children) : g.Contains e y := by
    rcases hx with hx | hop | ⟨subset, hop, hsubset⟩
    · exact hx.tail hy
    · rw [hop] at hy
      cases hy
    · rw [hop] at hy
      exact hsubset y hy
  induction hx with
  | refl => exact .inl .refl
  | @tail y z _ hz ih =>
    rcases mem_parts.mp hz with hc | ⟨table, htable, hmem⟩
    · exact .inl (hchild ih hc)
    · obtain ⟨alts, hop, hshape⟩ := (htables y table htable).2 z hmem
      have halts (alt : ExprId) (halt : alt ∈ alts) : g.Contains e alt :=
        hchild ih (by rwa [hop])
      rcases hshape with rfl | halt | hfail | ⟨subset, hsubset, hsub⟩
      · exact ih
      · exact .inl (halts z halt)
      · exact .inr (.inl hfail)
      · exact .inr (.inr ⟨subset, hsubset, fun x hx ↦ halts x (hsub.subset hx)⟩)

namespace KeptApart

variable (hapart : g.KeptApart choice alts selected) (hg : g.NoDangling) (htables : g.NarrowTables)
include hapart hg htables

/-- An alternative without references is plain. -/
theorem plain (halt : alt ∈ alts) (hlt : alt < g.size) : g.Plain alt where
  lt_size _ hx := hg.involves_lt hlt hx
  noReference x rule hx hop := by
    rcases htables.of_involves hx with hcontains | hfail | ⟨subset, hchoice, -⟩
    · exact hapart.noReference alt halt x ((mem_subtree_iff hg hlt).mpr hcontains) rule hop
    · cases hop.symm.trans hfail
    · cases hop.symm.trans hchoice

/-- The selected alternative has nothing to do with the others. -/
theorem avoids (hselected : selected ∈ alts) (hlt : selected < g.size) :
    g.Avoids (g.InOthers alts selected) selected where
  toPlain := hapart.plain hg htables hselected hlt
  not_mem x hx := fun ⟨other, hother, hne, hmem⟩ ↦
    hapart.apart other hother hne x (.inr hx) hmem
  recorded x simpler hx hsimpler := fun ⟨other, hother, hne, hmem⟩ ↦
    hapart.recorded other hother hne x simpler (.inr hx) hsimpler hmem

end KeptApart

/-- In a program whose entry is a choice with a jump table of alternatives that have no references,
a run executes nothing that was made for another alternative than the one that the first byte
selects, however it ends. This asks that nothing of what the selected alternative involves, and
nothing recorded for that, is in another alternative. -/
theorem executed_of_selects (hg : g.NoDangling) (htables : g.NarrowTables) {rule : RuleId}
    (hbody : g.body? rule = some choice) (hop : g.op choice = .choice alts) {table : JumpTable}
    (htable : g.table? choice = some table) (hsub : ∀ target ∈ table, target ∈ alts)
    {input : Array UInt8} (hslot : table[({ text := input } : Resident).slot 0]? = some selected)
    (hapart : g.KeptApart choice alts selected) {depth : Nat} {rules : List RuleId} {o : Options}
    {p : Program} {k : Grammar}
    (hcompile : compileWithin depth g (rule :: rules) o = some (.ok p, k)) (limit : Nat) :
    ∀ i ∈ (run limit p input).executed, ∃ instr, p.code[i]? = some instr ∧
      ∀ other ∈ alts, other ≠ selected → instr.origin ∉ g.subtree other := by
  have hselected : selected ∈ alts := hsub selected (List.mem_of_getElem? hslot)
  have hlt (alt : ExprId) (h : alt ∈ alts) : alt < g.size :=
    hg.child_lt choice alt (by rw [hop]; exact h)
  have hothers (x : ExprId) (hx : g.InOthers alts selected x) : x < g.size := by
    obtain ⟨other, hother, -, hmem⟩ := hx
    exact hg.contains_lt (hlt other hother) (contains_of_mem_subtree hmem)
  obtain ⟨ret, s₁, head, s₂, hret, hhead, hrun⟩ :=
    exists_encode_of_compile htables.fullTables hbody hcompile
  have hgrammar : s₁.grammar = g := by
    cases hret
    rfl
  obtain ⟨-, -, -, hinstr⟩ := Encoder.emits_emitWith hret
  have hnot : ¬g.InOthers alts selected choice := fun ⟨other, hother, hne, hmem⟩ ↦
    hapart.apart other hother hne choice (.inl rfl) hmem
  have hprepared : s₁.Prepared g (g.InOthers alts selected) alts selected ret := by
    refine ⟨by rw [hgrammar]; exact htables.fullTables, ⟨(· = ret), rfl, ?_⟩, fun alt halt ↦ ?_⟩
    · rintro _ rfl
      exact ⟨_, hinstr, hnot, rfl, fun _ hj ↦ nomatch hj⟩
    · rw [hgrammar]
      exact ⟨⟨hapart.plain hg htables halt (hlt alt halt), .refl g, hg.toTidy⟩,
        hapart.avoids hg htables hselected (hlt selected hselected)⟩
  have hrecorded (simpler : ExprId) (hsimpler : g.simplified? choice = some simpler) :
      ¬g.InOthers alts selected simpler := fun ⟨other, hother, hne, hmem⟩ ↦
    hapart.recorded other hother hne choice simpler (.inl rfl) hsimpler hmem
  have hpredicts := Encoder.predicts_encode htables hothers hop hnot hrecorded htable hsub hslot
    hprepared hgrammar head s₂ hhead
  intro i hi
  obtain ⟨instr, hinstr, horigin⟩ := hrun _ _ hpredicts limit i hi
  exact ⟨instr, hinstr, fun other hother hne hmem ↦ horigin ⟨other, hother, hne, hmem⟩⟩

/-- A node that is a terminal, has operands or fails is no reference. -/
theorem ne_reference {e : ExprId}
    (he : (g.op e).isTerminal ∨ (g.op e).children ≠ [] ∨ g.op e = .fail) (rule : RuleId) :
    g.op e ≠ .reference rule := by
  intro hop
  rw [hop] at he
  rcases he with hterminal | hchildren | hfail
  · cases hterminal
  · exact hchildren rfl
  · cases hfail

/-- `S = ('a' 'c' / 'a' 'd') / 'b'`. -/
def nestedAlternatives : Grammar where
  nodes := #[⟨.byte 97, .synthetic⟩, ⟨.byte 99, .synthetic⟩, ⟨.sequence [0, 1], .synthetic⟩,
    ⟨.byte 100, .synthetic⟩, ⟨.sequence [0, 3], .synthetic⟩, ⟨.choice [2, 4], .synthetic⟩,
    ⟨.byte 98, .synthetic⟩, ⟨.choice [5, 6], .synthetic⟩]
  rules := #[{ name := "S", body := some 7 }]

/-- The first alternative of `S`, which is factored, is all that is executed for `ad`. -/
theorem executed_of_selects_nestedAlternatives : ∃ g p k,
    (attachTables nestedAlternatives).2.attachTable? 7 ((List.replicate slotCount 6).set 97 5) =
      some g ∧ g.KeptApart 7 [5, 6] 5 ∧
    compileWithin 20 g [0] { commonHead := true } = some (.ok p, k) ∧
    ∀ limit, ∀ i ∈ (run limit p #[97, 100]).executed, ∃ instr, p.code[i]? = some instr ∧
      ∀ other ∈ [5, 6], other ≠ 5 → instr.origin ∉ g.subtree other := by
  let h := (attachTables nestedAlternatives).2
  let table := (List.replicate slotCount 6).set 97 5
  let g := h.setTable 7 table
  have hattach : h.attachTable? 7 table = some g := if_pos (by decide +kernel)
  have hempty : nestedAlternatives.SelfContained := .of_empty (by decide) rfl rfl
  have hop : h.op 7 = .choice [5, 6] := by decide +kernel
  have hsub : ∀ target ∈ table, target ∈ [5, 6] := by decide +kernel
  have hself : g.SelfContained := hempty.attachTables.attachTable? hop hsub hattach
  have htables : g.NarrowTables :=
    ((NarrowTables.of_tables_empty rfl).attachTables hempty).attachTable? hop hsub hattach
  -- the first alternative, with the node for bytes that it does not begin with
  have hclosed : ∀ x ∈ [0, 1, 2, 3, 4, 5, 8], ∀ y ∈ g.parts x, y ∈ [0, 1, 2, 3, 4, 5, 8] := by
    decide +kernel
  have hcheck : (∀ alt ∈ [5, 6], ∀ x ∈ g.subtree alt,
      (g.op x).isTerminal ∨ (g.op x).children ≠ [] ∨ g.op x = .fail) ∧
      ∀ x ∈ [7, 0, 1, 2, 3, 4, 5, 8], x ∉ g.subtree 6 ∧ g.simplified? x = none := by
    decide +kernel
  obtain ⟨hrule, hapart⟩ := hcheck
  have hmem {x : ExprId} (hx : x = 7 ∨ g.Involves 5 x) : x ∈ [7, 0, 1, 2, 3, 4, 5, 8] :=
    List.mem_cons.mpr (hx.imp_right fun hx ↦ hx.mem hclosed (by decide))
  have hother {other : ExprId} (h : other ∈ [5, 6]) (hne : other ≠ 5) : other = 6 :=
    List.mem_singleton.mp ((List.mem_cons.mp h).resolve_left hne)
  have hkept : g.KeptApart 7 [5, 6] 5 := by
    refine ⟨fun alt halt x hx ↦ ne_reference (hrule alt halt x hx), fun other h hne x hx ↦ ?_,
      fun other h hne x simpler hx hsimpler ↦ ?_⟩
    · obtain rfl := hother h hne
      exact (hapart x (hmem hx)).1
    · rw [(hapart x (hmem hx)).2] at hsimpler
      cases hsimpler
  obtain ⟨p, k, hcompile, -⟩ := exists_program 20 g [0] { commonHead := true } (fun _ ↦ true)
    (by decide +kernel)
  exact ⟨g, p, k, hattach, hkept, hcompile, fun limit ↦ executed_of_selects hself.noDangling
    htables (by decide +kernel) (by decide +kernel) (by decide +kernel) hsub (by decide +kernel)
    hkept hcompile limit⟩

/-- A grammar is built, with a rule that is a choice of two alternatives, and gets a table that
leads to the first one only. The alternatives have no nodes in common and no references. Yet for the
input an instruction is executed that was made for a node of the second one. -/
def Strays (edits : List Edit) (rule : RuleId) (choice selected other : ExprId) (o : Options)
    (input : Array UInt8) : Prop :=
  ∃ h g p k, Edit.applyAll {} edits = some h ∧
    h.attachTable? choice (List.replicate slotCount selected) = some g ∧ g.WellFormed ∧
    g.body? rule = some choice ∧ g.op choice = .choice [selected, other] ∧
    (g.subtree selected).Disjoint (g.subtree other) ∧
    (∀ x ∈ g.subtree selected ++ g.subtree other, ∀ rule, g.op x ≠ .reference rule) ∧
    compile g [rule] o = some (.ok p, k) ∧
    ∃ i ∈ (run 100 p input).executed, ∃ instr, p.code[i]? = some instr ∧
      instr.origin ∈ g.subtree other

/-- Building the grammar, compiling and running shows it. -/
theorem strays_of_check {edits : List Edit} {rule : RuleId} {choice selected other : ExprId}
    {o : Options} {input : Array UInt8} (i : InstrId)
    (hcheck : ((Edit.applyAll {} edits).any fun h ↦
      (h.attachTable? choice (List.replicate slotCount selected)).any fun g ↦
        decide (g.WellFormed ∧ g.body? rule = some choice ∧
          g.op choice = .choice [selected, other] ∧
          (∀ x ∈ g.subtree selected, x ∉ g.subtree other) ∧
          ∀ x ∈ g.subtree selected ++ g.subtree other,
            (g.op x).isTerminal ∨ (g.op x).children ≠ [] ∨ g.op x = .fail) &&
        (compile g [rule] o).any fun result ↦ result.1.toOption.any fun p ↦
          decide (i ∈ (run 100 p input).executed) &&
            (p.code[i]?).any fun instr ↦ decide (instr.origin ∈ g.subtree other)) = true) :
    Strays edits rule choice selected other o input := by
  obtain ⟨h, hh, hcheck⟩ := (Option.any_eq_true _ _).mp hcheck
  obtain ⟨g, hg, hcheck⟩ := (Option.any_eq_true _ _).mp hcheck
  rw [Bool.and_eq_true, decide_eq_true_iff] at hcheck
  obtain ⟨⟨hwf, hbody, hop, hdisjoint, hrule⟩, hcompile⟩ := hcheck
  obtain ⟨p, k, hcompile, hrun⟩ := exists_program _ _ _ _ _ hcompile
  obtain ⟨hexecuted, hinstr⟩ := Bool.and_eq_true_iff.mp hrun
  obtain ⟨instr, hinstr, hmem⟩ := (Option.any_eq_true _ _).mp hinstr
  exact ⟨h, g, p, k, hh, hg, hwf, hbody, hop, fun x hx hx' ↦ hdisjoint x hx hx',
    fun x hx rule ↦ ne_reference (hrule x hx) rule, hcompile, i, of_decide_eq_true hexecuted, instr,
    hinstr, of_decide_eq_true hmem⟩

/-- The choice in the first alternative of `S` was simplified, and the second alternative uses the
result: `S = ('a' / 'b') 'c' / [ab] 'd'`. -/
def recordedOperand : List Edit :=
  [.alloc (.byte 97) .synthetic, .alloc (.byte 98) .synthetic, .alloc (.choice [0, 1]) .synthetic,
    .simplify 2, .alloc (.byte 99) .synthetic, .alloc (.sequence [2, 4]) .synthetic,
    .alloc (.byte 100) .synthetic, .alloc (.sequence [3, 6]) .synthetic,
    .alloc (.choice [5, 7]) .synthetic, .add "S" 8]

/-- The choice in the first alternative of `S` got a table, and the second alternative uses the node
for bytes with which it does not begin: `T = 'a' / 'b'` and `S = ('a' / 'b') 'c' / fail 'd'`. -/
def sharedFailure : List Edit :=
  [.alloc (.byte 97) .synthetic, .alloc (.byte 98) .synthetic, .alloc (.choice [0, 1]) .synthetic,
    .add "T" 2, .attachTables, .alloc (.byte 99) .synthetic, .alloc (.sequence [2, 4]) .synthetic,
    .alloc (.byte 100) .synthetic, .alloc (.sequence [3, 6]) .synthetic,
    .alloc (.choice [5, 7]) .synthetic, .add "S" 8]

/-- That alternatives have no nodes in common is not enough: neither a record nor an entry of a
table may be in another alternative. -/
theorem strays_recordedOperand_and_sharedFailure :
    Strays recordedOperand 0 8 5 7 { specialize := true } #[97, 99] ∧
      Strays sharedFailure 1 8 5 7 {} #[120] :=
  ⟨strays_of_check 1 (by decide +kernel), strays_of_check 2 (by decide +kernel)⟩

end Grammar

end ParsingMachine
