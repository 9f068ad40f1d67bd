import ParsingMachine.Program.Listing
import ParsingMachine.Proofs.Compile.WellLinked
import ParsingMachine.Proofs.Program.Dispatch

/-!
# Listings show the control flow

A listing is read line by line: a line has a place, a name at the head of a block, or neither, and
names instructions. What such a reader may rely on is `Program.ListedBy`: every place has one line
under the header of its block, what is named on a line is what the instruction leads to, and a line
has a star exactly when it is the head of a block or is named somewhere.

Labels and references are made apart, labels from the numbered instructions and references from the
text of each operation. They agree because the text of an operation names its branches and nothing
else (`Opcode.mem_refs_pieces`), and because a fallthrough is named on a line of its own exactly
when it counts as a jump (`Code.mem_targets`).

What a reader sees is a line with others above and below it, and what is said of it depends on where
it stands. So there is one lemma that divides a listing around any of its lines
(`Program.WellLinked.listing_cases`), and a description of where the line of an instruction stands
(`Program.Stands`): above it are whole blocks, the header of its own block and the instructions of
the block before it, and below it the jump, if there is one. What has to be shown of lines is read
off from that, one field after the other.

That a line is named and that it has a star are compared by way of jumps. What is named on a line is
where some instruction jumps (`Program.WellLinked.exists_mem_jumps`), and where it jumps is named
and has a star, so each side of the comparison is one lemma about jumps.

The program has to be well linked. Otherwise a place might be in no block or in two, and what is
named might have no line at all. A star on a line that nothing names is not a fault of the listing:
the head of a block is labelled whether or not it is called.

The names of rules come from a grammar that need not be the one that was compiled, as nothing but
the text of headers and calls depends on it.

## Main statements

* `Session.labelled_of_finish`: which instructions of a finished program are labelled.
* `Opcode.mem_refs_pieces`: the text of an operation names its branches.
* `Program.WellLinked.listing_cases`: a line of the listing, with the lines above and below it.
* `Program.WellLinked.exists_mem_jumps`: what a line names is where an instruction jumps.
* `Program.WellLinked.starred_of_mem_jumps`, `named_of_mem_jumps`: and where it jumps has a star and
  is named.
* `Program.WellLinked.listedBy`: the listing of a well linked program with such labels.
* `dump_of_compile`: whatever is compiled, the listing shows the program.
-/

namespace ParsingMachine

variable {p : Program} {names : RuleId → String} {n m : Nat} {i : Instruction} {j : InstrId}

/-! ### Reading lines -/

namespace ListingLine

/-- The place of a line that shows an instruction. -/
def place? : ListingLine → Option Nat
  | instruction place _ _ => some place
  | header _ | jump _ => none

/-- The name on a line that starts a block. -/
def header? : ListingLine → Option String
  | header name => some name
  | instruction _ _ _ | jump _ => none

/-- The instructions named on a line. -/
def refs : ListingLine → List InstrId
  | header _ => []
  | instruction _ _ pieces => Piece.refs pieces
  | jump target => [target]

end ListingLine

/-- What the lines of a listing say about a program. -/
structure Program.ListedBy (p : Program) (names : RuleId → String) (lines : List ListingLine) :
    Prop where
  /-- Every place has one line, in ascending order. -/
  places_eq : lines.filterMap ListingLine.place? = List.range p.size
  /-- The headers above a line are those of the blocks up to the one that holds the place. -/
  headers_eq : ∀ above below n starred pieces,
    lines = above ++ .instruction n starred pieces :: below →
    ∃ before block after, p.blocks.toList = before ++ block :: after ∧
      block.start ≤ n ∧ n < block.stop ∧
      above.filterMap ListingLine.header? = (before ++ [block]).map (names ·.rule)
  /-- A line shows the operation at its place, and names its branches and nothing else. -/
  operation_eq : ∀ n starred pieces, .instruction n starred pieces ∈ lines →
    ∃ i, p.code[n]? = some i ∧ pieces = i.op.pieces names ∧
      ∀ j, j ∈ Piece.refs pieces ↔ j ∈ i.op.branches
  /-- The line below an instruction is a jump exactly when its fallthrough is not the next place. -/
  jump_iff : ∀ above below n starred pieces i,
    lines = above ++ .instruction n starred pieces :: below → p.code[n]? = some i →
    ∀ j, below.head? = some (.jump j) ↔ i.next = some j ∧ j ≠ n + 1
  /-- Jumps stand below instructions. -/
  above_jump : ∀ above below j, lines = above ++ .jump j :: below →
    ∃ n starred pieces, above.getLast? = some (.instruction n starred pieces)
  /-- What a line names has a line with a star. -/
  starred_of_named : ∀ line ∈ lines, ∀ j ∈ line.refs, ∃ pieces, .instruction j true pieces ∈ lines
  /-- A line with a star is the head of a block or is named by a line. -/
  named_of_starred : ∀ n pieces, .instruction n true pieces ∈ lines →
    (∃ block ∈ p.blocks, block.head = n) ∨ ∃ line ∈ lines, n ∈ line.refs
  /-- What leads to a line without a star falls through to it and stands right above it. -/
  entered_from_above : ∀ above below n pieces,
    lines = above ++ .instruction n false pieces :: below →
    ∀ m i, p.code[m]? = some i → n ∈ i.successors →
      i.next = some n ∧ n ∉ i.op.branches ∧
        ∃ starred pieces', above.getLast? = some (.instruction m starred pieces')

/-! ### Labels -/

/-- An instruction is labelled if it is the head of a block or another one jumps there. -/
def Program.Labelled (p : Program) : Prop :=
  ∀ (n : Nat) i, p.code[n]? = some i →
    (i.label = true ↔ (∃ block ∈ p.blocks, block.head = n) ∨
      ∃ (m : Nat) (i' : Instruction), p.code[m]? = some i' ∧ n ∈ i'.jumps m)

/-- Labels go to heads and to what some instruction jumps to. -/
theorem Code.mem_targets {code : Array Instruction} {heads : List InstrId} :
    n ∈ targets code heads ↔
      n ∈ heads ∨ ∃ (m : Nat) (i : Instruction), code[m]? = some i ∧ n ∈ i.jumps m := by
  simp only [targets, List.mem_append, List.mem_flatMap, Array.mem_toList_iff, Prod.exists,
    Array.mem_zipIdx_iff_getElem?]
  exact or_congr_right ⟨fun ⟨i, m, h⟩ ↦ ⟨m, i, h⟩, fun ⟨m, i, h⟩ ↦ ⟨i, m, h⟩⟩

/-- In a finished program instructions are labelled as they should be. -/
theorem Session.labelled_of_finish {s : Session} (hp : s.finish = .ok p) : p.Labelled := by
  obtain ⟨code, -, hcode, hblocks, -⟩ := finish_eq_ok hp
  intro n i hi
  rw [hcode, Code.numbered] at hi
  rw [hcode, Code.numbered, hblocks]
  generalize code.order.filterMap _ = placed at hi ⊢
  rw [Code.getElem?_labelled, Option.map_eq_some_iff] at hi
  obtain ⟨i, hi, rfl⟩ := hi
  rw [List.contains_iff_mem, Code.mem_targets]
  refine or_congr ?_ ?_
  · simp
  · -- a label does not change where an instruction jumps
    simp only [Code.getElem?_labelled, Option.map_eq_some_iff]
    constructor
    · rintro ⟨m, i', hi', hn⟩
      exact ⟨m, _, ⟨i', hi', rfl⟩, hn⟩
    · rintro ⟨m, _, ⟨i', hi', rfl⟩, hn⟩
      exact ⟨m, i', hi', hn⟩

/-! ### The text of operations -/

/-- The text of a jump table names each target of a byte once, then the target for end of input. -/
theorem refs_dispatchPieces (table : List InstrId) :
    Piece.refs (dispatchPieces table) =
      (table.take endSlot).eraseDups ++ table[endSlot]?.toList := by
  have hruns (targets : List InstrId) (written : InstrId → String) :
      Piece.refs (targets.flatMap fun target ↦ [.text (written target), .ref target]) =
        targets := by
    induction targets with
    | nil => rfl
    | cons target targets ih => exact congrArg (target :: ·) ih
  rw [dispatchPieces, Piece.refs, List.filterMap_append, List.filterMap_cons_none rfl]
  refine congrArg₂ (· ++ ·) (hruns _ _) ?_
  cases table[endSlot]? <;> rfl

/-- The text of a full table names its entries. -/
theorem mem_refs_dispatchPieces {table : List InstrId} (htable : table.length = slotCount) :
    j ∈ Piece.refs (dispatchPieces table) ↔ j ∈ table := by
  have hparts : table = table.take endSlot ++ table[endSlot]?.toList :=
    (take_append_endSlot htable).symm
  rw [refs_dispatchPieces, List.mem_append, List.mem_eraseDups, ← List.mem_append, ← hparts]

/-- The text of an operation names its branches and nothing else. -/
theorem Opcode.mem_refs_pieces {op : Opcode}
    (htable : ∀ table, op = .dispatch table → table.length = slotCount) :
    j ∈ Piece.refs (op.pieces names) ↔ j ∈ op.branches := by
  cases op with
  | dispatch table => exact mem_refs_dispatchPieces (htable table rfl)
  | failSkip guarded => cases guarded <;> rfl
  | call rule target => cases target <;> rfl
  | lookup use child onHit onMemoFail => cases child <;> rfl
  | memoize use child => cases child <;> rfl
  | mark m =>
    cases m with
    | new left => cases left <;> rfl
    | _ => rfl
  | isSymbol table lastOnly => cases lastOnly <;> rfl
  | _ => rfl

/-! ### Where a line stands -/

/-- What is found in a concatenation is found in one of its parts. -/
theorem exists_of_flatMap_eq {α β : Type*} {f : α → List β} {xs : List α} {above below : List β}
    {line : β} (h : xs.flatMap f = above ++ line :: below) :
    ∃ before x after upper lower, xs = before ++ x :: after ∧ f x = upper ++ line :: lower ∧
      above = before.flatMap f ++ upper ∧ below = lower ++ after.flatMap f := by
  induction xs generalizing above with
  | nil => simp at h
  | cons x xs ih =>
    have hlater (above : List β) (h : xs.flatMap f = above ++ line :: below) :
        ∃ before y after upper lower, x :: xs = before ++ y :: after ∧
          f y = upper ++ line :: lower ∧ f x ++ above = before.flatMap f ++ upper ∧
          below = lower ++ after.flatMap f := by
      obtain ⟨before, y, after, upper, lower, rfl, hy, rfl, rfl⟩ := ih h
      exact ⟨x :: before, y, after, upper, lower, rfl, hy, by simp, rfl⟩
    rw [List.flatMap_cons] at h
    rcases List.append_eq_append_iff.mp h with ⟨upper, rfl, hrest⟩ | ⟨lower, hx, hrest⟩
    · exact hlater upper hrest
    · cases lower with
      | nil =>
        rw [List.append_nil] at hx
        obtain ⟨before, y, after, upper, lower, hxs, hy, habove, hbelow⟩ := hlater [] hrest.symm
        rw [List.append_nil, hx] at habove
        exact ⟨before, y, after, upper, lower, hxs, hy, habove, hbelow⟩
      | cons _ lower =>
        obtain ⟨rfl, rfl⟩ := List.cons.inj hrest
        exact ⟨[], x, xs, above, lower, rfl, hx, by simp, rfl⟩

namespace Program

/-- The line for a fallthrough that is not the next place. -/
def jumpLines (n : Nat) (i : Instruction) : List ListingLine :=
  (i.next.toList.filter (· != n + 1)).map .jump

theorem jumpLines_cases (n : Nat) (i : Instruction) :
    (∃ j, i.next = some j ∧ j ≠ n + 1 ∧ jumpLines n i = [.jump j]) ∨
      (∀ j, i.next = some j → j = n + 1) ∧ jumpLines n i = [] := by
  unfold jumpLines
  cases i.next with
  | none => exact .inr ⟨fun _ h ↦ (nomatch h), rfl⟩
  | some j =>
    by_cases hj : j = n + 1
    · exact .inr ⟨fun _ h ↦ Option.some.inj h ▸ hj, by simp [hj]⟩
    · exact .inl ⟨j, rfl, hj, by simp [hj]⟩

/-- The lines for a place are the instruction and its jump. -/
theorem instructionLines_eq (hi : p.code[n]? = some i) :
    p.instructionLines names n =
      .instruction n i.label (i.op.pieces names) :: jumpLines n i := by
  rw [instructionLines, hi]
  rfl

/-- A line of the listing, with the lines above and below it. -/
structure Stands (p : Program) (names : RuleId → String) (above below : List ListingLine)
    (n : Nat) (block : Block) (i : Instruction) : Prop where
  /-- The place is in the block. -/
  start_le : block.start ≤ n
  lt_stop : n < block.stop
  code_eq : p.code[n]? = some i
  /-- Above are the blocks before, the header, and the instructions of the block before. -/
  above_eq : ∃ before after, p.blocks.toList = before ++ block :: after ∧
    above = before.flatMap (p.blockLines names) ++ .header (names block.rule) ::
      (List.range' block.start (n - block.start)).flatMap (p.instructionLines names)
  /-- Below is the jump, if there is one, and then no jump. -/
  below_eq : ∃ rest, below = jumpLines n i ++ rest ∧ ∀ j, rest.head? ≠ some (.jump j)

/-- The places of the blocks are those of the program. -/
theorem WellLinked.lt_size_iff {rules : List RuleId} {tracing : Bool}
    (hp : p.WellLinked rules tracing) :
    n < p.size ↔ ∃ block ∈ p.blocks, block.start ≤ n ∧ n < block.stop := by
  rw [← List.mem_range, ← hp.tiles, List.mem_flatMap]
  simp only [Array.mem_toList_iff, List.mem_range'_1]
  refine exists_congr fun block ↦ and_congr_right fun hblock ↦ and_congr_right fun hstart ↦ ?_
  rw [Nat.add_sub_cancel' (hp.start_lt block hblock).le]

/-- The lines for a place are the instruction and at most one jump. -/
theorem instructionLines_cases (hi : p.code[n]? = some i) {upper lower : List ListingLine}
    {line : ListingLine} (h : p.instructionLines names n = upper ++ line :: lower) :
    (line = .instruction n i.label (i.op.pieces names) ∧ upper = [] ∧ lower = jumpLines n i) ∨
      ∃ j, line = .jump j ∧ i.next = some j ∧ j ≠ n + 1 ∧
        upper = [.instruction n i.label (i.op.pieces names)] := by
  rw [instructionLines_eq hi] at h
  cases upper with
  | nil =>
    obtain ⟨rfl, rfl⟩ := List.cons.inj h
    exact .inl ⟨rfl, rfl, rfl⟩
  | cons first upper =>
    obtain ⟨rfl, hjump⟩ := List.cons.inj h
    rcases jumpLines_cases n i with ⟨j, hj, hne, hlines⟩ | ⟨-, hlines⟩
    · obtain ⟨rfl, rfl, rfl⟩ : upper = [] ∧ line = .jump j ∧ lower = [] := by
        simpa [List.cons_eq_append_iff] using hlines.symm.trans hjump
      exact .inr ⟨j, rfl, hj, hne, rfl⟩
    · simp [hlines] at hjump

/-- No jump starts the lines for some places, nor what is below them. -/
theorem head?_ne_jump (ns : List Nat) (after : List Block) (j : InstrId) :
    (ns.flatMap (p.instructionLines names) ++ after.flatMap (p.blockLines names)).head? ≠
      some (.jump j) := by
  intro h
  rw [List.head?_append, List.head?_flatMap, List.head?_flatMap, Option.or_eq_some_iff] at h
  rcases h with h | ⟨-, h⟩
  · obtain ⟨n, -, hn⟩ := List.exists_of_findSome?_eq_some h
    unfold instructionLines at hn
    split at hn <;> cases hn
  · obtain ⟨block, -, hblock⟩ := List.exists_of_findSome?_eq_some h
    cases hblock

/-- A line of the listing is a header, an instruction or the jump below an instruction. -/
theorem WellLinked.listing_cases {rules : List RuleId} {tracing : Bool}
    (hp : p.WellLinked rules tracing) {above below : List ListingLine} {line : ListingLine}
    (h : p.listing names = above ++ line :: below) :
    (∃ name, line = .header name) ∨ ∃ n block i, block ∈ p.blocks ∧
      ((line = .instruction n i.label (i.op.pieces names) ∧ p.Stands names above below n block i) ∨
        ∃ j, line = .jump j ∧ p.code[n]? = some i ∧ i.next = some j ∧ j ≠ n + 1 ∧
          above.getLast? = some (.instruction n i.label (i.op.pieces names))) := by
  obtain ⟨before, block, after, upper, lower, hblocks, hlines, rfl, rfl⟩ := exists_of_flatMap_eq h
  have hblock : block ∈ p.blocks := by
    rw [← Array.mem_toList_iff, hblocks]
    simp
  cases upper with
  | nil => exact .inl ⟨_, (List.cons.inj hlines).1.symm⟩
  | cons header upper =>
    obtain ⟨rfl, hbody⟩ := List.cons.inj hlines
    obtain ⟨ns, n, ns', upper', lower', hns, hline, rfl, rfl⟩ := exists_of_flatMap_eq hbody
    obtain ⟨k, hk, rfl, hrest⟩ := List.range'_eq_append_iff.mp hns
    obtain ⟨rfl, hpos, -⟩ := List.range'_eq_cons_iff.mp hrest.symm
    rw [Nat.mul_one] at hline
    set n := block.start + k with hn
    have hplace : n < p.size := hp.lt_size_iff.mpr ⟨block, hblock, by omega, by omega⟩
    obtain ⟨i, hi⟩ : ∃ i, p.code[n]? = some i := ⟨_, Array.getElem?_eq_getElem hplace⟩
    refine .inr ⟨n, block, i, hblock, ?_⟩
    rcases instructionLines_cases hi hline with ⟨rfl, rfl, rfl⟩ | ⟨j, rfl, hj, hne, rfl⟩
    · refine .inl ⟨rfl, by omega, by omega, hi, ⟨before, after, hblocks, ?_⟩,
        ⟨_, List.append_assoc _ _ _, head?_ne_jump ns' after⟩⟩
      rw [List.append_nil, hn, Nat.add_sub_cancel_left]
    · refine .inr ⟨j, rfl, hi, hj, hne, ?_⟩
      rw [← List.cons_append, ← List.append_assoc, List.getLast?_append]
      rfl

/-! ### What the lines show -/

theorem filterMap_header?_blockLines (names : RuleId → String) (block : Block) (ns : List Nat) :
    (ListingLine.header (names block.rule) ::
      ns.flatMap (p.instructionLines names)).filterMap ListingLine.header? =
        [names block.rule] := by
  simp only [List.filterMap_cons, ListingLine.header?, List.filterMap_flatMap]
  refine congrArg _ (List.flatMap_eq_nil_iff.mpr fun n _ ↦
    List.filterMap_eq_nil_iff.mpr fun line hline ↦ ?_)
  unfold instructionLines at hline
  split at hline
  · cases hline
  · rcases List.mem_cons.mp hline with rfl | hjump
    · rfl
    · obtain ⟨j, -, rfl⟩ := List.mem_map.mp hjump
      rfl

/-- The headers above a line are those of the blocks up to that of the line. -/
theorem Stands.headers_eq {above below : List ListingLine} {block : Block}
    (h : p.Stands names above below n block i) :
    ∃ before after, p.blocks.toList = before ++ block :: after ∧
      above.filterMap ListingLine.header? = (before ++ [block]).map (names ·.rule) := by
  obtain ⟨before, after, hblocks, rfl⟩ := h.above_eq
  refine ⟨before, after, hblocks, ?_⟩
  rw [List.filterMap_append, List.filterMap_flatMap, filterMap_header?_blockLines, List.map_append]
  refine congrArg (· ++ _) ?_
  simp only [blockLines, filterMap_header?_blockLines]
  exact List.flatMap_pure_eq_map _ _

/-- The line below an instruction is a jump exactly when its fallthrough is not the next place. -/
theorem Stands.jump_iff {above below : List ListingLine} {block : Block}
    (h : p.Stands names above below n block i) (j : InstrId) :
    below.head? = some (.jump j) ↔ i.next = some j ∧ j ≠ n + 1 := by
  obtain ⟨rest, rfl, hrest⟩ := h.below_eq
  rcases jumpLines_cases n i with ⟨k, hk, hne, hlines⟩ | ⟨hnext, hlines⟩
  · rw [hlines, List.cons_append, List.head?_cons, hk]
    constructor
    · rintro ⟨⟩
      exact ⟨rfl, hne⟩
    · rintro ⟨⟨⟩, -⟩
      rfl
  · rw [hlines, List.nil_append]
    exact iff_of_false (hrest j) fun ⟨hj, hne⟩ ↦ hne (hnext j hj)

/-- An instruction that falls through to the next place stands right above it. -/
theorem Stands.getLast?_above {above below : List ListingLine} {block : Block} {i' : Instruction}
    (h : p.Stands names above below (m + 1) block i) (hstart : block.start ≤ m)
    (hi' : p.code[m]? = some i') (hnext : i'.next = some (m + 1)) :
    above.getLast? = some (.instruction m i'.label (i'.op.pieces names)) := by
  obtain ⟨before, after, -, rfl⟩ := h.above_eq
  have hplaces : List.range' block.start (m + 1 - block.start) =
      List.range' block.start (m - block.start) ++ [m] := by
    rw [Nat.succ_sub hstart, List.range'_1_concat, Nat.add_sub_cancel' hstart]
  have hlines : jumpLines m i' = [] := by
    rw [jumpLines, hnext]
    simp
  rw [hplaces, List.flatMap_append, List.flatMap_singleton, instructionLines_eq hi', hlines,
    ← List.cons_append, ← List.append_assoc, List.getLast?_concat]

/-- Every place has one line, in ascending order. -/
theorem WellLinked.places_listing {rules : List RuleId} {tracing : Bool}
    (hp : p.WellLinked rules tracing) (names : RuleId → String) :
    (p.listing names).filterMap ListingLine.place? = List.range p.size := by
  rw [listing, List.filterMap_flatMap, ← hp.tiles]
  refine List.flatMap_congr fun block hblock ↦ ?_
  rw [blockLines, List.filterMap_cons_none rfl, List.filterMap_flatMap]
  have hplace (n : Nat) (hn : n ∈ List.range' block.start (block.stop - block.start)) :
      (p.instructionLines names n).filterMap ListingLine.place? = [n] := by
    rw [List.mem_range'_1] at hn
    have hlt : n < p.size := hp.lt_size_iff.mpr
      ⟨block, Array.mem_toList_iff.mp hblock, hn.1, by omega⟩
    obtain ⟨i, hi⟩ : ∃ i, p.code[n]? = some i := ⟨_, Array.getElem?_eq_getElem hlt⟩
    rw [instructionLines_eq hi, List.filterMap_cons, jumpLines]
    simp [ListingLine.place?]
  rw [List.flatMap_congr hplace, List.flatMap_singleton']

/-- Every line for a place is a line of the listing. -/
theorem WellLinked.mem_listing {rules : List RuleId} {tracing : Bool}
    (hp : p.WellLinked rules tracing) (hi : p.code[n]? = some i) {line : ListingLine}
    (hline : line ∈ p.instructionLines names n) : line ∈ p.listing names := by
  obtain ⟨block, hblock, hstart, hstop⟩ :=
    hp.lt_size_iff.mp (Array.getElem?_eq_some_iff.mp hi).1
  refine List.mem_flatMap.mpr ⟨block, Array.mem_toList_iff.mpr hblock,
    List.mem_cons_of_mem _ (List.mem_flatMap.mpr ⟨n, ?_, hline⟩)⟩
  rw [List.mem_range'_1]
  omega

/-- What an instruction leads to is in the program. -/
theorem WellLinked.lt_size_of_mem_successors {rules : List RuleId} {tracing : Bool}
    (hp : p.WellLinked rules tracing) (hi : p.code[n]? = some i) (hj : j ∈ i.successors) :
    j < p.size := by
  obtain ⟨block, hblock, hstart, hstop⟩ :=
    hp.lt_size_iff.mp (Array.getElem?_eq_some_iff.mp hi).1
  rcases List.mem_append.mp hj with hj | hj
  · have hwithin := hp.next_within block hblock n i hstart hstop hi j (Option.mem_toList.mp hj)
    exact hp.lt_size_iff.mpr ⟨block, hblock, hwithin⟩
  · by_cases hcall : ∃ rule target, i.op = .call rule target
    · obtain ⟨rule, target, hop⟩ := hcall
      obtain ⟨callee, hcallee, rfl⟩ := hp.call_eq n i rule target hi hop
      have hmem : callee ∈ p.blocks := Array.mem_of_find?_eq_some hcallee
      obtain rfl : j = callee.head := by simpa [hop, Opcode.branches] using hj
      exact hp.lt_size_iff.mpr ⟨callee, hmem, (hp.head_eq callee hmem).ge,
        (hp.head_eq callee hmem).trans_lt (hp.start_lt callee hmem)⟩
    · have hwithin := hp.references_within block hblock n i hstart hstop hi
        (fun rule target hop ↦ hcall ⟨rule, target, hop⟩) j (List.mem_append_left _ hj)
      exact hp.lt_size_iff.mpr ⟨block, hblock, hwithin⟩

theorem WellLinked.mem_refs_pieces {rules : List RuleId} {tracing : Bool}
    (hp : p.WellLinked rules tracing) (hi : p.code[n]? = some i) :
    j ∈ Piece.refs (i.op.pieces names) ↔ j ∈ i.op.branches :=
  Opcode.mem_refs_pieces fun table hop ↦ hp.length_table n i table hi hop

/-- The line of an instruction has its place in a block. -/
theorem WellLinked.exists_stands {rules : List RuleId} {tracing : Bool}
    (hp : p.WellLinked rules tracing) {above below : List ListingLine} {starred : Bool}
    {pieces : List Piece} (h : p.listing names = above ++ .instruction n starred pieces :: below) :
    ∃ block ∈ p.blocks, ∃ i, starred = i.label ∧ pieces = i.op.pieces names ∧
      p.Stands names above below n block i := by
  rcases hp.listing_cases h with ⟨_, hline⟩ | ⟨n, block, i, hblock, ⟨hline, hstands⟩ | hjump⟩
  · cases hline
  · cases hline
    exact ⟨block, hblock, i, rfl, rfl, hstands⟩
  · obtain ⟨j, hline, -⟩ := hjump
    cases hline

/-- The line of an instruction shows the instruction at its place. -/
theorem WellLinked.exists_of_mem_listing {rules : List RuleId} {tracing : Bool}
    (hp : p.WellLinked rules tracing) {starred : Bool} {pieces : List Piece}
    (h : .instruction n starred pieces ∈ p.listing names) :
    ∃ i, p.code[n]? = some i ∧ starred = i.label ∧ pieces = i.op.pieces names := by
  obtain ⟨above, below, h⟩ := List.append_of_mem h
  obtain ⟨block, -, i, hstarred, hpieces, hstands⟩ := hp.exists_stands h
  exact ⟨i, hstands.code_eq, hstarred, hpieces⟩

/-- Every instruction has its line. -/
theorem WellLinked.instruction_mem_listing {rules : List RuleId} {tracing : Bool}
    (hp : p.WellLinked rules tracing) (hi : p.code[n]? = some i) :
    .instruction n i.label (i.op.pieces names) ∈ p.listing names :=
  hp.mem_listing hi (by rw [instructionLines_eq hi]; exact List.mem_cons_self)

/-- Where an instruction jumps there is a line with a star. -/
theorem WellLinked.starred_of_mem_jumps {rules : List RuleId} {tracing : Bool}
    (hp : p.WellLinked rules tracing) (hlabel : p.Labelled) (hi : p.code[n]? = some i)
    (hj : j ∈ i.jumps n) : ∃ pieces, .instruction j true pieces ∈ p.listing names := by
  have hsuccessor : j ∈ i.successors := by
    rcases List.mem_append.mp hj with hj | hj
    · exact List.mem_append_left _ (List.mem_of_mem_filter hj)
    · exact List.mem_append_right _ hj
  have hi' := Array.getElem?_eq_getElem (hp.lt_size_of_mem_successors hi hsuccessor)
  have hline : .instruction j _ _ ∈ p.listing names := hp.instruction_mem_listing hi'
  rw [(hlabel j _ hi').mpr (.inr ⟨n, i, hi, hj⟩)] at hline
  exact ⟨_, hline⟩

/-- What a line names is where an instruction jumps. -/
theorem WellLinked.exists_mem_jumps {rules : List RuleId} {tracing : Bool}
    (hp : p.WellLinked rules tracing) {line : ListingLine} (hline : line ∈ p.listing names)
    (hj : j ∈ line.refs) : ∃ (n : Nat) (i : Instruction), p.code[n]? = some i ∧ j ∈ i.jumps n := by
  obtain ⟨above, below, h⟩ := List.append_of_mem hline
  rcases hp.listing_cases h with ⟨_, rfl⟩ | ⟨n, block, i, -, ⟨rfl, hstands⟩ | hjump⟩
  · cases hj
  · exact ⟨n, i, hstands.code_eq,
      List.mem_append_right _ ((hp.mem_refs_pieces hstands.code_eq).mp hj)⟩
  · obtain ⟨k, rfl, hi, hk, hne, -⟩ := hjump
    obtain rfl := List.mem_singleton.mp hj
    exact ⟨n, i, hi, List.mem_append_left _ (by simp [hk, hne])⟩

/-- Where an instruction jumps is named on one of its lines. -/
theorem WellLinked.named_of_mem_jumps {rules : List RuleId} {tracing : Bool}
    (hp : p.WellLinked rules tracing) (hi : p.code[n]? = some i) (hj : j ∈ i.jumps n) :
    ∃ line ∈ p.listing names, j ∈ line.refs := by
  rcases List.mem_append.mp hj with hj | hj
  · refine ⟨.jump j, hp.mem_listing hi ?_, List.mem_singleton_self _⟩
    rw [instructionLines_eq hi]
    exact List.mem_cons_of_mem _ (List.mem_map_of_mem hj)
  · exact ⟨_, hp.instruction_mem_listing hi, (hp.mem_refs_pieces hi).mpr hj⟩

/-- What leads to an instruction without a label falls through to it from the place before. -/
theorem Labelled.next_eq_of_mem_successors (hlabel : p.Labelled) (hi : p.code[n]? = some i)
    (hunlabelled : i.label = false) {i' : Instruction} (hi' : p.code[m]? = some i')
    (hn : n ∈ i'.successors) : i'.next = some n ∧ n ∉ i'.op.branches ∧ n = m + 1 := by
  have hjumps (hn : n ∈ i'.jumps m) : False :=
    Bool.false_ne_true (hunlabelled.symm.trans ((hlabel n i hi).mpr (.inr ⟨m, i', hi', hn⟩)))
  have hbranch : n ∉ i'.op.branches := fun hbranch ↦ hjumps (List.mem_append_right _ hbranch)
  have hnext : i'.next = some n :=
    Option.mem_toList.mp ((List.mem_append.mp hn).resolve_right hbranch)
  refine ⟨hnext, hbranch, ?_⟩
  by_contra hne
  exact hjumps (List.mem_append_left _ (by simp [hnext, hne]))

/-- The lines of a well linked program whose instructions are labelled as they should be. -/
theorem WellLinked.listedBy {rules : List RuleId} {tracing : Bool}
    (hp : p.WellLinked rules tracing) (hlabel : p.Labelled) (names : RuleId → String) :
    p.ListedBy names (p.listing names) := by
  constructor
  case places_eq => exact hp.places_listing names
  case headers_eq =>
    intro above below n starred pieces h
    obtain ⟨block, -, i, -, -, hstands⟩ := hp.exists_stands h
    obtain ⟨before, after, hblocks, hheaders⟩ := hstands.headers_eq
    exact ⟨before, block, after, hblocks, hstands.start_le, hstands.lt_stop, hheaders⟩
  case operation_eq =>
    intro n starred pieces h
    obtain ⟨i, hi, -, rfl⟩ := hp.exists_of_mem_listing h
    exact ⟨i, hi, rfl, fun j ↦ hp.mem_refs_pieces hi⟩
  case jump_iff =>
    intro above below n starred pieces i h hi j
    obtain ⟨block, -, i', -, -, hstands⟩ := hp.exists_stands h
    cases hi.symm.trans hstands.code_eq
    exact hstands.jump_iff j
  case above_jump =>
    intro above below j h
    rcases hp.listing_cases h with ⟨_, hline⟩ | ⟨n, block, i, -, ⟨hline, -⟩ | hjump⟩
    · cases hline
    · cases hline
    · obtain ⟨-, -, -, -, -, habove⟩ := hjump
      exact ⟨n, i.label, _, habove⟩
  case starred_of_named =>
    intro line hline j hj
    obtain ⟨n, i, hi, hj⟩ := hp.exists_mem_jumps hline hj
    exact hp.starred_of_mem_jumps hlabel hi hj
  case named_of_starred =>
    intro n pieces h
    obtain ⟨i, hi, hstarred, -⟩ := hp.exists_of_mem_listing h
    exact ((hlabel n i hi).mp hstarred.symm).imp_right fun ⟨m, i', hi', hn⟩ ↦
      hp.named_of_mem_jumps hi' hn
  case entered_from_above =>
    intro above below n pieces h m i hi hn
    obtain ⟨block, hblock, i', hstarred, -, hstands⟩ := hp.exists_stands h
    obtain ⟨hnext, hbranch, rfl⟩ :=
      hlabel.next_eq_of_mem_successors hstands.code_eq hstarred.symm hi hn
    -- the place is not the head of its block, so the place before is in the block as well
    have hhead : block.start ≠ m + 1 := fun heq ↦ Bool.false_ne_true <| hstarred.trans <|
      (hlabel _ i' hstands.code_eq).mpr <|
        .inl ⟨block, hblock, (hp.head_eq block hblock).trans heq⟩
    have hstart : block.start ≤ m := Nat.le_of_lt_succ (lt_of_le_of_ne hstands.start_le hhead)
    exact ⟨hnext, hbranch, i.label, _, hstands.getLast?_above hstart hi hnext⟩

end Program

/-- Whatever is compiled, the listing shows the program. -/
theorem dump_of_compile {g k : Grammar} (hg : g.FullTables) {depth : Nat} {rules : List RuleId}
    {o : Options} (hcompile : compileWithin depth g rules o = some (.ok p, k)) (named : Grammar) :
    ∃ lines, p.dump named = String.join (lines.map fun line ↦ line.render ++ "\n") ∧
      p.ListedBy named.ruleName lines := by
  obtain ⟨s, Γ, hlaid, hfinish, -, hrules⟩ := hg.exists_laid hcompile
  exact ⟨p.listing named.ruleName, rfl,
    (hlaid.wellLinked hfinish hrules).listedBy (Session.labelled_of_finish hfinish) _⟩

theorem dump_of_compile_symbolAgain : ∃ p k,
    compileWithin 20 (Grammar.attachTables symbolAgain).2 [0, 1, 0]
      { packrat := true, tracing := true, specialize := true } = some (.ok p, k) ∧
    ∃ lines, p.dump k = String.join (lines.map fun line ↦ line.render ++ "\n") ∧
      p.ListedBy k.ruleName lines := by
  have hfull : (Grammar.attachTables symbolAgain).2.FullTables :=
    Grammar.keeps_attachTables Grammar.lasting_fullTables _
      (Grammar.fullTables_of_tables_empty rfl)
  obtain ⟨p, k, hcompile, -⟩ := Grammar.exists_program 20 (Grammar.attachTables symbolAgain).2
    [0, 1, 0] { packrat := true, tracing := true, specialize := true } (fun _ ↦ true)
    (by decide +kernel)
  exact ⟨p, k, hcompile, dump_of_compile hfull hcompile k⟩

end ParsingMachine
