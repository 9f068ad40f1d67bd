import ParsingMachine.Proofs.Compile.Layout

/-!
# Placement lists what can be reached

Heads are placed one after the other over one arena, which may have loops and shared tails. Each
placement comes to an end, and what has been placed is what the heads so far lead to, each
instruction once (`Code.Placed`).

That an instruction placed before cuts the search is no loss: what is placed is closed under what
instructions lead to, so all that lies behind the cut has been placed too. The closure is not a
field of the invariant, since it follows from the order being exactly what can be reached.

The arena is arbitrary. Its instructions need not have been made by an encoder, and they may lead to
places that do not exist, which are left out because nothing is found there.

One placement is described apart from the sequence of them (`Code.Places`). It ends, leaves the
arena as it is and only adds to the order; and an instruction that it places is followed by the one
that it falls through to, unless that has been placed already, no later than the instruction itself.
So a fallthrough that is not the next instruction goes back, and never forward over others.

Both are read off the search that placement is an instance of. Its rounds end with the order
(`Graph.rounds_explore`), and its results are the nodes that can be reached and were not found
before.

## Main statements

* `places_place`: what placing a head does to any code.
* `Placed.place`: placing another head adds exactly what it leads to.
* `placed_foldl`: after any number of placements the order lists what the heads lead to.
* `placed_and_places_foldl_place`: both, for every arena and every list of heads.
-/

namespace ParsingMachine.Code

open Relation

variable {c : Code} {heads : List InstrId} {head i j : InstrId}

/-- An instruction leads to another one by falling through, or by a branch or an entry of its jump
table. -/
def Flows (c : Code) (i j : InstrId) : Prop :=
  ∃ instr, c.instrs[i]? = some instr ∧ (instr.next = some j ∨ j ∈ instr.op.branches)

/-- An instruction leads to what the search calls its successors. -/
theorem flows_iff : c.Flows i j ↔ j ∈ c.successors i := by
  unfold Flows successors
  cases c.instrs[i]? with
  | none => simp
  | some instr => simp [Instruction.successors]

/-! ### One placement -/

/-- What placing a head does. -/
structure Places (c : Code) (head : InstrId) (c' : Code) : Prop where
  /-- The search from the head comes to its end with the new order. -/
  ends : ReflTransGen (Graph.Round c.successors) ([head], c.order) ([], c'.order)
  /-- The arena stays. -/
  instrs_eq : c'.instrs = c.instrs
  /-- The order is only added to. -/
  append : ∃ added, c'.order = c.order ++ added
  /-- What a newly placed instruction falls through to comes next, or no later than itself. -/
  follows : ∀ k, c.order.size ≤ k → ∀ i instr j, c'.order[k]? = some i →
    c.instrs[i]? = some instr → instr.next = some j →
    c'.order[k + 1]? = some j ∨ ∃ m ≤ k, c'.order[m]? = some j

/-- Placing a head does what it should, whatever was placed before. -/
theorem places_place (c : Code) (head : InstrId) : c.Places head (c.place head) where
  ends := Graph.rounds_explore Session.successors_of_size_le [head] c.order
  instrs_eq := rfl
  append := (Session.explores_place c head).append
  follows k hk i instr j hi hinstr hj := by
    have hsuccessors : c.successors i = j :: instr.op.branches := by
      simp only [successors, hinstr, Instruction.successors, hj, Option.toList_some,
        List.singleton_append]
    obtain ⟨m, hm, hget⟩ := Graph.follows_explore Session.successors_of_size_le hk hi hsuccessors
    rcases Nat.le_succ_iff.mp hm with hm | rfl
    · exact .inr ⟨m, hm, hget⟩
    · exact .inl hget

/-! ### A sequence of placements -/

/-- The order lists what the heads lead to, each instruction once. -/
structure Placed (c : Code) (heads : List InstrId) : Prop where
  /-- Exactly what can be reached is placed. -/
  mem_iff : ∀ i, i ∈ c.order ↔ ∃ head ∈ heads, ReflTransGen c.Flows head i
  /-- Nothing is placed twice. -/
  nodup : c.order.toList.Nodup

theorem Placed.start (instrs : Array Instruction) : Placed ⟨instrs, #[]⟩ [] :=
  ⟨fun i ↦ by simp, List.nodup_nil⟩

/-- What is placed is closed under what instructions lead to. -/
theorem Placed.closed (h : c.Placed heads) (hi : i ∈ c.order) (hj : j ∈ c.successors i) :
    j ∈ c.order := by
  obtain ⟨head, hhead, hreach⟩ := (h.mem_iff i).mp hi
  exact (h.mem_iff j).mpr ⟨head, hhead, hreach.tail (flows_iff.mpr hj)⟩

/-- Placing another head adds what it leads to. -/
theorem Placed.place (h : c.Placed heads) (head : InstrId) :
    (c.place head).Placed (heads ++ [head]) := by
  have hplace := Session.explores_place c head
  refine ⟨fun i ↦ ⟨fun hi ↦ ?_, ?_⟩, hplace.nodup h.nodup⟩
  · refine hplace.invariant (fun i ↦ ∃ head' ∈ heads ++ [head], ReflTransGen c.Flows head' i)
      (fun i hi ↦ ?_) (fun i hi ↦ ?_) (fun i hi j hj ↦ ?_) i hi
    · obtain ⟨head', hhead', hreach⟩ := (h.mem_iff i).mp hi
      exact ⟨head', List.mem_append_left _ hhead', hreach⟩
    · exact ⟨i, List.mem_append_right _ hi, .refl⟩
    · obtain ⟨head', hhead', hreach⟩ := hi
      exact ⟨head', hhead', hreach.tail (flows_iff.mpr hj)⟩
  · rintro ⟨head', hhead', hreach⟩
    induction hreach with
    | refl =>
      rcases List.mem_append.mp hhead' with hold | hnew
      · exact hplace.mem_of_mem ((h.mem_iff head').mpr ⟨head', hold, .refl⟩)
      · exact hplace.mem head' hnew
    | @tail i j _ hj ih =>
      have hj' : j ∈ c.successors i := flows_iff.mp hj
      -- behind an instruction that was placed before, everything was placed before
      rcases hplace.closed i ih with hold | hnew
      · exact hplace.mem_of_mem (h.closed hold hj')
      · exact hnew j hj'

/-- By induction on the heads, from the last: the arena stays and the order lists what they lead
to. -/
theorem placed_foldl (instrs : Array Instruction) (heads : List InstrId) :
    (heads.foldl Code.place ⟨instrs, #[]⟩).instrs = instrs ∧
      (heads.foldl Code.place ⟨instrs, #[]⟩).Placed heads := by
  induction heads using List.reverseRecOn with
  | nil => exact ⟨rfl, .start instrs⟩
  | append_singleton heads head ih =>
    obtain ⟨hinstrs, hplaced⟩ := ih
    rw [List.foldl_append]
    exact ⟨(places_place _ head).instrs_eq.trans hinstrs, hplaced.place head⟩

/-- After any heads have been placed over any arena, the order lists what they lead to, and placing
another head ends, adds to the order and puts fallthroughs next to each other or back. -/
theorem placed_and_places_foldl_place (instrs : Array Instruction) (heads : List InstrId) :
    let c := heads.foldl Code.place ⟨instrs, #[]⟩
    c.instrs = instrs ∧ c.Placed heads ∧ ∀ head, c.Places head (c.place head) :=
  ⟨(placed_foldl instrs heads).1, (placed_foldl instrs heads).2, places_place _⟩

end ParsingMachine.Code
