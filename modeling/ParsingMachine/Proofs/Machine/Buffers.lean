import ParsingMachine.Proofs.Machine.Execution
import ParsingMachine.Proofs.Source.Refinement

/-!
# Runs over different buffers

A machine sees its input through the operations of a buffer only, in an order that depends on what
it saw before, and goes back and forth in it. Whatever this order, buffers with the same bytes give
it the same answers: the machine takes the same step over both, so it makes the same run, which ends
alike after the same instructions.

Which buffers have the same bytes is a relation between their states that every operation keeps
(`Buffer.SameBytes`), and a step is made of operations. So the proof has no invariant of its own:
the relation holds before and after a step, and the run is an induction over the limit, with the
executed instructions as an accumulator. Nothing is said of how far the states of the buffers agree
otherwise, and a paged source does change with every access.

A text in memory and the same text read in pages are related in this way if the reader supplies the
text (`Reader.Supplies`), however it cuts its reads and whether it interrupts them. So neither the
size of the cache nor how the reader cuts its reads can be observed by a program. The limit on the
number of instructions is part of the statement: a run that is cut off is cut off in the same place.

## Main statements

* `agree_step`, `agree_runFrom`: machines over buffers with the same bytes take the same steps and
  make the same run.
* `sameBytes_text`: a machine sees neither the name of a text nor the numbers of its lines.
* `exists_runOn_eq_run`: a program runs alike over a text in memory and over any reader of it.
-/

namespace ParsingMachine.Machine

section

variable {σ τ : Type} [Buffer σ] [Buffer τ] {rel : σ → τ → Prop}

/-- Machines over buffers with the same bytes take the same step. -/
theorem agree_step (h : Buffer.SameBytes rel) (p : Program) (s : State) :
    Agree rel (step p s) (step p s) := by
  unfold step
  rcases p.code[s.pc]? with - | instr
  · exact .pure _
  · exact (agree_perform h instr.op instr.next s).bind fun e ↦ .pure _

/-- Machines over buffers with the same bytes make the same run. -/
theorem agree_runFrom (h : Buffer.SameBytes rel) (p : Program) (limit : Nat) (s : State)
    (executed : Array InstrId) :
    Agree rel (runFrom p limit s executed) (runFrom p limit s executed) := by
  induction limit generalizing s executed with
  | zero => exact Agree.pure _
  | succ n ih =>
    intro src src' hsrc
    obtain ⟨hstep, hrel⟩ := agree_step h p s src src' hsrc
    rcases hx : step p s src with ⟨x, a⟩
    rcases hy : step p s src' with ⟨y, b⟩
    rw [hx, hy] at hstep hrel
    obtain rfl : x = y := hstep
    simp only [runFrom, hx, hy]
    cases x with
    | running s' => exact ih s' _ a b hrel
    | halted o => exact ⟨rfl, hrel⟩
    | faulted f => exact ⟨rfl, hrel⟩

/-- A run from the start does not depend on which of two such buffers it is over. -/
theorem runOn_eq_runOn (h : Buffer.SameBytes rel) {src : σ} {src' : τ} (hsrc : rel src src')
    (limit : Nat) (p : Program) : runOn limit p src = runOn limit p src' :=
  (agree_runFrom h p limit (start p) #[] src src' hsrc).1

end

/-! ### Texts in memory and in pages -/

/-- A machine does not see the name of a text and the numbers of its lines. -/
theorem sameBytes_text (text : Array UInt8) :
    Buffer.SameBytes fun s t : Resident ↦ s.text = text ∧ t.text = text where
  length_eq := fun ⟨hs, ht⟩ ↦ congrArg Array.size (hs.trans ht.symm)
  byteAt pos s t h := by
    refine ⟨?_, h⟩
    show s.byteAt pos = t.byteAt pos
    rw [Resident.byteAt, Resident.byteAt, h.1, h.2]
  matchesAt pos bytes s t h := by
    refine ⟨?_, h⟩
    show s.matchesAt pos bytes = t.matchesAt pos bytes
    rw [Resident.matchesAt, Resident.matchesAt, Resident.subbytes, Resident.subbytes, h.1, h.2]
  subbytes start stop s t h := by
    refine ⟨?_, h⟩
    show s.subbytes start stop = t.subbytes start stop
    rw [Resident.subbytes, Resident.subbytes, h.1, h.2]

/-- A program runs alike over a text in memory and over any reader of the text: it ends alike and
executes the same instructions in the same order, whatever the capacity of the cache, and however
the reader cuts or interrupts its reads. -/
theorem exists_runOn_eq_run {r : Reader} {text : Array UInt8} (h : r.Supplies text) (name : String)
    (capacity startLine : Nat) :
    ∃ s, Paged.ofReader name r capacity startLine = .ok s ∧
      ∀ (p : Program) (limit : Nat), runOn limit p s = run limit p text := by
  obtain ⟨s, hs, hreads⟩ :=
    Paged.reads_ofReader_of_samePages h.samePages h.size_eq name capacity startLine
  refine ⟨s, hs, fun p limit ↦ ?_⟩
  have ht : r.text text.size = r.text (r.text text.size).size := by rw [r.size_text]
  calc runOn limit p s
      = runOn limit p ({ name, startLine, text := r.text text.size } : Resident) :=
        runOn_eq_runOn (Paged.simulates_of_samePages h.samePages ht).toSameBytes ⟨rfl, hreads⟩
          limit p
    _ = run limit p text := runOn_eq_runOn (sameBytes_text text) ⟨h.text_eq, rfl⟩ limit p

/-- Reads of one byte each, every other of them interrupted. -/
def haltingScript : Script where
  text := #[0x61, 0x62, newline]
  chunk := some 1
  interrupts := true

theorem exists_runOn_eq_run_haltingScript :
    haltingScript.reader.Supplies haltingScript.text ∧
      ∃ s, Paged.ofReader "halting" haltingScript.reader 0 1 = .ok s ∧
        ∀ (p : Program) (limit : Nat), runOn limit p s = run limit p haltingScript.text :=
  have h := haltingScript.supplies rfl rfl (by decide) (by decide)
  ⟨h, exists_runOn_eq_run h "halting" 0 1⟩

end ParsingMachine.Machine
