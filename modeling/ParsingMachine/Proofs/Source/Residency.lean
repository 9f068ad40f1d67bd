import ParsingMachine.Proofs.Source.Agreement
import ParsingMachine.Proofs.Source.Pages

/-!
# The resident pages of a paged source are a queue

A paged source keeps its resident pages in two containers, the queue of their indices and the map of
their buffers, and in a slot of its own when it has no capacity. `Paged.Queued` says that these
agree: no page is queued twice, no more are queued than there is room for, there is a buffer for
exactly the pages of the queue, and every buffer holds a reading of its own page.

Whatever is called, the state moves by accesses to pages and by counting lines (`Paged.Run`). An
access to a resident page changes nothing; any other page is put behind the others, of which the
oldest is dropped when there is no room (`Paged.enqueue`). Counting lines changes no residency
(`Paged.linesBefore_snd`). So the resident pages depend on the accesses only, in their order
(`Paged.Run.residentPages_eq`).

A page is read into the buffer of another one, or into one that serves for counting only. All bytes
of a buffer are replaced, so nothing is left of what it held before (`Paged.readPage_eq`).

Nothing is assumed of the reader. It may answer differently each time and fail as it likes: a buffer
holds what the page was when it was read, and the attempt at which that was is some number
(`Reader.reading`). What an access leaves is described exactly, with the bytes just read and all
other buffers as they were (`Paged.Enqueued`).

The functions are computations, so each has an equation for what it does to a state, up to the line
index and the number of attempts, which matter for no page. From these equations come the two cases
of an access, one lemma for each and each container, and the invariant is kept because a page that
is not resident is in neither of them.

Which pages an operation accesses is given by its arguments (`Paged.pagesOf`). That every sequence
of calls is a run needs less: a call is made of such operations, and this is a relation between a
state and itself that all of them keep (`Paged.simulates_run`).

## Main statements

* `Queued.page_of_mem`, `Queued.page_of_not_mem`: what an access to a page does.
* `Queued.residentPages_page`: an access treats the resident pages as a queue.
* `Run.residentPages_eq`: the resident pages depend on the accesses only.
* `exists_run_answers`: whatever is called, the state moves by accesses and by counting lines.
* `fifo_of_ofReader`: what holds in every state that calls can lead to.
-/

namespace ParsingMachine.Paged

variable {r : Reader} {capacity index i j : Nat} {buffer page' p : Page} {s t u : Paged}
  {accessed accessed' : List Nat}

/-! ### Sequencing -/

/-- Reading the state first. -/
theorem get_bind_run {α : Type} (f : Paged → StateM Paged α) (s : Paged) :
    (get >>= f : StateM Paged α) s = f s s :=
  rfl

theorem modify_run (f : Paged → Paged) (s : Paged) : (modify f : StateM Paged Unit) s = ((), f s) :=
  rfl

theorem bind_run {α β : Type} (m : StateM Paged α) (f : α → StateM Paged β) (s : Paged) :
    (m >>= f) s = f (m s).1 (m s).2 :=
  rfl

/-! ### Buffers -/

theorem size_zeroPage : zeroPage.size = pageSize :=
  Array.size_replicate

/-- Nothing is left of what a buffer held before. -/
theorem overwritten_eq (h : buffer.size = page'.size) : overwritten buffer page' = page' := by
  apply Array.ext
  · simp [overwritten, h]
  · intro i _ hi
    simp [overwritten, hi]

/-- The page that is read is the same whatever buffer it is read into. -/
theorem readPage_eq (index : Nat) (hbuffer : buffer.size = pageSize) (s : Paged) :
    readPage index buffer s = (s.reader.reading index s.attempt,
      { s with attempt := (s.reader.readAt (index * pageSize) pageSize s.attempt).2 }) :=
  congrArg (·, _) (overwritten_eq (hbuffer.trans (s.reader.size_reading index s.attempt).symm))

/-- Recording a line count changes the line index only. -/
theorem recordLineStart_eq (index : Nat) (previous : Page) (s : Paged) :
    ∃ lines, recordLineStart index previous s = ((), { s with lines }) := by
  rw [recordLineStart, modify_run]
  split
  · exact ⟨s.lines, rfl⟩
  · split
    · exact ⟨_, rfl⟩
    · exact ⟨s.lines, rfl⟩

/-! ### Counting lines -/

/-- The page with an index, resident or read for this purpose only, and the buffer for the next page
that is read so. -/
def peek (index : Nat) (scratch : Page) : StateM Paged (Page × Page) := do
  match (← get).resident? index with
  | some page => pure (page, scratch)
  | none => do
    let page ← readPage index scratch
    pure (page, page)

theorem fillLines_succ (n index : Nat) (scratch : Page) (s : Paged) :
    fillLines (n + 1) index scratch s =
      let peeked := peek index scratch s
      fillLines n (index + 1) peeked.1.2 { peeked.2 with
        lines := peeked.2.lines.setIfInBounds (index + 1)
          (some ((s.linesBefore? index).getD 0 + newlines peeked.1.1)) } := by
  rcases hpage : s.resident? index with - | page
  · simp only [fillLines, peek, get_bind_run, hpage]
    rfl
  · simp only [fillLines, peek, get_bind_run, hpage]
    rfl

/-- It costs attempts and changes nothing else. -/
theorem peek_snd (index : Nat) (scratch : Page) (s : Paged) :
    ∃ attempt, (peek index scratch s).2 = { s with attempt } := by
  rcases hpage : s.resident? index with - | page
  · simp only [peek, get_bind_run, hpage]
    exact ⟨_, rfl⟩
  · simp only [peek, get_bind_run, hpage]
    exact ⟨s.attempt, rfl⟩

/-- Filling the line index costs attempts and changes nothing but the index. -/
theorem fillLines_snd (n index : Nat) (scratch : Page) (s : Paged) :
    ∃ lines attempt, (fillLines n index scratch s).2 = { s with lines, attempt } := by
  induction n generalizing index scratch s with
  | zero => exact ⟨s.lines, s.attempt, rfl⟩
  | succ n ih =>
    obtain ⟨attempt, hattempt⟩ := peek_snd index scratch s
    obtain ⟨lines, attempt', hrest⟩ := ih (index + 1) (peek index scratch s).1.2
      { (peek index scratch s).2 with
        lines := (peek index scratch s).2.lines.setIfInBounds (index + 1)
          (some ((s.linesBefore? index).getD 0 + newlines (peek index scratch s).1.1)) }
    rw [fillLines_succ]
    exact ⟨lines, attempt', by rw [hrest, hattempt]⟩

/-- Counting lines changes no residency: what changes is the line index and the number of attempts
made. -/
theorem linesBefore_snd (index : Nat) (s : Paged) :
    ∃ lines attempt, (linesBefore index s).2 = { s with lines, attempt } := by
  rcases hknown : s.linesBefore? index with - | count
  · simp only [linesBefore, get_bind_run, hknown]
    exact fillLines_snd _ _ _ s
  · simp only [linesBefore, get_bind_run, hknown]
    exact ⟨s.lines, s.attempt, rfl⟩

/-! ### Access without capacity -/

theorem page_of_capacity_eq (h : s.capacity = 0) (index : Nat) :
    page index s = (((admitSingle index s).2.single.map Prod.snd).getD zeroPage,
      (admitSingle index s).2) := by
  rw [page, get_bind_run, if_pos h]
  rfl

/-- The page is read into the slot. -/
theorem load_eq (index : Nat) (hbuffer : buffer.size = pageSize) (s : Paged) :
    ∃ attempt, admitSingle.load index buffer s =
      ((), { s with attempt, single := some (index, s.reader.reading index s.attempt) }) := by
  show ∃ attempt, ((), { (readPage index buffer s).2 with
    single := some (index, (readPage index buffer s).1) }) = _
  rw [readPage_eq index hbuffer]
  exact ⟨_, rfl⟩

/-- Without capacity, an access to the page kept changes nothing. -/
theorem page_of_single_eq (hcapacity : s.capacity = 0) (hsingle : s.single = some (index, buffer)) :
    page index s = (buffer, s) := by
  have hadmit : admitSingle index s = ((), s) := by
    rw [admitSingle, get_bind_run, hsingle]
    exact congrFun (if_neg (not_not_intro rfl)) s
  rw [page_of_capacity_eq hcapacity, hadmit, hsingle, Option.map_some, Option.getD_some]

/-- Another page than the one in the slot takes its place. -/
theorem admitSingle_eq_of_ne (hne : s.single.map Prod.fst ≠ some index)
    (hsize : ∀ entry, s.single = some entry → entry.2.size = pageSize) :
    ∃ lines attempt, admitSingle index s =
      ((), { s with
        lines, attempt, single := some (index, s.reader.reading index s.attempt) }) := by
  rw [admitSingle, get_bind_run]
  rcases hsingle : s.single with - | ⟨resident, buffer⟩
  · dsimp only
    obtain ⟨attempt, hload⟩ := load_eq index size_zeroPage s
    rw [hload]
    exact ⟨s.lines, attempt, rfl⟩
  · have hresident : resident ≠ index := by simpa [hsingle] using hne
    have hbuffer := hsize _ hsingle
    simp only [hresident, ne_eq, not_false_iff, if_true]
    split
    · obtain ⟨lines, hlines⟩ := recordLineStart_eq index buffer s
      obtain ⟨attempt, hload⟩ := load_eq index hbuffer { s with lines }
      rw [bind_run, hlines, hload]
      exact ⟨lines, attempt, rfl⟩
    · obtain ⟨attempt, hload⟩ := load_eq index hbuffer s
      rw [hload]
      exact ⟨s.lines, attempt, rfl⟩

/-- Without capacity, the page kept is replaced by the page accessed. -/
theorem page_of_single_ne (hcapacity : s.capacity = 0) (hne : s.single.map Prod.fst ≠ some index)
    (hsize : ∀ entry, s.single = some entry → entry.2.size = pageSize) :
    ∃ lines attempt, page index s = (s.reader.reading index s.attempt,
      { s with lines, attempt, single := some (index, s.reader.reading index s.attempt) }) := by
  obtain ⟨lines, attempt, hadmit⟩ := admitSingle_eq_of_ne hne hsize
  refine ⟨lines, attempt, ?_⟩
  rw [page_of_capacity_eq hcapacity, hadmit, Option.map_some, Option.getD_some]

/-! ### Access with room for several pages -/

theorem page_of_capacity_ne (h : s.capacity ≠ 0) (index : Nat) :
    page index s = (((admitQueued index s).2.pages.lookup index).getD zeroPage,
      (admitQueued index s).2) := by
  rw [page, get_bind_run, if_neg h]
  rfl

/-- With room for several pages, an access to one of them changes nothing. -/
theorem page_of_lookup_eq (hcapacity : s.capacity ≠ 0)
    (hlookup : s.pages.lookup index = some buffer) : page index s = (buffer, s) := by
  have hadmit : admitQueued index s = ((), s) := by
    unfold admitQueued
    rw [get_bind_run, hlookup]
    rfl
  rw [page_of_capacity_ne hcapacity, hadmit, hlookup, Option.getD_some]

/-- Eviction drops the oldest page from both containers when there is no room for another one. -/
theorem evict_eq (s : Paged) : evict s = ((), { s with
    queue := if s.capacity ≤ s.queue.length then s.queue.tail else s.queue
    pages := if s.capacity ≤ s.queue.length then s.pages.filter (some ·.1 != s.queue.head?)
      else s.pages }) := by
  rw [evict, modify_run]
  rcases hqueue : s.queue with - | ⟨oldest, queue⟩
  · have hpages : s.pages.filter (some ·.1 != none) = s.pages :=
      List.filter_eq_self.mpr fun _ _ ↦ rfl
    simp only [List.tail_nil, List.head?_nil, hpages, ite_self]
    rw [← hqueue]
  · dsimp only
    rw [← hqueue]
    split
    · simp only [hqueue, List.tail_cons, List.head?_cons]
      rfl
    · rfl

theorem lookup_filter (l : List (Nat × Page)) (oldest : Option Nat) (j : Nat) :
    (l.filter (some ·.1 != oldest)).lookup j = if oldest = some j then none else l.lookup j := by
  induction l with
  | nil => simp
  | cons entry l ih =>
    obtain ⟨i, p⟩ := entry
    grind

/-- The page before may be resident, and then a count is recorded. -/
theorem record_lookup_eq (before : Nat) (s : Paged) :
    ∃ lines, (match s.pages.lookup before with
      | some previous => recordLineStart (before + 1) previous
      | none => pure () : StateM Paged Unit) s = ((), { s with lines }) := by
  rcases s.pages.lookup before with - | previous
  · exact ⟨s.lines, rfl⟩
  · exact recordLineStart_eq (before + 1) previous s

/-- A page is read and put behind those that eviction left. -/
def admitted (s : Paged) (index : Nat) (lines : Array (Option Nat)) (attempt : Nat) : Paged :=
  { (evict s).2 with
    lines, attempt
    queue := (evict s).2.queue ++ [index]
    pages := (index, s.reader.reading index s.attempt) :: (evict s).2.pages }

/-- A page without a buffer is read and put behind the others. -/
theorem admitQueued_of_lookup_eq_none (hlookup : s.pages.lookup index = none) :
    ∃ lines attempt, admitQueued index s = ((), s.admitted index lines attempt) := by
  have hread := readPage_eq index size_zeroPage s
  rw [admitQueued.eq_def, get_bind_run, hlookup]
  dsimp only
  rw [bind_run, hread]
  simp only [admitted, bind_run, modify_run, evict_eq]
  rcases index with - | before
  · exact ⟨_, _, rfl⟩
  · dsimp only
    rw [get_bind_run]
    obtain ⟨lines, hlines⟩ := record_lookup_eq before _
    exact ⟨lines, _, hlines⟩

/-- With room for several pages, an access to a page that is not resident evicts and puts it behind
the others. -/
theorem page_of_lookup_eq_none (hcapacity : s.capacity ≠ 0)
    (hlookup : s.pages.lookup index = none) :
    ∃ lines attempt, page index s =
      (s.reader.reading index s.attempt, s.admitted index lines attempt) := by
  obtain ⟨lines, attempt, hadmit⟩ := admitQueued_of_lookup_eq_none hlookup
  refine ⟨lines, attempt, ?_⟩
  rw [page_of_capacity_ne hcapacity, hadmit, admitted, List.lookup_cons_self, Option.getD_some]

/-! ### One access -/

/-- A queue with room for `capacity` indices after an access. -/
def enqueue (capacity : Nat) (queue : List Nat) (index : Nat) : List Nat :=
  if index ∈ queue then queue
  else (if capacity ≤ queue.length then queue.tail else queue) ++ [index]

/-- The two containers agree, and every resident page is a reading of its own. -/
structure Queued (r : Reader) (capacity : Nat) (s : Paged) : Prop where
  /-- The reader stays the same. -/
  reader_eq : s.reader = r
  /-- The capacity stays the same. -/
  capacity_eq : s.capacity = capacity
  /-- No page is queued twice. -/
  nodup : s.queue.Nodup
  /-- There is room for the pages of the queue. -/
  length_le : s.queue.length ≤ capacity
  /-- The map has a buffer for exactly the pages of the queue. -/
  mem_queue_iff : ∀ i, i ∈ s.queue ↔ (s.pages.lookup i).isSome
  /-- The slot is used only when there is no capacity. -/
  single_eq_none : 0 < capacity → s.single = none
  /-- A buffer holds a reading of its page. -/
  exists_reading : ∀ i p, s.resident? i = some p → ∃ attempt, p = r.reading i attempt

/-- A state after an access to a page that was not resident. -/
structure Enqueued (r : Reader) (capacity i : Nat) (s t : Paged) : Prop where
  /-- The containers agree. -/
  queued : Queued r capacity t
  /-- The page is behind the others, of which the oldest is dropped when there is no room. -/
  residentPages_eq : t.residentPages =
    (if capacity ≤ s.residentPages.length then s.residentPages.tail else s.residentPages) ++ [i]
  /-- The page has the bytes just read. -/
  resident?_eq : t.resident? i = some (r.reading i s.attempt)
  /-- The pages that are still resident keep their buffers. -/
  resident?_of_ne : ∀ j ∈ t.residentPages, j ≠ i → t.resident? j = s.resident? j

namespace Queued

/-- What is known of the lines and how many attempts were made does not matter. -/
theorem count (h : Queued r capacity s) (lines : Array (Option Nat)) (attempt : Nat) :
    Queued r capacity { s with lines, attempt } :=
  { h with }

/-- A buffer has the size of a page. -/
theorem size_eq (h : Queued r capacity s) (hp : s.resident? i = some p) : p.size = pageSize := by
  obtain ⟨attempt, rfl⟩ := h.exists_reading i p hp
  exact r.size_reading i attempt

/-- With capacity the buffer of a page is found in the map. -/
theorem resident?_eq_lookup (h : Queued r capacity s) (hcapacity : 0 < capacity) (i : Nat) :
    s.resident? i = s.pages.lookup i := by
  rw [resident?, h.single_eq_none hcapacity]

theorem lookup_eq_none (h : Queued r 0 s) (i : Nat) : s.pages.lookup i = none := by
  have hqueue := List.eq_nil_of_length_eq_zero (Nat.le_zero.mp h.length_le)
  rw [← Option.not_isSome_iff_eq_none, ← h.mem_queue_iff i, hqueue]
  exact List.not_mem_nil

/-- With capacity the resident pages are those of the queue. -/
theorem residentPages_eq_queue (h : Queued r capacity s) (hcapacity : 0 < capacity) :
    s.residentPages = s.queue := by
  rw [residentPages, h.capacity_eq, if_neg (Nat.ne_of_gt hcapacity)]

/-- Without capacity there is one at most. -/
theorem residentPages_eq_single (h : Queued r 0 s) :
    s.residentPages = (s.single.map Prod.fst).toList := by
  rw [residentPages, h.capacity_eq, if_pos rfl]

/-- The resident pages are those for which there is a buffer. -/
theorem mem_residentPages_iff (h : Queued r capacity s) (i : Nat) :
    i ∈ s.residentPages ↔ (s.resident? i).isSome := by
  rcases Nat.eq_zero_or_pos capacity with rfl | hpos
  · rw [h.residentPages_eq_single, resident?, h.lookup_eq_none]
    rcases s.single with - | ⟨resident, page⟩
    · simp
    · by_cases hi : resident = i <;> simp [hi, Ne.symm]
  · rw [h.residentPages_eq_queue hpos, h.resident?_eq_lookup hpos, h.mem_queue_iff]

/-- An access to a resident page changes nothing and gives its buffer. -/
theorem page_of_mem (h : Queued r capacity s) (hi : i ∈ s.residentPages) :
    ∃ p, s.resident? i = some p ∧ page i s = (p, s) := by
  obtain ⟨p, hp⟩ := Option.isSome_iff_exists.mp ((h.mem_residentPages_iff i).mp hi)
  refine ⟨p, hp, ?_⟩
  rcases Nat.eq_zero_or_pos capacity with rfl | hpos
  · rw [resident?, h.lookup_eq_none] at hp
    split at hp
    · rename_i resident page' hsingle
      split at hp
      · rename_i heq
        obtain rfl : page' = p := Option.some.inj hp
        exact page_of_single_eq h.capacity_eq (heq ▸ hsingle)
      · exact nomatch hp
    · exact nomatch hp
  · rw [h.resident?_eq_lookup hpos] at hp
    exact page_of_lookup_eq (by rw [h.capacity_eq]; exact Nat.ne_of_gt hpos) hp

/-- Without capacity the page in the slot is dropped for the new one. -/
theorem enqueued_single (h : Queued r 0 s) (i : Nat) (lines : Array (Option Nat)) (attempt : Nat) :
    Enqueued r 0 i s { s with lines, attempt, single := some (i, r.reading i s.attempt) } := by
  have hresident (j : Nat) : resident? { s with
      lines, attempt, single := some (i, r.reading i s.attempt) } j =
        if i = j then some (r.reading i s.attempt) else none := by
    rw [resident?, ← h.lookup_eq_none j]
  have hpages : residentPages { s with
      lines, attempt, single := some (i, r.reading i s.attempt) } = [i] := by
    rw [residentPages, if_pos h.capacity_eq]
    rfl
  refine ⟨{ h with single_eq_none := fun hpos ↦ absurd hpos (Nat.lt_irrefl 0),
                   exists_reading := fun j p hp ↦ ?_ }, ?_, ?_, fun j hj hne ↦ ?_⟩
  · rw [hresident] at hp
    split at hp
    · rename_i heq
      exact ⟨s.attempt, by rw [← Option.some.inj hp, heq]⟩
    · exact nomatch hp
  · have htail : s.residentPages.tail = [] := by
      rw [h.residentPages_eq_single]
      rcases s.single with - | entry <;> rfl
    rw [hpages, if_pos (Nat.zero_le _), htail, List.nil_append]
  · rw [hresident, if_pos rfl]
  · rw [hpages] at hj
    exact absurd (List.mem_singleton.mp hj) hne

theorem lookup_eq_none_of_not_mem (h : Queued r capacity s) (hj : j ∉ s.queue) :
    s.pages.lookup j = none :=
  Option.not_isSome_iff_eq_none.mp (mt (h.mem_queue_iff j).mpr hj)

/-- Eviction drops the buffer of the page that leaves the queue, and no other. -/
theorem lookup_evict (h : Queued r capacity s) (j : Nat) :
    (evict s).2.pages.lookup j = if j ∈ (evict s).2.queue then s.pages.lookup j else none := by
  have hnone : j ∉ s.queue → s.pages.lookup j = none := h.lookup_eq_none_of_not_mem
  rw [evict_eq]
  dsimp only
  split
  · rw [lookup_filter]
    rcases hqueue : s.queue with - | ⟨oldest, queue⟩
    · simp [hnone, hqueue]
    · have hnodup := h.nodup
      rw [hqueue, List.nodup_cons] at hnodup
      rw [hqueue, List.mem_cons, not_or] at hnone
      grind
  · grind

/-- Eviction makes room for a page and keeps the order of the others. -/
theorem queue_evict (h : Queued r capacity s) (hcapacity : 0 < capacity) :
    (evict s).2.queue.Sublist s.queue ∧ (evict s).2.queue.length < capacity := by
  have hle := h.length_le
  rw [evict_eq, h.capacity_eq]
  dsimp only
  split
  · exact ⟨List.tail_sublist _, by rw [List.length_tail]; omega⟩
  · exact ⟨List.Sublist.refl _, by omega⟩

theorem single_admitted (h : Queued r capacity s) (hcapacity : 0 < capacity) (i : Nat)
    (lines : Array (Option Nat)) (attempt : Nat) : (s.admitted i lines attempt).single = none := by
  rw [admitted, evict_eq]
  exact h.single_eq_none hcapacity

/-- The new page is found first, the others as eviction left them. -/
theorem resident?_admitted (h : Queued r capacity s) (hcapacity : 0 < capacity) (i : Nat)
    (lines : Array (Option Nat)) (attempt j : Nat) :
    (s.admitted i lines attempt).resident? j = if j = i then some (r.reading i s.attempt)
      else if j ∈ (evict s).2.queue then s.resident? j else none := by
  rw [resident?, h.single_admitted hcapacity, h.resident?_eq_lookup hcapacity, ← h.lookup_evict,
    ← h.reader_eq, admitted]
  grind

/-- The containers agree on a page that is put behind the others. -/
theorem admitted (h : Queued r capacity s) (hcapacity : 0 < capacity) (hi : i ∉ s.queue)
    (lines : Array (Option Nat)) (attempt : Nat) :
    Queued r capacity (s.admitted i lines attempt) where
  reader_eq := by
    rw [Paged.admitted, evict_eq]
    exact h.reader_eq
  capacity_eq := by
    rw [Paged.admitted, evict_eq]
    exact h.capacity_eq
  nodup := by
    obtain ⟨hsub, -⟩ := h.queue_evict hcapacity
    have hnew : i ∉ (evict s).2.queue := fun hmem ↦ hi (hsub.subset hmem)
    have hnodup := h.nodup.sublist hsub
    rw [Paged.admitted]
    grind [List.nodup_append]
  length_le := by
    rw [Paged.admitted, List.length_append]
    exact (h.queue_evict hcapacity).2
  mem_queue_iff j := by
    have hlookup := h.resident?_admitted hcapacity i lines attempt j
    have hpages : (s.admitted i lines attempt).resident? j =
        (s.admitted i lines attempt).pages.lookup j := by
      rw [resident?, h.single_admitted hcapacity]
    rw [← hpages, hlookup, Paged.admitted, List.mem_append, List.mem_singleton]
    by_cases hj : j = i
    · simp [hj]
    · by_cases hkept : j ∈ (evict s).2.queue
      · have hmem := (h.queue_evict hcapacity).1.subset hkept
        have hsome := (h.mem_queue_iff j).mp hmem
        simpa [hj, hkept, h.resident?_eq_lookup hcapacity] using hsome
      · simp [hj, hkept]
  single_eq_none _ := h.single_admitted hcapacity i lines attempt
  exists_reading j p hp := by
    rw [h.resident?_admitted hcapacity] at hp
    split at hp
    · rename_i heq
      exact ⟨s.attempt, by rw [← Option.some.inj hp, heq]⟩
    · split at hp
      · exact h.exists_reading j p hp
      · cases hp

/-- With capacity the page is put behind the others. -/
theorem enqueued_queue (h : Queued r capacity s) (hcapacity : 0 < capacity)
    (hi : i ∉ s.residentPages) (lines : Array (Option Nat)) (attempt : Nat) :
    Enqueued r capacity i s (s.admitted i lines attempt) := by
  rw [h.residentPages_eq_queue hcapacity] at hi
  have hqueued := h.admitted hcapacity hi lines attempt
  have hpages := hqueued.residentPages_eq_queue hcapacity
  refine ⟨hqueued, ?_, ?_, fun j hj hne ↦ ?_⟩
  · rw [hpages, h.residentPages_eq_queue hcapacity, Paged.admitted, evict_eq, h.capacity_eq]
  · rw [h.resident?_admitted hcapacity, if_pos rfl]
  · rw [hpages, Paged.admitted, List.mem_append, List.mem_singleton] at hj
    rw [h.resident?_admitted hcapacity, if_neg hne, if_pos (hj.resolve_right hne)]

/-- An access to any other page reads it and puts it behind the others. -/
theorem page_of_not_mem (h : Queued r capacity s) (hi : i ∉ s.residentPages) :
    ∃ t, page i s = (r.reading i s.attempt, t) ∧ Enqueued r capacity i s t := by
  obtain rfl : s.reader = r := h.reader_eq
  rcases Nat.eq_zero_or_pos capacity with rfl | hpos
  · have hne : s.single.map Prod.fst ≠ some i := by
      rwa [h.residentPages_eq_single, Option.mem_toList] at hi
    have hsize (entry : Nat × Page) (hentry : s.single = some entry) :
        entry.2.size = pageSize := by
      refine h.size_eq (i := entry.1) ?_
      rw [resident?, hentry]
      exact if_pos rfl
    obtain ⟨lines, attempt, hpage⟩ := page_of_single_ne h.capacity_eq hne hsize
    exact ⟨_, hpage, h.enqueued_single i lines attempt⟩
  · have hlookup : s.pages.lookup i = none := by
      rw [← Option.not_isSome_iff_eq_none, ← h.mem_queue_iff, ← h.residentPages_eq_queue hpos]
      exact hi
    obtain ⟨lines, attempt, hpage⟩ :=
      page_of_lookup_eq_none (by rw [h.capacity_eq]; exact Nat.ne_of_gt hpos) hlookup
    exact ⟨_, hpage, h.enqueued_queue hpos hi lines attempt⟩

/-- Whatever is accessed, the containers agree afterwards. -/
theorem page (h : Queued r capacity s) (i : Nat) : Queued r capacity (page i s).2 := by
  by_cases hi : i ∈ s.residentPages
  · obtain ⟨p, -, hpage⟩ := h.page_of_mem hi
    rw [hpage]
    exact h
  · obtain ⟨t, hpage, henqueued⟩ := h.page_of_not_mem hi
    rw [hpage]
    exact henqueued.queued

/-- An access treats the resident pages as a queue. -/
theorem residentPages_page (h : Queued r capacity s) (i : Nat) :
    (Paged.page i s).2.residentPages = enqueue capacity s.residentPages i := by
  by_cases hi : i ∈ s.residentPages
  · obtain ⟨p, -, hpage⟩ := h.page_of_mem hi
    rw [hpage, enqueue, if_pos hi]
  · obtain ⟨t, hpage, henqueued⟩ := h.page_of_not_mem hi
    rw [hpage, henqueued.residentPages_eq, enqueue, if_neg hi]

end Queued

/-! ### Many accesses -/

/-- A state is reached from another one by accesses to pages, in their order, and by counting
lines. -/
inductive Run (s : Paged) : List Nat → Paged → Prop
  | nil : Run s [] s
  | access {accessed : List Nat} {t : Paged} (h : Run s accessed t) (i : Nat) :
    Run s (accessed ++ [i]) (page i t).2
  | count {accessed : List Nat} {t : Paged} (h : Run s accessed t) (i : Nat) :
    Run s accessed (linesBefore i t).2

namespace Run

theorem trans (h : Run s accessed t) (h' : Run t accessed' u) :
    Run s (accessed ++ accessed') u := by
  induction h' with
  | nil => rwa [List.append_nil]
  | access _ i ih =>
    rw [← List.append_assoc]
    exact ih.access i
  | count _ i ih => exact ih.count i

/-- The containers agree after every run. -/
theorem queued (h : Run s accessed t) (hs : Queued r capacity s) : Queued r capacity t := by
  induction h with
  | nil => exact hs
  | access _ i ih => exact ih.page i
  | count _ i ih =>
    obtain ⟨lines, attempt, hcount⟩ := linesBefore_snd i _
    rw [hcount]
    exact ih.count lines attempt

/-- The resident pages depend on the accesses only. -/
theorem residentPages_eq (h : Run s accessed t) (hs : Queued r capacity s) :
    t.residentPages = accessed.foldl (enqueue capacity) s.residentPages := by
  induction h with
  | nil => rfl
  | access h i ih =>
    rw [(h.queued hs).residentPages_page, ih, List.foldl_append]
    rfl
  | count _ i ih =>
    obtain ⟨lines, attempt, hcount⟩ := linesBefore_snd i _
    rw [hcount]
    exact ih

end Run

/-! ### What the operations access -/

/-- The indices of the pages with the bytes between two positions. -/
def pagesOf (start stop : Nat) : List Nat :=
  if stop ≤ start then []
  else List.range' (start / pageSize) ((stop - 1) / pageSize + 1 - start / pageSize)

/-- The bytes of the first page are those up to its end or to the end of the range. -/
theorem pagesOf_of_lt {pos stop : Nat} (h : pos < stop) :
    pagesOf pos stop =
      pos / pageSize :: pagesOf (pos + min (stop - pos) (pageSize - pos % pageSize)) stop := by
  have hsize : pageSize = 4096 := rfl
  rw [pagesOf, pagesOf, if_neg (Nat.not_le.mpr h), hsize]
  split
  · -- the range ends in this page
    obtain hlast : (stop - 1) / 4096 = pos / 4096 := by omega
    rw [hlast, Nat.add_sub_cancel_left, List.range'_one]
  · obtain hnext : (pos + min (stop - pos) (4096 - pos % 4096)) / 4096 = pos / 4096 + 1 := by omega
    obtain hcount : (stop - 1) / 4096 + 1 - pos / 4096 =
        (stop - 1) / 4096 + 1 - (pos / 4096 + 1) + 1 := by omega
    rw [hnext, hcount, List.range'_succ]

theorem run_page (i : Nat) (s : Paged) : Run s [i] (page i s).2 :=
  Run.nil.access i

/-- A byte is on one page, and behind the end on none. -/
theorem run_byteAt (pos : Nat) (s : Paged) :
    Run s (if s.size ≤ pos then [] else [pos / pageSize]) (byteAt pos s).2 := by
  rw [byteAt, get_bind_run]
  split
  · exact .nil
  · exact run_page _ s

/-- Copying accesses the pages of the bytes in their order. -/
theorem run_copy (n pos stop : Nat) (hn : stop - pos ≤ n) (s : Paged) :
    Run s (pagesOf pos stop) (copy n pos stop s).2 := by
  induction n generalizing pos s with
  | zero =>
    rw [pagesOf, if_pos (by omega)]
    exact .nil
  | succ n ih =>
    rw [copy]
    split
    · rename_i hle
      rw [pagesOf, if_pos hle]
      exact .nil
    · rename_i hlt
      have hoffset : pos % pageSize < pageSize := Nat.mod_lt _ (by decide)
      have hrest := ih (pos + min (stop - pos) (pageSize - pos % pageSize)) (by omega)
        (page (pos / pageSize) s).2
      rw [pagesOf_of_lt (by omega)]
      exact (run_page _ s).trans hrest

theorem run_subbytes (start stop : Nat) (s : Paged) :
    Run s (pagesOf start (min stop s.size)) (subbytes start stop s).2 :=
  run_copy _ _ _ (Nat.le_refl _) s

/-- A byte string that lies on one page is compared there, and is copied otherwise. -/
theorem run_matchesAt (pos : Nat) (bytes : List UInt8) (s : Paged) :
    Run s (if s.size < pos + bytes.length then []
        else if pos % pageSize + bytes.length ≤ pageSize then [pos / pageSize]
        else pagesOf pos (pos + bytes.length)) (matchesAt pos bytes s).2 := by
  rw [matchesAt, get_bind_run]
  split
  · exact .nil
  · dsimp only
    split
    · exact run_page _ s
    · have hrun := run_subbytes pos (pos + bytes.length) s
      rw [Nat.min_eq_left (by omega)] at hrun
      exact hrun

/-- Beside counting, the page of the position is accessed. -/
theorem run_lineNumber (pos : Nat) (s : Paged) :
    Run s [min pos s.size / pageSize] (lineNumber pos s).2 :=
  (run_page _ s).count _

/-- Whatever is called, the state moves by accesses and by counting lines. -/
theorem simulates_run (s₀ : Paged) :
    Buffer.Simulates fun s t : Paged ↦ s = t ∧ ∃ accessed, Run s₀ accessed s := by
  have agree {α : Type} {m : StateM Paged α} {accessed : Paged → List Nat}
      (hm : ∀ s, Run s (accessed s) (m s).2) :
      Agree (fun s t : Paged ↦ s = t ∧ ∃ accessed, Run s₀ accessed s) m m := by
    rintro s _ ⟨rfl, before, hbefore⟩
    exact ⟨rfl, rfl, _, hbefore.trans (hm s)⟩
  exact {
    name_eq := fun h ↦ h.1 ▸ rfl
    startLine_eq := fun h ↦ h.1 ▸ rfl
    length_eq := fun h ↦ h.1 ▸ rfl
    byteAt := fun pos ↦ agree (run_byteAt pos)
    matchesAt := fun pos bytes ↦ agree (run_matchesAt pos bytes)
    subbytes := fun start stop ↦ agree (run_subbytes start stop)
    lineNumber := fun pos ↦ agree (run_lineNumber pos) }

/-- So do the answers to any sequence of calls. -/
theorem exists_run_answers (calls : List Buffer.Call) (s : Paged) :
    ∃ accessed, Run s accessed (Buffer.answers calls s).2 :=
  ((simulates_run s).answers calls s s ⟨rfl, [], .nil⟩).2.2

/-! ### Every reachable state -/

theorem enqueue_zero (kept : Option Nat) (i : Nat) : enqueue 0 kept.toList i = [i] := by
  rw [enqueue]
  split
  · rename_i hi
    rw [Option.mem_toList] at hi
    rw [hi, Option.toList_some]
  · rcases kept with - | kept <;> rfl

/-- A queue without capacity keeps the last page. -/
theorem foldl_enqueue_zero (accessed : List Nat) (kept : Option Nat) :
    accessed.foldl (enqueue 0) kept.toList = (accessed.getLast?.or kept).toList := by
  induction accessed generalizing kept with
  | nil => rfl
  | cons i accessed ih =>
    rw [List.foldl_cons, enqueue_zero, List.getLast?_cons]
    have hrest := ih (some i)
    rw [Option.toList_some] at hrest
    rw [hrest]
    rcases accessed.getLast? with - | last <;> rfl

/-- What the resident pages of a source over a reader are, after the accesses made so far. -/
structure Fifo (r : Reader) (capacity : Nat) (accessed : List Nat) (s : Paged) : Prop where
  /-- The resident pages are a queue in which each access puts its page. -/
  residentPages_eq : s.residentPages = accessed.foldl (enqueue capacity) []
  /-- No page is listed twice. -/
  nodup : s.residentPages.Nodup
  /-- No more pages are listed than there is room for. -/
  length_le : 0 < capacity → s.residentPages.length ≤ capacity
  /-- The pages listed are those of the map. -/
  mem_iff_lookup : 0 < capacity → ∀ i, i ∈ s.residentPages ↔ (s.pages.lookup i).isSome
  /-- Without capacity, exactly the page accessed last is resident. -/
  residentPages_eq_last : capacity = 0 → s.residentPages = accessed.getLast?.toList
  /-- An access to a resident page gives its buffer and changes nothing. -/
  page_of_mem : ∀ i ∈ s.residentPages, ∃ p, s.resident? i = some p ∧ page i s = (p, s)
  /-- An access to any other page gives the bytes just read, and puts the page behind the others, of
  which the oldest is dropped when there is no room. -/
  page_of_not_mem : ∀ i ∉ s.residentPages,
    ∃ t, page i s = (r.reading i s.attempt, t) ∧ Enqueued r capacity i s t
  /-- Every buffer has the bytes of its own page as they were read. -/
  exists_reading : ∀ i p, s.resident? i = some p → ∃ attempt, p = r.reading i attempt
  /-- Counting lines changes no residency. -/
  residentPages_linesBefore : ∀ index, (linesBefore index s).2.residentPages = s.residentPages ∧
    ∀ i, (linesBefore index s).2.resident? i = s.resident? i

theorem Queued.nodup_residentPages (h : Queued r capacity s) : s.residentPages.Nodup := by
  rw [residentPages]
  split
  · rcases s.single with - | entry <;> simp
  · exact h.nodup

/-- What is known of queued states is what is said of them. -/
theorem Queued.fifo (h : Queued r capacity s)
    (hpages : s.residentPages = accessed.foldl (enqueue capacity) []) :
    Fifo r capacity accessed s where
  residentPages_eq := hpages
  nodup := h.nodup_residentPages
  length_le hpos := by
    rw [h.residentPages_eq_queue hpos]
    exact h.length_le
  mem_iff_lookup hpos i := by
    rw [h.residentPages_eq_queue hpos]
    exact h.mem_queue_iff i
  residentPages_eq_last hzero := by
    subst hzero
    rw [hpages, ← Option.or_none (o := accessed.getLast?)]
    exact foldl_enqueue_zero accessed none
  page_of_mem _ hi := h.page_of_mem hi
  page_of_not_mem _ hi := h.page_of_not_mem hi
  exists_reading := h.exists_reading
  residentPages_linesBefore index := by
    obtain ⟨lines, attempt, hcount⟩ := linesBefore_snd index s
    rw [hcount]
    exact ⟨rfl, fun _ ↦ rfl⟩

/-- Opening a reader accesses the first page. -/
theorem queued_of_ofReader {name : String} {startLine : Nat}
    (h : ofReader name r capacity startLine = .ok s) :
    Queued r capacity s ∧ s.residentPages = [0] := by
  rcases hsize : r.size with reason | size
  · rw [ofReader, hsize] at h
    exact nomatch h
  · -- before the first access both containers are empty
    have hempty : Queued r capacity {
        name, startLine, reader := r, size, capacity
        lines := (Array.replicate (size / pageSize + 1) none).setIfInBounds 0 (some 0) } := {
      reader_eq := rfl
      capacity_eq := rfl
      nodup := List.nodup_nil
      length_le := Nat.zero_le _
      mem_queue_iff := fun i ↦ by simp
      single_eq_none := fun _ ↦ rfl
      exists_reading := fun _ _ hp ↦ nomatch hp }
    rw [ofReader, hsize] at h
    obtain rfl := Except.ok.inj h
    refine ⟨hempty.page 0, ?_⟩
    rw [hempty.residentPages_page]
    rcases capacity with - | capacity <;> rfl

/-- In every state that calls can lead to, the resident pages are a queue: the state is reached by
accesses and by counting lines, and whatever was accessed on the way, the pages listed, the buffers
found and the answer to the next access are those of a queue. -/
theorem fifo_of_ofReader {name : String} {startLine : Nat}
    (h : ofReader name r capacity startLine = .ok s) :
    (∀ calls : List Buffer.Call, ∃ accessed, Run s accessed (Buffer.answers calls s).2) ∧
      ∀ accessed t, Run s accessed t → Fifo r capacity (0 :: accessed) t := by
  obtain ⟨hqueued, hpages⟩ := queued_of_ofReader h
  refine ⟨fun calls ↦ exists_run_answers calls s, fun accessed t hrun ↦ ?_⟩
  refine (hrun.queued hqueued).fifo ?_
  rw [hrun.residentPages_eq hqueued, hpages, List.foldl_cons]
  congr 1
  rcases capacity with - | capacity <;> rfl

/-- A reader whose length is too large and that fails in the second page. -/
def failingScript : Script where
  text := #[0x61, newline, 0x62]
  size := some 10000
  failFrom := pageSize
  failTo := 2 * pageSize

theorem fifo_of_ofReader_failing :
    ∃ s, ofReader "failing" failingScript.reader 2 1 = .ok s ∧
      (∀ calls : List Buffer.Call, ∃ accessed, Run s accessed (Buffer.answers calls s).2) ∧
      ∀ accessed t, Run s accessed t → Fifo failingScript.reader 2 (0 :: accessed) t :=
  ⟨_, rfl, fifo_of_ofReader rfl⟩

end ParsingMachine.Paged
