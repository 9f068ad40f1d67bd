import ParsingMachine.Proofs.Source.Residency

/-!
# A paged source reads as the text of its pages

The state of a paged source depends on the order of accesses: which pages are resident, how much of
the line index is filled, how many attempts were made. `Paged.Reads` is what does not: resident
pages are pages of the reader, and every known entry of the line index counts the newlines before
its page. Loading, eviction and the backfill keep it (`Paged.page_answers`,
`Paged.linesBefore_answers`), so every operation answers as the resident source of the text
(`Paged.simulates_of_samePages`), and with it everything derived from these operations
(`Paged.answers_eq_resident`).

Each function is given a specification of one form: from every state with the invariant its answer
is a fixed one, and the state it leaves has the invariant again (`Paged.Answers`). Such
specifications pass through sequencing, so a function is described once and never opened by its
callers.

Of the reader it is used only that a page is the same whenever it is read. Buffers are reused, but
all bytes of a buffer are replaced when a page is read into it, so the page that is answered does
not depend on the one that was there.

Lines are counted on two occasions, when a page is loaded while the one before it is resident and
when the line of a position is asked for. The second one starts at the last known entry, or at the
first page, for which the count is zero whether it is known or not (`Paged.Reads.getD_lastKnown`),
and it makes all entries up to the asked one known. Pages that it reads in between are not kept.

Without capacity one page is kept in a slot of its own. The invariant speaks of the slot and of the
map, so there is no case distinction in what is said, only in the proofs about admission.

## Main statements

* `Paged.page_answers`: asking for a page gives the page of the reader.
* `Paged.linesBefore_answers`: the newlines before a page are counted right.
* `Paged.byteAt_answers`, `Paged.subbytes_answers`, `Paged.matchesAt_answers`,
  `Paged.lineNumber_answers`: the operations of a buffer.
* `Paged.simulates_of_samePages`: all of them answer as the resident source does.
* `Paged.answers_eq_resident`: so does every sequence of calls, over a steady reader.
-/

namespace ParsingMachine.Paged

/-! ### The invariant -/

/-- The number of newlines before a page. -/
def newlinesAbove (text : Array UInt8) (index : Nat) : Nat :=
  (text.extract 0 (index * pageSize)).count newline

/-- What all states of a paged source over a reader have in common with the resident source of its
text. -/
structure Reads (r : Reader) (t : Resident) (s : Paged) : Prop where
  /-- The reader stays the same. -/
  reader_eq : s.reader = r
  /-- The name is the same. -/
  name_eq : s.name = t.name
  /-- The first line has the same number. -/
  startLine_eq : s.startLine = t.startLine
  /-- The length is the same. -/
  size_eq : s.size = t.text.size
  /-- Pages in the map are pages of the reader. -/
  page_of_mem : ∀ entry ∈ s.pages, entry.2 = r.page entry.1
  /-- The single resident page is a page of the reader. -/
  page_of_single : ∀ entry, s.single = some entry → entry.2 = r.page entry.1
  /-- There is an entry of the line index for each page, and one for the end. -/
  size_lines : s.lines.size = t.text.size / pageSize + 1
  /-- Known entries of the line index are right. -/
  lines_eq : ∀ index count, s.linesBefore? index = some count → count = newlinesAbove t.text index

/-- From every state that reads a text, a computation gives the same answer and leaves such a
state. -/
def Answers {α : Type} (r : Reader) (t : Resident) (m : StateM Paged α) (a : α) : Prop :=
  ∀ s, Reads r t s → (m s).1 = a ∧ Reads r t (m s).2

namespace Answers

variable {α β : Type} {r : Reader} {t : Resident}

/-- Nothing is done. -/
theorem pure (a : α) : Answers r t (Pure.pure a) a :=
  fun _ h ↦ ⟨rfl, h⟩

/-- Of two computations each keeps the invariant. -/
theorem bind {m : StateM Paged α} {f : α → StateM Paged β} {a : α} {b : β} (hm : Answers r t m a)
    (hf : Answers r t (f a) b) : Answers r t (m >>= f) b := by
  intro s h
  obtain ⟨ha, hs⟩ := hm s h
  show (f (m s).1 (m s).2).1 = b ∧ Reads r t (f (m s).1 (m s).2).2
  rw [ha]
  exact hf _ hs

theorem get_bind {f : Paged → StateM Paged β} {b : β}
    (hf : ∀ s, Reads r t s → Answers r t (f s) b) : Answers r t (get >>= f) b :=
  fun s h ↦ hf s h s h

/-- A change that keeps the invariant. -/
theorem modified {f : Paged → Paged} (hf : ∀ s, Reads r t s → Reads r t (f s)) :
    Answers r t (modify f) () :=
  fun s h ↦ ⟨rfl, hf s h⟩

end Answers

variable {r : Reader} {t : Resident} {s : Paged}

/-- Setting an entry of the line index to the right count keeps the invariant. -/
theorem Reads.setLine (h : Reads r t s) {index count : Nat}
    (hcount : index ≤ t.text.size / pageSize → count = newlinesAbove t.text index) :
    Reads r t { s with lines := s.lines.setIfInBounds index (some count) } := by
  refine { h with size_lines := ?_, lines_eq := fun i c hi ↦ ?_ }
  · rw [Array.size_setIfInBounds]
    exact h.size_lines
  · change (s.lines.setIfInBounds index (some count))[i]?.join = some c at hi
    rw [Array.getElem?_setIfInBounds] at hi
    split at hi
    · rename_i heq
      subst heq
      split at hi
      · rename_i hlt
        obtain rfl : count = c := by simpa using hi
        refine hcount ?_
        rw [h.size_lines] at hlt
        omega
      · simp at hi
    · exact h.lines_eq i c hi

theorem newlinesAbove_zero (text : Array UInt8) : newlinesAbove text 0 = 0 := by
  simp [newlinesAbove]

/-- Within the text, the newlines before a page are those before the page in front of it and those
of that page. -/
theorem newlinesAbove_succ (ht : t.text = r.text t.text.size) {index : Nat}
    (h : index + 1 ≤ t.text.size / pageSize) :
    newlinesAbove t.text (index + 1) = newlinesAbove t.text index + newlines (r.page index) := by
  have hle : (index + 1) * pageSize ≤ t.text.size :=
    Nat.le_trans (Nat.mul_le_mul_right _ h) (Nat.div_mul_le_self _ _)
  rw [newlinesAbove, newlinesAbove, ht]
  exact r.count_extract_succ hle

/-- A page found among the resident ones is the page of the reader. -/
theorem Reads.lookup_pages (h : Reads r t s) {index : Nat} {page : Page}
    (hlookup : s.pages.lookup index = some page) : page = r.page index := by
  obtain ⟨before, after, hpages, -⟩ := List.lookup_eq_some_iff.mp hlookup
  exact h.page_of_mem (index, page) (by simp [hpages])

theorem Reads.size_single (h : Reads r t s) (entry : Nat × Page) (hsingle : s.single = some entry) :
    entry.2.size = pageSize := by
  rw [h.page_of_single entry hsingle]
  exact r.size_page entry.1

/-! ### Loading a page -/

section Loading

variable (hr : r.SamePages)

include hr in
theorem reading_eq (index attempt : Nat) : r.reading index attempt = r.page index :=
  congrArg padded (hr index attempt)

include hr in
/-- Reading a page gives the page of the reader, whatever the attempts made before. -/
theorem readPage_answers (index : Nat) {buffer : Page} (hbuffer : buffer.size = pageSize) :
    Answers r t (readPage index buffer) (r.page index) := by
  intro s h
  rw [readPage_eq index hbuffer, h.reader_eq, reading_eq hr]
  exact ⟨rfl, { h with reader_eq := rfl }⟩

/-- The count behind a page is recorded if that of the page is known, and it is right then. -/
theorem recordLineStart_answers (ht : t.text = r.text t.text.size) (before : Nat) :
    Answers r t (recordLineStart (before + 1) (r.page before)) () := by
  refine Answers.modified fun s h ↦ ?_
  dsimp only
  split
  · rename_i count hnone hcount
    refine h.setLine fun hle ↦ ?_
    rw [newlinesAbove_succ ht hle, h.lines_eq _ _ hcount]
  · exact h

include hr in
/-- The page is read into the buffer of the page that was kept. -/
theorem load_answers (index : Nat) {buffer : Page} (hbuffer : buffer.size = pageSize) :
    Answers r t (admitSingle.load index buffer) () := by
  refine (readPage_answers hr index hbuffer).bind (Answers.modified fun s h ↦ ?_)
  refine { h with page_of_single := fun entry hentry ↦ ?_ }
  obtain rfl : (index, r.page index) = entry := by simpa using hentry
  rfl

include hr in
/-- Without capacity, an access keeps the page in the slot. -/
theorem admitSingle_answers (ht : t.text = r.text t.text.size) (index : Nat) :
    Answers r t (admitSingle index) () := by
  refine Answers.get_bind fun s h ↦ ?_
  split
  · rename_i resident buffer hsingle
    have hbuffer := h.size_single _ hsingle
    split
    · split
      · rename_i heq
        obtain rfl : buffer = r.page resident := h.page_of_single _ hsingle
        subst heq
        exact (recordLineStart_answers ht resident).bind (load_answers hr _ hbuffer)
      · exact load_answers hr index hbuffer
    · exact Answers.pure ()
  · exact load_answers hr index size_zeroPage

/-- Evicting a page drops a buffer, and no count. -/
theorem evict_answers : Answers r t evict () := by
  refine Answers.modified fun s h ↦ ?_
  split
  · split
    · exact { h with
        page_of_mem := fun entry hentry ↦ h.page_of_mem entry (List.mem_filter.mp hentry).1 }
    · exact h
  · exact h

include hr in
/-- With capacity, an access puts the page into the map. -/
theorem admitQueued_answers (ht : t.text = r.text t.text.size) (index : Nat) :
    Answers r t (admitQueued index) () := by
  refine Answers.get_bind fun s h ↦ ?_
  split
  · exact Answers.pure ()
  · refine (readPage_answers hr index size_zeroPage).bind (evict_answers.bind ?_)
    refine Answers.bind (a := ()) (Answers.modified fun s h ↦ ?_) ?_
    · refine { h with page_of_mem := fun entry hentry ↦ ?_ }
      rcases List.mem_cons.mp hentry with rfl | hmem
      · rfl
      · exact h.page_of_mem entry hmem
    · cases index with
      | zero => exact Answers.pure ()
      | succ before =>
        refine Answers.get_bind fun s h ↦ ?_
        split
        · rename_i previous hlookup
          rw [h.lookup_pages hlookup]
          exact recordLineStart_answers ht before
        · exact Answers.pure ()

include hr in
/-- A page that is resident is the page of the reader, and so is one that is read. -/
theorem page_fst (h : Reads r t s) (index : Nat) : (page index s).1 = r.page index := by
  by_cases hcapacity : s.capacity = 0
  · by_cases hindex : s.single.map Prod.fst = some index
    · obtain ⟨⟨resident, buffer⟩, hsingle, rfl⟩ := Option.map_eq_some_iff.mp hindex
      rw [page_of_single_eq hcapacity hsingle]
      exact h.page_of_single _ hsingle
    · obtain ⟨lines, attempt, hpage⟩ := page_of_single_ne hcapacity hindex h.size_single
      rw [hpage, h.reader_eq]
      exact reading_eq hr index _
  · rcases hlookup : s.pages.lookup index with - | buffer
    · obtain ⟨lines, attempt, hpage⟩ := page_of_lookup_eq_none hcapacity hlookup
      rw [hpage, h.reader_eq]
      exact reading_eq hr index _
    · rw [page_of_lookup_eq hcapacity hlookup]
      exact h.lookup_pages hlookup

include hr in
/-- Asking for a page gives the page of the reader, whatever was resident. -/
theorem page_answers (ht : t.text = r.text t.text.size) (index : Nat) :
    Answers r t (page index) (r.page index) := by
  refine fun s h ↦ ⟨page_fst hr h index, ?_⟩
  by_cases hcapacity : s.capacity = 0
  · rw [page_of_capacity_eq hcapacity]
    exact (admitSingle_answers hr ht index s h).2
  · rw [page_of_capacity_ne hcapacity]
    exact (admitQueued_answers hr ht index s h).2

end Loading

/-! ### Counting lines -/

section Counting

/-- A resident page is the page of the reader, wherever it is kept. -/
theorem Reads.resident? (h : Reads r t s) {index : Nat} {page : Page}
    (hpage : s.resident? index = some page) : page = r.page index := by
  rw [Paged.resident?] at hpage
  split at hpage
  · rename_i resident page' hsingle
    split at hpage
    · rename_i heq
      obtain rfl : page' = page := by simpa using hpage
      rw [← heq]
      exact h.page_of_single _ hsingle
    · exact h.lookup_pages hpage
  · exact h.lookup_pages hpage

theorem lastKnown_le (s : Paged) (index : Nat) : s.lastKnown index ≤ index := by
  induction index with
  | zero => exact Nat.le_refl 0
  | succ index ih =>
    rw [lastKnown]
    split
    · exact Nat.le_refl _
    · exact Nat.le_succ_of_le ih

/-- The default stands for the entry of the first page only, which is right when it is unknown
too. -/
theorem Reads.getD_lastKnown (h : Reads r t s) (index : Nat) :
    (s.linesBefore? (s.lastKnown index)).getD 0 = newlinesAbove t.text (s.lastKnown index) := by
  induction index with
  | zero =>
    rcases hzero : s.linesBefore? 0 with - | count
    · simp [lastKnown, hzero, newlinesAbove_zero]
    · simpa [lastKnown, hzero] using h.lines_eq 0 count hzero
  | succ index ih =>
    rw [lastKnown]
    split
    · rename_i hsome
      obtain ⟨count, hcount⟩ := Option.isSome_iff_exists.mp hsome
      rw [hcount]
      exact h.lines_eq _ _ hcount
    · exact ih

/-- A page that is needed for counting only is not kept. -/
theorem peek_answers (hr : r.SamePages) (index : Nat) {scratch : Page}
    (hscratch : scratch.size = pageSize) (h : Reads r t s) :
    (peek index scratch s).1.1 = r.page index ∧ (peek index scratch s).1.2.size = pageSize ∧
      Reads r t (peek index scratch s).2 := by
  rcases hpage : s.resident? index with - | page
  · obtain ⟨hread, hs⟩ := readPage_answers hr index hscratch s h
    have hpeek : peek index scratch s = (((readPage index scratch s).1,
        (readPage index scratch s).1), (readPage index scratch s).2) := by
      rw [peek, get_bind_run, hpage]
      rfl
    rw [hpeek, hread]
    exact ⟨rfl, r.size_page index, hs⟩
  · have hpeek : peek index scratch s = ((page, scratch), s) := by
      rw [peek, get_bind_run, hpage]
      rfl
    rw [hpeek]
    exact ⟨h.resident? hpage, hscratch, h⟩

/-- Filling the line index from a known entry on makes the last of the filled entries known. -/
theorem fillLines_spec (hr : r.SamePages) (ht : t.text = r.text t.text.size) (n index : Nat)
    {scratch : Page} (hscratch : scratch.size = pageSize) (h : Reads r t s)
    (hindex : (s.linesBefore? index).getD 0 = newlinesAbove t.text index)
    (hle : index + n ≤ t.text.size / pageSize) :
    Reads r t (fillLines n index scratch s).2 ∧
      ((fillLines n index scratch s).2.linesBefore? (index + n)).getD 0 =
        newlinesAbove t.text (index + n) := by
  induction n generalizing s index scratch with
  | zero => exact ⟨h, hindex⟩
  | succ n ih =>
    obtain ⟨hpage, hscratch', hs⟩ := peek_answers hr index hscratch h
    rw [fillLines_succ]
    rcases hpeek : peek index scratch s with ⟨⟨page, scratch'⟩, s'⟩
    rw [hpeek] at hpage hscratch' hs
    subst hpage
    -- the entry for the next page is the count for this one and its newlines
    have hcount : (s.linesBefore? index).getD 0 + newlines (r.page index) =
        newlinesAbove t.text (index + 1) := by
      rw [hindex, newlinesAbove_succ ht (by omega)]
    have hknown : (s'.lines.setIfInBounds (index + 1)
        (some ((s.linesBefore? index).getD 0 + newlines (r.page index))))[index + 1]?.join =
          some (newlinesAbove t.text (index + 1)) := by
      rw [Array.getElem?_setIfInBounds_self_of_lt (by rw [hs.size_lines]; omega), hcount]
      rfl
    have hnext := ih (index + 1) hscratch' (hs.setLine fun _ ↦ hcount)
      (by rw [Paged.linesBefore?, hknown]; rfl) (by omega)
    rw [Nat.add_right_comm] at hnext
    exact hnext

/-- The newlines before a page are counted right, whatever is known of the line index. -/
theorem linesBefore_answers (hr : r.SamePages) (ht : t.text = r.text t.text.size) {index : Nat}
    (hle : index ≤ t.text.size / pageSize) :
    Answers r t (linesBefore index) (newlinesAbove t.text index) := by
  intro s h
  rcases hindex : s.linesBefore? index with - | count
  · have heq : linesBefore index s =
        let s' := (fillLines (index - s.lastKnown index) (s.lastKnown index) zeroPage s).2
        ((s'.linesBefore? index).getD 0, s') := by
      simp only [linesBefore, get_bind_run, hindex]
      rfl
    have hknown := lastKnown_le s index
    have hfill := fillLines_spec hr ht (index - s.lastKnown index) (s.lastKnown index)
      size_zeroPage h (h.getD_lastKnown index) (by omega)
    rw [Nat.add_sub_cancel' hknown] at hfill
    rw [heq]
    exact ⟨hfill.2, hfill.1⟩
  · have heq : linesBefore index s = (count, s) := by
      simp only [linesBefore, get_bind_run, hindex]
      rfl
    rw [heq]
    exact ⟨h.lines_eq index count hindex, h⟩

end Counting

/-! ### Operations -/

section Operations

variable (hr : r.SamePages) (ht : t.text = r.text t.text.size)

theorem div_mul_add_mod (pos : Nat) : pos / pageSize * pageSize + pos % pageSize = pos := by
  rw [Nat.mul_comm]
  exact Nat.div_add_mod pos pageSize

include ht in
/-- A range within one page, read in that page. -/
theorem extract_page {pos count : Nat} (hpage : pos % pageSize + count ≤ pageSize)
    (hsize : pos + count ≤ t.text.size) :
    (r.page (pos / pageSize)).extract (pos % pageSize) (pos % pageSize + count) =
      t.text.extract pos (pos + count) := by
  have hpos := div_mul_add_mod pos
  rw [ht, ← r.extract_text t.text.size _ hpage (by omega), ← Nat.add_assoc, hpos]

include hr ht in
/-- A byte is found in its page, and behind the end it is zero. -/
theorem byteAt_answers (pos : Nat) : Answers r t (byteAt pos) (t.byteAt pos) := by
  refine Answers.get_bind fun s h ↦ ?_
  rw [h.size_eq]
  split
  · rename_i hle
    rw [Resident.byteAt, Array.getElem?_eq_none hle]
    exact Answers.pure _
  · rename_i hlt
    refine (page_answers hr ht _).bind ?_
    have hbyte : (r.page (pos / pageSize))[pos % pageSize]?.getD endByte = t.byteAt pos := by
      have hpos : pos < (r.text t.text.size).size := by
        rw [r.size_text]
        omega
      rw [Resident.byteAt, ht, Array.getElem?_eq_getElem hpos]
      simp only [Reader.text, Array.getElem_ofFn, Option.getD_some]
    rw [hbyte]
    exact Answers.pure _

include hr ht in
/-- Copying page by page gives the bytes in between, for at least as many steps as there are
bytes. -/
theorem copy_answers (n pos stop : Nat) (hn : stop - pos ≤ n) (hstop : stop ≤ t.text.size) :
    Answers r t (copy n pos stop) (t.subbytes pos stop) := by
  induction n generalizing pos with
  | zero =>
    have hempty : t.subbytes pos stop = [] := by
      rw [Resident.subbytes, Array.extract_empty_of_stop_le_start (by omega)]
    rw [hempty]
    exact Answers.pure _
  | succ n ih =>
    rw [copy]
    split
    · rename_i hle
      have hempty : t.subbytes pos stop = [] := by
        rw [Resident.subbytes, Array.extract_empty_of_stop_le_start hle]
      rw [hempty]
      exact Answers.pure _
    · rename_i hlt
      have hoffset : pos % pageSize < pageSize := Nat.mod_lt _ (by decide)
      -- each step copies up to the end of a page or of the range, and at least one byte
      have htake : 0 < min (stop - pos) (pageSize - pos % pageSize) := by omega
      refine (page_answers hr ht _).bind ((ih (pos + min (stop - pos) (pageSize - pos % pageSize))
        (by omega)).bind ?_)
      rw [extract_page ht (by omega) (by omega)]
      have hsplit :
          (t.text.extract pos (pos + min (stop - pos) (pageSize - pos % pageSize))).toList ++
          t.subbytes (pos + min (stop - pos) (pageSize - pos % pageSize)) stop =
            t.subbytes pos stop := by
        rw [Resident.subbytes, Resident.subbytes, ← Array.toList_append,
          Array.extract_append_extract, Nat.min_eq_left (Nat.le_add_right _ _),
          Nat.max_eq_right (by omega)]
      rw [hsplit]
      exact Answers.pure _

include hr ht in
/-- The bytes between two positions, from as many pages as they are on. -/
theorem subbytes_answers (start stop : Nat) :
    Answers r t (subbytes start stop) (t.subbytes start stop) := by
  refine Answers.get_bind fun s h ↦ ?_
  have hcut : t.subbytes start stop = t.subbytes start (min stop t.text.size) := by
    rw [Resident.subbytes, Resident.subbytes, Array.extract_eq_extract_right.mpr]
    omega
  rw [hcut, h.size_eq]
  exact copy_answers hr ht _ _ _ (Nat.le_refl _) (Nat.min_le_right _ _)

include hr ht in
/-- A byte string is compared in one page, or as a copy if it lies on several. -/
theorem matchesAt_answers (pos : Nat) (bytes : List UInt8) :
    Answers r t (matchesAt pos bytes) (t.matchesAt pos bytes) := by
  refine Answers.get_bind fun s h ↦ ?_
  rw [h.size_eq, Resident.matchesAt]
  split
  · rename_i hlt
    rw [decide_eq_false (by omega)]
    exact Answers.pure _
  · rename_i hle
    rw [decide_eq_true (by omega), Bool.true_and]
    dsimp only
    split
    · rename_i hpage
      refine (page_answers hr ht _).bind ?_
      rw [extract_page ht hpage (by omega)]
      exact Answers.pure _
    · exact (subbytes_answers hr ht pos _).bind (Answers.pure _)

include hr ht in
/-- A line number is counted from the newlines before the page and those in the page. -/
theorem lineNumber_answers (pos : Nat) : Answers r t (lineNumber pos) (t.lineNumber pos) := by
  refine Answers.get_bind fun s h ↦ ?_
  rw [h.size_eq]
  refine (page_answers hr ht _).bind ((linesBefore_answers hr ht
    (Nat.div_le_div_right (Nat.min_le_right _ _))).bind (Answers.get_bind fun s h ↦ ?_))
  have hcount : t.startLine + newlinesAbove t.text (min pos t.text.size / pageSize) +
      newlinesBefore (r.page (min pos t.text.size / pageSize)) (min pos t.text.size % pageSize) =
        t.lineNumber pos := by
    -- above the page by the line index, within it by counting
    have hoffset : min pos t.text.size % pageSize < pageSize := Nat.mod_lt _ (by decide)
    have hpos := div_mul_add_mod (min pos t.text.size)
    have hwithin := r.extract_text t.text.size (min pos t.text.size / pageSize) (a := 0)
      (Nat.le_of_lt hoffset)
      (by omega)
    rw [Nat.add_zero, hpos, ← ht] at hwithin
    rw [newlinesBefore, ← hwithin, newlinesAbove, Nat.add_assoc, ← Array.count_append,
      Array.extract_append_extract, Nat.min_eq_left (Nat.zero_le _), Nat.max_eq_right (by omega)]
    rw [Resident.lineNumber, Array.extract_eq_extract_right.mpr]
    omega
  rw [h.startLine_eq, hcount]
  exact Answers.pure _

end Operations

/-! ### The refinement -/

/-- A computation with a fixed answer agrees with one of the resident source that gives this
answer. -/
theorem Answers.agree {α : Type} {m : StateM Paged α} {n : StateM Resident α} {a : α}
    (hm : Answers r t m a) (hn : n t = (a, t)) : Agree (fun s t' ↦ t' = t ∧ Reads r t s) m n := by
  rintro s t' ⟨heq, h⟩
  obtain ⟨ha, hs⟩ := hm s h
  rw [heq, hn]
  exact ⟨ha, rfl, hs⟩

/-- A paged source that reads a text answers every operation as the resident source of the text. -/
theorem simulates_of_samePages (hr : r.SamePages) (ht : t.text = r.text t.text.size) :
    Buffer.Simulates fun (s : Paged) (t' : Resident) ↦ t' = t ∧ Reads r t s where
  name_eq := fun ⟨heq, h⟩ ↦ heq ▸ h.name_eq
  startLine_eq := fun ⟨heq, h⟩ ↦ heq ▸ h.startLine_eq
  length_eq := fun ⟨heq, h⟩ ↦ heq ▸ h.size_eq
  byteAt pos := (byteAt_answers hr ht pos).agree rfl
  matchesAt pos bytes := (matchesAt_answers hr ht pos bytes).agree rfl
  subbytes start stop := (subbytes_answers hr ht start stop).agree rfl
  lineNumber pos := (lineNumber_answers hr ht pos).agree rfl

/-- Opening a reader gives a source that reads the text of its pages. -/
theorem reads_ofReader_of_samePages (hr : r.SamePages) {size : Nat} (hsize : r.size = .ok size)
    (name : String) (capacity startLine : Nat) :
    ∃ s, ofReader name r capacity startLine = .ok s ∧
      Reads r { name, startLine, text := r.text size } s := by
  have ht : r.text size = r.text (r.text size).size := by rw [r.size_text]
  -- the state before the first page is loaded
  let unread : Paged := {
    name, startLine, reader := r, size, capacity
    lines := (Array.replicate (size / pageSize + 1) none).setIfInBounds 0 (some 0) }
  have hunread : Reads r { name, startLine, text := r.text size } unread := by
    constructor
    · rfl
    · rfl
    · rfl
    · exact (r.size_text size).symm
    · exact fun _ h ↦ nomatch h
    · exact fun _ h ↦ nomatch h
    · simp [unread]
    · intro index count h
      -- only the entry for the first page is known
      cases index with
      | zero =>
        obtain rfl : count = 0 := by simpa [linesBefore?, unread] using h.symm
        exact (newlinesAbove_zero _).symm
      | succ index =>
        simp only [linesBefore?, unread] at h
        rw [Array.getElem?_setIfInBounds_ne (Nat.succ_ne_zero index).symm,
          Array.getElem?_replicate] at h
        split at h <;> simp at h
  refine ⟨(page 0 unread).2, ?_, (page_answers hr ht 0 unread hunread).2⟩
  rw [ofReader, hsize]
  rfl

theorem simulates (hr : r.Steady) (ht : t.text = r.text t.text.size) :
    Buffer.Simulates fun (s : Paged) (t' : Resident) ↦ t' = t ∧ Reads r t s :=
  simulates_of_samePages hr.samePages ht

theorem reads_ofReader (hr : r.Steady) {size : Nat} (hsize : r.size = .ok size) (name : String)
    (capacity startLine : Nat) :
    ∃ s, ofReader name r capacity startLine = .ok s ∧
      Reads r { name, startLine, text := r.text size } s :=
  reads_ofReader_of_samePages hr.samePages hsize name capacity startLine

/-- A paged source over a steady reader answers every sequence of calls as the resident source of
the text that the pages of the reader make up: whatever the capacity, the reported length and the
order of the calls. -/
theorem answers_eq_resident (hr : r.Steady) {size : Nat} (hsize : r.size = .ok size) (name : String)
    (capacity startLine : Nat) :
    ∃ s, ofReader name r capacity startLine = .ok s ∧ ∀ calls : List Buffer.Call,
      (Buffer.answers calls s).1 =
        (Buffer.answers calls ({ name, startLine, text := r.text size } : Resident)).1 := by
  obtain ⟨s, hs, hreads⟩ := reads_ofReader hr hsize name capacity startLine
  refine ⟨s, hs, fun calls ↦ ?_⟩
  have ht : r.text size = r.text (r.text size).size := by rw [r.size_text]
  exact ((simulates hr ht).answers calls s _ ⟨rfl, hreads⟩).1

/-- Short reads, interruptions, a second page that cannot be read, a length that is too large and no
capacity. -/
def troubledScript : Script where
  text := #[0x61, newline, 0x62, newline, 0x63]
  size := some 10000
  chunk := some 2
  interrupts := true
  failFrom := pageSize
  failTo := 2 * pageSize

theorem answers_eq_resident_troubledScript :
    troubledScript.reader.Steady ∧ troubledScript.reader.size = .ok 10000 ∧
      ∃ s, ofReader "troubled" troubledScript.reader 0 1 = .ok s ∧ ∀ calls : List Buffer.Call,
        (Buffer.answers calls s).1 =
          (Buffer.answers calls ({
            name := "troubled", text := troubledScript.reader.text 10000 } : Resident)).1 :=
  ⟨troubledScript.steady, rfl,
    answers_eq_resident troubledScript.steady rfl "troubled" 0 1⟩

end ParsingMachine.Paged
