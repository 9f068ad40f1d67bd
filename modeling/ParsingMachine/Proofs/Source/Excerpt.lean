import ParsingMachine.Proofs.Source.Refinement

/-!
# The part of a text that is shown

An excerpt is cut out of the text by two scans from the marked position, one back and one forth.
`Excerpt.CutFrom` says where they stop and what they have passed, in terms of positions and bytes.

The scan back stops behind a newline, but it does not look at the first byte of the text. So an
excerpt stays on its line (`Buffer.start_excerpt_lt_iff`) unless its line is the second one, the
first one is empty, and the scan comes to the start of the text.

All of this holds for any source that reads as the text (`Buffer.ReadsAs`), in memory or in pages.

Both scans are recursions on a position that are also left when enough has been passed. What is
stated of them is where they stop and that they have not passed such a place before, and it is
stated from an arbitrary position up to which nothing of the kind was passed. So the induction goes
through as it stands (`Excerpt.exists_excerptStart`, `Excerpt.exists_excerptStop`), and the whole
excerpt is the case in which nothing was passed yet.

Far enough from the mark a scan stops at an ASCII byte only. That keeps characters of several bytes
together, and it is the reason why an excerpt may be wider than the limits say.

A byte that is read behind the end of a text is zero, as is a zero byte in the text. Texts are
therefore asked not to contain any, so that the end of the text can be told from its bytes.

## Main statements

* `Excerpt.exists_cutFrom`: what is shown around a position.
* `Resident.lineFrom_lineStart`: where the line of a position starts.
* `Excerpt.OpensAt.lt_iff`: when the scan back passes the start of the line.
* `Buffer.start_excerpt_lt_iff`: when an excerpt begins before the line of its position.
-/

namespace ParsingMachine

/-! ### Sources of a text -/

namespace Buffer

/-- A source reads as a text: asked about its bytes, now and after any other questions, it answers
as the text in memory does. -/
def ReadsAs {σ : Type} [Buffer σ] (src : σ) (text : Array UInt8) : Prop :=
  ∃ (rel : σ → Resident → Prop) (t : Resident), SameBytes rel ∧ rel src t ∧ t.text = text

/-- A text in memory reads as itself. -/
theorem readsAs_resident (t : Resident) : ReadsAs t t.text :=
  ⟨_, t, (Resident.simulates_self t).toSameBytes, ⟨rfl, rfl⟩, rfl⟩

/-- A source that reads as a text shows the excerpts of the text, and its lines start where those of
the text do. -/
theorem ReadsAs.exists_resident {σ : Type} [Buffer σ] {src : σ} {text : Array UInt8}
    (h : ReadsAs src text) :
    ∃ t : Resident, t.text = text ∧ ∀ pos, (excerpt pos src).1 = (excerpt pos t).1 ∧
      (lineStart pos src).1 = (lineStart pos t).1 := by
  obtain ⟨rel, t, hrel, hsrc, htext⟩ := h
  exact ⟨t, htext, fun pos ↦
    ⟨(hrel.excerpt pos src t hsrc).1, (hrel.lineStart pos src t hsrc).1⟩⟩

end Buffer

/-- Opening a reader gives a source that reads as the text of its pages. -/
theorem Paged.readsAs_ofReader {r : Reader} (hr : r.SamePages) {size : Nat}
    (hsize : r.size = .ok size) (name : String) (capacity startLine : Nat) :
    ∃ s, ofReader name r capacity startLine = .ok s ∧ Buffer.ReadsAs s (r.text size) := by
  obtain ⟨s, hs, hreads⟩ := reads_ofReader_of_samePages hr hsize name capacity startLine
  have ht : r.text size = r.text (r.text size).size := by rw [r.size_text]
  exact ⟨s, hs, _, _, (simulates_of_samePages hr ht).toSameBytes, ⟨rfl, hreads⟩, rfl⟩

/-- Opening a reader of a text gives a source that reads as the text. -/
theorem Paged.readsAs_of_supplies {r : Reader} {text : Array UInt8} (h : r.Supplies text)
    (name : String) (capacity startLine : Nat) :
    ∃ s, ofReader name r capacity startLine = .ok s ∧ Buffer.ReadsAs s text := by
  have hreads := readsAs_ofReader h.samePages h.size_eq name capacity startLine
  rwa [h.text_eq] at hreads

namespace Resident

variable {t : Resident}

/-- Behind the end of the text the bytes are zero. -/
theorem byteAt_of_size_le {pos : Nat} (h : t.text.size ≤ pos) : t.byteAt pos = endByte := by
  rw [byteAt, Array.getElem?_eq_none h, Option.getD_none]

theorem getElem?_text {pos : Nat} (h : pos < t.text.size) : t.text[pos]? = some (t.byteAt pos) := by
  rw [byteAt, Array.getElem?_eq_getElem h, Option.getD_some]

/-- A text without zero bytes reads as zero only at its end. -/
theorem byteAt_eq_endByte_iff (hnul : endByte ∉ t.text) {pos : Nat} :
    t.byteAt pos = endByte ↔ t.text.size ≤ pos := by
  refine ⟨fun h ↦ Nat.le_of_not_lt fun hlt ↦ hnul ?_, byteAt_of_size_le⟩
  have hmem := Array.mem_of_getElem? (getElem?_text hlt)
  rwa [h] at hmem

/-! ### Line starts -/

/-- The start of a line: between it and a position is no newline, and before it, if anything, a
newline. -/
structure LineFrom (t : Resident) (pos start : Nat) : Prop where
  /-- The line does not start behind the position. -/
  le : start ≤ pos
  /-- The line starts with the text or behind a newline. -/
  opens : start = 0 ∨ 0 < start ∧ t.byteAt (start - 1) = newline
  /-- Between the start of the line and the position is no newline. -/
  passed : ∀ i, start ≤ i → i < pos → t.byteAt i ≠ newline

/-- The scan back to a newline stops where a line starts. -/
theorem exists_afterNewline (t : Resident) (pos : Nat) :
    ∃ start, Buffer.afterNewline pos t = (start, t) ∧ t.LineFrom pos start := by
  induction pos with
  | zero => exact ⟨0, rfl, Nat.le_refl 0, .inl rfl, fun _ _ h ↦ nomatch h⟩
  | succ pos ih =>
    have hbyte : Buffer.byteAt pos t = (t.byteAt pos, t) := rfl
    rw [Buffer.afterNewline, bind_run hbyte]
    by_cases hb : t.byteAt pos = newline
    · rw [if_pos hb]
      exact ⟨pos + 1, rfl, Nat.le_refl _, .inr ⟨Nat.succ_pos pos, hb⟩, fun i h h' ↦ by omega⟩
    · obtain ⟨start, hrun, hline⟩ := ih
      rw [if_neg hb]
      refine ⟨start, hrun, Nat.le_succ_of_le hline.le, hline.opens, fun i h h' ↦ ?_⟩
      rcases Nat.lt_or_eq_of_le (Nat.le_of_lt_succ h') with hi | rfl
      · exact hline.passed i h hi
      · exact hb

/-- The line of a position starts where the scan back from it stops. -/
theorem lineFrom_lineStart (t : Resident) {pos : Nat} (hpos : pos ≤ t.text.size) :
    t.LineFrom pos (Buffer.lineStart pos t).1 := by
  obtain ⟨start, hrun, hline⟩ := exists_afterNewline t (min pos t.text.size)
  rw [Nat.min_eq_left hpos] at hrun hline
  show t.LineFrom pos (Buffer.afterNewline (min pos t.text.size) t).1
  rw [Nat.min_eq_left hpos, hrun]
  exact hline

end Resident

/-! ### The two scans -/

namespace Excerpt

/-- Where an excerpt with a given mark starts, and what the scan back to there has passed. -/
structure OpensAt (t : Resident) (mark start : Nat) : Prop where
  /-- The excerpt does not start behind its mark. -/
  start_le : start ≤ mark
  /-- It starts with the text, behind a newline that is not the first byte, or at an ASCII byte far
  enough from the mark. -/
  opens : start = 0 ∨ 1 < start ∧ t.byteAt (start - 1) = newline ∨
    maxBefore < mark - start ∧ CodePoint.isAscii (t.byteAt start) = true
  /-- No newline was passed, but the first byte was not looked at. -/
  passed : ∀ i, 0 < i → start ≤ i → i < mark → t.byteAt i ≠ newline
  /-- No ASCII byte far from the mark was passed. -/
  near : ∀ i, start < i → maxBefore < mark - i → CodePoint.isAscii (t.byteAt i) = false

/-- Where an excerpt stops, and what the scan forth to there has passed. -/
structure ClosesAt (t : Resident) (mark start stop : Nat) : Prop where
  /-- The mark is shown. -/
  mark_lt : mark < stop
  /-- The excerpt does not go beyond the text. -/
  stop_le : stop ≤ t.text.size
  /-- It stops at the end of the text or at an ASCII byte, as a newline is. -/
  closes : stop = t.text.size ∨ CodePoint.isAscii (t.byteAt stop) = true
  /-- No ASCII byte far from the start was passed. -/
  narrow : ∀ i, mark < i → i < stop → maxWidth < i - start → CodePoint.isAscii (t.byteAt i) = false

/-- The scan back, from a position up to which it has passed what it may pass. -/
theorem exists_excerptStart (t : Resident) {mark n : Nat} (hle : n ≤ mark)
    (hpassed : ∀ i, n < i → i < mark → t.byteAt i ≠ newline)
    (hnear : ∀ i, n < i → maxBefore < mark - i → CodePoint.isAscii (t.byteAt i) = false) :
    ∃ start, Buffer.excerptStart mark n t = (start, t) ∧ OpensAt t mark start := by
  induction n with
  | zero => exact ⟨0, rfl, Nat.zero_le _, .inl rfl, fun i h _ ↦ hpassed i h, hnear⟩
  | succ n ih =>
    have hbyte : Buffer.byteAt (n + 1) t = (t.byteAt (n + 1), t) := rfl
    rw [Buffer.excerptStart, Resident.bind_run hbyte]
    by_cases hline : t.byteAt (n + 1) = newline ∧ n + 1 < mark
    · rw [if_pos hline]
      exact ⟨n + 2, rfl, hline.2, .inr (.inl ⟨by omega, hline.1⟩),
        fun i _ hi ↦ hpassed i (by omega), fun i hi ↦ hnear i (by omega)⟩
    rw [if_neg hline]
    have hbody : ∀ i, n < i → i < mark → t.byteAt i ≠ newline := by
      intro i hi himark
      rcases Nat.lt_or_eq_of_le hi with hlt | rfl
      · exact hpassed i hlt himark
      · exact fun hb ↦ hline ⟨hb, himark⟩
    by_cases hfar : maxBefore < mark - (n + 1) ∧ CodePoint.isAscii (t.byteAt (n + 1)) = true
    · rw [if_pos hfar]
      exact ⟨n + 1, rfl, hle, .inr (.inr hfar), fun i _ hi ↦ hbody i (by omega), hnear⟩
    rw [if_neg hfar]
    refine ih (by omega) hbody fun i hi himark ↦ ?_
    rcases Nat.lt_or_eq_of_le hi with hlt | rfl
    · exact hnear i hlt himark
    · exact Bool.eq_false_iff.mpr fun hb ↦ hfar ⟨himark, hb⟩

/-- The scan forth, from a position up to which it has passed what it may pass. -/
theorem exists_excerptStop (t : Resident) (start : Nat) {mark n stop : Nat} (hlt : mark < stop)
    (hsize : stop + n = t.text.size)
    (hnarrow : ∀ i, mark < i → i < stop → maxWidth < i - start →
      CodePoint.isAscii (t.byteAt i) = false) :
    ∃ stop', Buffer.excerptStop start n stop t = (stop', t) ∧ ClosesAt t mark start stop' := by
  induction n generalizing stop with
  | zero => exact ⟨stop, rfl, hlt, Nat.le_of_eq hsize, .inl hsize, hnarrow⟩
  | succ n ih =>
    have hbyte : Buffer.byteAt stop t = (t.byteAt stop, t) := rfl
    rw [Buffer.excerptStop, Resident.bind_run hbyte]
    by_cases hend : t.byteAt stop = endByte ∨ t.byteAt stop = newline ∨
        maxWidth < stop - start ∧ CodePoint.isAscii (t.byteAt stop) = true
    · rw [if_pos hend]
      have hascii : CodePoint.isAscii (t.byteAt stop) = true := by
        rcases hend with hb | hb | hb
        · rw [hb]
          rfl
        · rw [hb]
          rfl
        · exact hb.2
      exact ⟨stop, rfl, hlt, by omega, .inr hascii, hnarrow⟩
    rw [if_neg hend]
    refine ih (by omega) (by omega) fun i hi hstop hfar ↦ ?_
    rcases Nat.lt_or_eq_of_le (Nat.le_of_lt_succ hstop) with hpassed | rfl
    · exact hnarrow i hi hpassed hfar
    · exact Bool.eq_false_iff.mpr fun hb ↦ hend (.inr (.inr ⟨hfar, hb⟩))

/-! ### The whole excerpt -/

/-- An excerpt shows the bytes of the text between two positions around its mark, where the scans
stop. -/
structure CutFrom (t : Resident) (x : Excerpt) (stop : Nat) : Prop extends
    OpensAt t x.mark x.start, ClosesAt t x.mark x.start stop where
  /-- The bytes between. -/
  bytes_eq : x.bytes = (t.text.toList.drop x.start).take (stop - x.start)

variable {t : Resident}

/-- Without zero bytes the marked position is the given one or that of the last byte. -/
theorem lastByte_run (hnul : endByte ∉ t.text) (hsize : 0 < t.text.size) (pos : Nat) :
    Buffer.lastByte pos t = (min pos (t.text.size - 1), t) := by
  induction pos with
  | zero =>
    rw [Nat.zero_min]
    rfl
  | succ pos ih =>
    have hbyte : Buffer.byteAt (pos + 1) t = (t.byteAt (pos + 1), t) := rfl
    rw [Buffer.lastByte, Resident.bind_run hbyte]
    have hend : t.byteAt (pos + 1) = endByte ↔ t.text.size ≤ pos + 1 :=
      Resident.byteAt_eq_endByte_iff hnul
    split
    · rename_i hb
      have hle := hend.mp hb
      rw [ih, Nat.min_eq_right (by omega), Nat.min_eq_right (by omega)]
    · rename_i hb
      rw [Nat.min_eq_left (by have := mt hend.mpr hb; omega)]
      rfl

theorem mapM_byteAt_run (positions : List Nat) :
    (positions.mapM Buffer.byteAt : StateM Resident _) t = (positions.map t.byteAt, t) := by
  induction positions with
  | nil => rfl
  | cons pos positions ih =>
    have hbyte : Buffer.byteAt pos t = (t.byteAt pos, t) := rfl
    rw [List.mapM_cons, Resident.bind_run hbyte, Resident.bind_run ih]
    rfl

theorem map_byteAt_range' {start n : Nat} (h : start + n ≤ t.text.size) :
    (List.range' start n).map t.byteAt = (t.text.toList.drop start).take n := by
  apply List.ext_getElem
  · rw [List.length_map, List.length_range', List.length_take, List.length_drop,
      Array.length_toList]
    omega
  · intro i hi hi'
    simp only [List.length_map, List.length_range'] at hi
    have hbyte : t.text[start + i]? = some (t.byteAt (start + i)) :=
      Resident.getElem?_text (by omega)
    rw [Array.getElem?_eq_getElem (by omega)] at hbyte
    simpa using (Option.some.inj hbyte).symm

/-- What is shown around a position of a text without zero bytes. -/
theorem exists_cutFrom (hnul : endByte ∉ t.text) (hsize : 0 < t.text.size) (pos : Nat) :
    (Buffer.excerpt pos t).1.mark = min pos (t.text.size - 1) ∧
      ∃ stop, CutFrom t (Buffer.excerpt pos t).1 stop := by
  generalize hmark : min pos (t.text.size - 1) = mark
  have hlt : mark < t.text.size := by omega
  obtain ⟨start, hstart, hopens⟩ := exists_excerptStart t (Nat.le_refl mark)
    (fun i h h' ↦ by omega) fun i h h' ↦ by omega
  have hlast := lastByte_run hnul hsize pos
  have hget : (get : StateM Resident Resident) t = (t, t) := rfl
  rw [hmark] at hlast
  obtain ⟨stop, hrun, hcloses⟩ : ∃ stop, Buffer.excerpt pos t =
      (⟨start, mark, (List.range' start (stop - start)).map t.byteAt⟩, t) ∧
      ClosesAt t mark start stop := by
    rw [Buffer.excerpt, Resident.bind_run hget, Resident.bind_run hlast, Resident.bind_run hstart]
    show ∃ stop, (if mark + 1 < t.text.size then _ else _ : StateM Resident Excerpt) t = _ ∧ _
    split
    · obtain ⟨stop, hstop, hcloses⟩ := exists_excerptStop t start (n := t.text.size - (mark + 1))
        (Nat.lt_succ_self mark) (by omega) fun i h h' ↦ by omega
      exact ⟨stop, (Resident.bind_run hstop _).trans (Resident.bind_run (mapM_byteAt_run _) _),
        hcloses⟩
    · have hpure : (pure t.text.size : StateM Resident Nat) t = (t.text.size, t) := rfl
      exact ⟨t.text.size,
        (Resident.bind_run hpure _).trans (Resident.bind_run (mapM_byteAt_run _) _),
        hlt, Nat.le_refl _, .inl rfl, fun i h h' ↦ by omega⟩
  rw [hrun]
  refine ⟨rfl, stop, { hopens, hcloses with bytes_eq := map_byteAt_range' ?_ }⟩
  have := hopens.start_le
  have := hcloses.mark_lt
  have := hcloses.stop_le
  omega

/-- The scan back passes the start of the line only if the line starts at the second position, and
then it goes on to the first one. -/
theorem OpensAt.lt_iff {mark start line : Nat} (h : OpensAt t mark start)
    (hline : t.LineFrom mark line) :
    start < line ↔ line = 1 ∧
      ∀ i, 0 < i → i + maxBefore < mark → CodePoint.isAscii (t.byteAt i) = false := by
  have := hline.le
  constructor
  · intro hlt
    obtain rfl | ⟨hpos, hnewline⟩ := hline.opens
    · omega
    -- the newline before the line was passed, so it is the one byte that is not looked at
    have hfirst : ¬0 < line - 1 := fun hpos ↦
      h.passed (line - 1) hpos (by omega) (by omega) hnewline
    exact ⟨by omega, fun i hi hfar ↦ h.near i (by omega) (by omega)⟩
  · rintro ⟨rfl, hnear⟩
    rcases h.opens with rfl | ⟨hlt, hnewline⟩ | ⟨hfar, hascii⟩
    · exact Nat.one_pos
    · exact absurd hnewline (hline.passed (start - 1) (by omega) (by have := h.start_le; omega))
    · rcases Nat.eq_zero_or_pos start with rfl | hpos
      · exact Nat.one_pos
      · rw [hnear start hpos (by omega)] at hascii
        cases hascii

end Excerpt

namespace Buffer

/-- An excerpt begins before the line of its position in one case only: the line is the second one,
the first one is empty, and no ASCII byte of the line lies more than sixty bytes before the
position. It then shows the newline of the first line, and nothing else that is before the line. -/
theorem start_excerpt_lt_iff {σ : Type} [Buffer σ] {src : σ} {text : Array UInt8}
    (hsrc : ReadsAs src text) (hnul : endByte ∉ text) {pos : Nat} (hpos : pos < text.size) :
    (excerpt pos src).1.start < (lineStart pos src).1 ↔
      (lineStart pos src).1 = 1 ∧ ∀ i b, 0 < i → i + Excerpt.maxBefore < pos →
        text[i]? = some b → CodePoint.isAscii b = false := by
  obtain ⟨t, rfl, hresident⟩ := hsrc.exists_resident
  obtain ⟨hexcerpt, hlineStart⟩ := hresident pos
  obtain ⟨hmark, stop, hcut⟩ := Excerpt.exists_cutFrom hnul (by omega) pos
  have hline := t.lineFrom_lineStart (Nat.le_of_lt hpos)
  have hopens := hcut.toOpensAt
  rw [hmark, Nat.min_eq_left (by omega)] at hopens
  rw [hexcerpt, hlineStart, hopens.lt_iff hline]
  refine and_congr_right fun _ ↦ forall_congr' fun i ↦ ?_
  constructor
  · intro h b hi hfar hb
    rw [Resident.getElem?_text (by omega)] at hb
    cases hb
    exact h hi hfar
  · intro h hi hfar
    exact h _ hi hfar (Resident.getElem?_text (by omega))

/-- The lines `ab` and `cd`. -/
def twoLines : Resident where
  text := #[0x61, 0x62, newline, 0x63, 0x64]

theorem start_excerpt_lt_iff_twoLines :
    ReadsAs twoLines twoLines.text ∧ endByte ∉ twoLines.text ∧ 4 < twoLines.text.size ∧
      ¬(excerpt 4 twoLines).1.start < (lineStart 4 twoLines).1 := by
  have hreads := readsAs_resident twoLines
  have hnul : endByte ∉ twoLines.text := by simp [twoLines, endByte, newline]
  refine ⟨hreads, hnul, by decide, fun hlt ↦ ?_⟩
  have hline := ((start_excerpt_lt_iff hreads hnul (by decide)).mp hlt).1
  revert hline
  decide

/-- An empty line and the line `ab`. -/
def emptyFirstLine : Resident where
  text := #[newline, 0x61, 0x62]

/-- The line of `a` starts at the second position, but the excerpt around `a` begins with the
newline before it. -/
theorem excerpt_emptyFirstLine :
    endByte ∉ emptyFirstLine.text ∧ 1 < emptyFirstLine.text.size ∧
      (lineStart 1 emptyFirstLine).1 = 1 ∧
      (excerpt 1 emptyFirstLine).1 = ⟨0, 1, [newline, 0x61, 0x62]⟩ :=
  ⟨by simp [emptyFirstLine, endByte, newline], by decide, by decide, by decide⟩

end Buffer

end ParsingMachine
