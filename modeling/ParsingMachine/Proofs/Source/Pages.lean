import ParsingMachine.Source.Load

/-!
# The pages of a reader

The pages of a reader make up a text of the reported length (`Reader.text`). It is what is read when
a page is the same whenever it is read (`Reader.SamePages`).

A reader is *steady* when its answer at a position does not change over time, interruptions apart.
Then a page is the same whenever it is read (`Reader.Steady.fill_congr`), although short reads and
interruptions may make the attempts differ. Scripted readers are steady.

A reader *supplies* a text when no read fails and every read gives some of the bytes of the text
that come next. How many may change from one attempt to the next, so such a reader need not be
steady; its pages are the same all the same (`Reader.Supplies.samePages`), and the text that they
make up is the text it supplies (`Reader.Supplies.text_eq`).

The two conditions are independent ways to the same property, and sources need only that property. A
steady reader may fail, always at the same positions, and may report a length that is not that of
what it holds; a page that cannot be read is filled with zeros, and so is what is missing of one.
The text of such a reader is a text like any other, with zeros in it.

Reading a page is a loop that goes on after short reads until the page is full. The loop is followed
from an arbitrary number of bytes that it has already, which is where an induction on the steps that
are left needs the bytes before to be right, and not only their number.

Interruptions are repeated a bounded number of times. How many there are may depend on the attempt,
so the answer that is found in the end was given at some later attempt, of which only its not being
an interruption is known (`Reader.exists_settle_eq`).

## Main statements

* `Reader.Steady.samePages`: the pages of a steady reader do not change.
* `Reader.Supplies.samePages`, `Reader.Supplies.text_eq`: nor do those of a reader of a text, and
  they make up the text.
* `Reader.extract_text`, `Reader.count_extract_succ`: the bytes and the newlines of a text, page by
  page.
* `Script.steady`, `Script.supplies`: readers that follow a script.
-/

namespace ParsingMachine

/-! ### Steady readers -/

namespace Reader

variable {r : Reader}

/-- Apart from interruptions, the answer at a position is always the same. -/
def Steady (r : Reader) : Prop :=
  ∀ a b position limit, r.answer a position limit ≠ .interrupted →
    r.answer b position limit ≠ .interrupted →
      r.answer a position limit = r.answer b position limit

/-- Attempting again ends with an answer that is no interruption. -/
theorem exists_settle_eq (position limit : Nat) (n attempt : Nat)
    (h : ∃ k ≤ n, r.answer (attempt + k) position limit ≠ .interrupted) :
    ∃ a, (r.settle position limit n attempt).1 = r.answer a position limit ∧
      r.answer a position limit ≠ .interrupted := by
  induction n generalizing attempt with
  | zero =>
    obtain ⟨k, hk, hne⟩ := h
    obtain rfl : k = 0 := by omega
    exact ⟨attempt, rfl, hne⟩
  | succ n ih =>
    by_cases hi : r.answer attempt position limit = .interrupted
    · obtain ⟨k, hk, hne⟩ := h
      have hpos : k ≠ 0 := by
        rintro rfl
        exact hne hi
      obtain ⟨j, rfl⟩ := Nat.exists_eq_succ_of_ne_zero hpos
      obtain ⟨a, ha⟩ := ih (attempt + 1) ⟨j, by omega, by rwa [Nat.add_assoc, Nat.add_comm 1]⟩
      refine ⟨a, ?_, ha.2⟩
      rw [← ha.1, settle, hi]
    · refine ⟨attempt, ?_, hi⟩
      rw [settle]
      split
      · contradiction
      · rfl

namespace Steady

/-- Repeating interrupted reads ends with the same answer, whenever it begins. -/
theorem settle_congr (h : r.Steady) (position limit a b : Nat) :
    (r.settle position limit r.patience a).1 = (r.settle position limit r.patience b).1 := by
  obtain ⟨a', ha, hna⟩ := exists_settle_eq position limit r.patience a (r.settles a position limit)
  obtain ⟨b', hb, hnb⟩ := exists_settle_eq position limit r.patience b (r.settles b position limit)
  rw [ha, hb]
  exact h a' b' position limit hna hnb

/-- What a read leaves does not depend on the attempts made before. -/
theorem fill_congr (h : r.Steady) (position limit n : Nat) (acc : Array UInt8) (a b : Nat) :
    (r.fill position limit n acc a).1 = (r.fill position limit n acc b).1 := by
  induction n generalizing acc a b with
  | zero => rfl
  | succ n ih =>
    have hs := h.settle_congr (position + acc.size) (limit - acc.size) a b
    by_cases hroom : limit - acc.size = 0
    · simp [fill, hroom]
    · simp only [fill, hroom, if_false]
      rcases ha : r.settle (position + acc.size) (limit - acc.size) r.patience a with ⟨x, a'⟩
      rcases hb : r.settle (position + acc.size) (limit - acc.size) r.patience b with ⟨y, b'⟩
      obtain rfl : x = y := by simpa [ha, hb] using hs
      cases x with
      | data bytes =>
        dsimp only
        split
        · rfl
        · exact ih _ a' b'
      | interrupted => rfl
      | failed => rfl

end Steady

/-- A read leaves at most as many bytes as were asked for. -/
theorem size_le_of_fill (position limit n : Nat) (acc : Array UInt8) (attempt : Nat)
    (hacc : acc.size ≤ limit) {bytes : Array UInt8}
    (h : (r.fill position limit n acc attempt).1 = some bytes) : bytes.size ≤ limit := by
  induction n generalizing acc attempt with
  | zero =>
    obtain rfl : acc = bytes := by simpa [fill] using h
    exact hacc
  | succ n ih =>
    by_cases hroom : limit - acc.size = 0
    · obtain rfl : acc = bytes := by simpa [fill, hroom] using h
      exact hacc
    · simp only [fill, hroom, if_false] at h
      rcases hs : r.settle (position + acc.size) (limit - acc.size) r.patience attempt with ⟨x, a⟩
      rw [hs] at h
      cases x with
      | data more =>
        dsimp only at h
        split at h
        · obtain rfl : acc = bytes := by simpa using h
          exact hacc
        · refine ih _ a ?_ h
          rw [Array.size_append, Array.size_extract]
          omega
      | interrupted => simp at h
      | failed => simp at h

/-- The page with an index, as reading it leaves it when some attempts were made before. -/
def reading (r : Reader) (index attempt : Nat) : Page :=
  Paged.padded (r.readAt (index * pageSize) pageSize attempt).1

/-- A reading has the size of a page, filled up if need be. -/
theorem size_reading (r : Reader) (index attempt : Nat) :
    (r.reading index attempt).size = pageSize := by
  have hle : ((r.readAt (index * pageSize) pageSize attempt).1.getD #[]).size ≤ pageSize := by
    rcases hb : (r.readAt (index * pageSize) pageSize attempt).1 with - | bytes
    · exact Nat.zero_le _
    · exact size_le_of_fill _ _ _ #[] attempt (Nat.zero_le _) hb
  rw [reading, Paged.padded, Array.size_append, Array.size_replicate]
  omega

/-- The page with an index, as reading it leaves it. -/
def page (r : Reader) (index : Nat) : Page :=
  Paged.padded (r.readAt (index * pageSize) pageSize 0).1

/-- The text of a length whose pages are the pages of the reader. -/
def text (r : Reader) (size : Nat) : Array UInt8 :=
  Array.ofFn fun i : Fin size ↦ (r.page (i / pageSize))[i.val % pageSize]?.getD endByte

theorem size_page (r : Reader) (index : Nat) : (r.page index).size = pageSize :=
  r.size_reading index 0

@[simp] theorem size_text (r : Reader) (size : Nat) : (r.text size).size = size :=
  Array.size_ofFn

/-- Within the text, a part of a page is the corresponding part of the text. -/
theorem extract_text (r : Reader) (size index : Nat) {a b : Nat} (hb : b ≤ pageSize)
    (h : index * pageSize + b ≤ size) :
    (r.text size).extract (index * pageSize + a) (index * pageSize + b) =
      (r.page index).extract a b := by
  have hpage := r.size_page index
  apply Array.ext
  · rw [Array.size_extract, Array.size_extract, size_text, hpage]
    omega
  · intro i h₁ h₂
    have hi : a + i < b := by
      rw [Array.size_extract, hpage] at h₂
      omega
    have hdiv : (index * pageSize + a + i) / pageSize = index := by
      rw [Nat.add_assoc, Nat.mul_comm, Nat.mul_add_div (by decide), Nat.div_eq_of_lt (by omega)]
      rfl
    have hmod : (index * pageSize + a + i) % pageSize = a + i := by
      rw [Nat.add_assoc, Nat.mul_comm, Nat.mul_add_mod, Nat.mod_eq_of_lt (by omega)]
    rw [Array.getElem_extract, Array.getElem_extract]
    simp only [text, Array.getElem_ofFn]
    rw [hdiv, hmod, Array.getElem?_eq_getElem (by omega)]
    rfl

/-- Newlines before a page: those before the page in front of it, and those of that page. -/
theorem count_extract_succ (r : Reader) {size index : Nat} (h : (index + 1) * pageSize ≤ size) :
    ((r.text size).extract 0 ((index + 1) * pageSize)).count newline =
      ((r.text size).extract 0 (index * pageSize)).count newline +
        Paged.newlines (r.page index) := by
  have hext := r.extract_text size index (a := 0) (Nat.le_refl pageSize)
    (show index * pageSize + pageSize ≤ size by rw [← Nat.succ_mul]; exact h)
  rw [Array.extract_eq_self_of_le (Nat.le_of_eq (r.size_page index)), Nat.add_zero,
    ← Nat.succ_mul] at hext
  rw [Paged.newlines, ← hext, ← Array.count_append, Array.extract_append_extract]
  congr 1
  rw [Nat.min_eq_left (Nat.zero_le _), Nat.max_eq_right (Nat.mul_le_mul_right _ (Nat.le_succ _))]

/-- A page is the same whenever it is read. -/
def SamePages (r : Reader) : Prop :=
  ∀ index attempt, (r.readAt (index * pageSize) pageSize attempt).1 =
    (r.readAt (index * pageSize) pageSize 0).1

/-- The pages of a steady reader are the same whenever they are read. -/
theorem Steady.samePages (h : r.Steady) : r.SamePages :=
  fun index attempt ↦ h.fill_congr (index * pageSize) pageSize pageSize #[] attempt 0

/-! ### Readers of a text -/

/-- Every read that is not interrupted gives bytes of a text from its position on, and at least one
if there is one and one was asked for. -/
structure Supplies (r : Reader) (text : Array UInt8) : Prop where
  /-- The reported length is that of the text. -/
  size_eq : r.size = .ok text.size
  /-- A read gives some of the bytes that come next. -/
  answer_eq : ∀ attempt position limit, r.answer attempt position limit ≠ .interrupted →
    ∃ n ≤ limit, (position < text.size → 0 < limit → 0 < n) ∧
      r.answer attempt position limit = .data (text.extract position (position + n))

namespace Supplies

variable {text : Array UInt8}

/-- Reading on gives all the bytes up to the limit, however the reads are cut. -/
theorem fill_eq (h : r.Supplies text) (position limit n : Nat) (acc : Array UInt8) (attempt : Nat)
    (hacc : acc = text.extract position (position + acc.size)) (hle : acc.size ≤ limit)
    (hn : limit - acc.size ≤ n) :
    (r.fill position limit n acc attempt).1 = some (text.extract position (position + limit)) := by
  induction n generalizing acc attempt with
  | zero =>
    have hsize : acc.size = limit := by omega
    rw [hsize] at hacc
    rw [← hacc]
    rfl
  | succ n ih =>
    by_cases hroom : limit - acc.size = 0
    · have hsize : acc.size = limit := by omega
      rw [hsize] at hacc
      simp only [fill, hroom, if_true]
      rw [← hacc]
    · obtain ⟨a, ha, hne⟩ := exists_settle_eq (position + acc.size) (limit - acc.size) r.patience
        attempt (r.settles attempt _ _)
      obtain ⟨k, hk, hpos, hdata⟩ := h.answer_eq a _ _ hne
      rcases hs : r.settle (position + acc.size) (limit - acc.size) r.patience attempt with ⟨x, a'⟩
      rw [hs] at ha
      obtain rfl : x = .data (text.extract (position + acc.size) (position + acc.size + k)) :=
        ha.trans hdata
      have hsize := congrArg Array.size hacc
      rw [Array.size_extract] at hsize
      simp only [fill, hroom, if_false, hs]
      split
      · -- nothing more is left of the text
        rename_i hempty
        rw [Array.isEmpty_iff_size_eq_zero, Array.size_extract] at hempty
        show some acc = _
        rw [hacc, Array.extract_eq_extract_right.mpr]
        omega
      · rename_i hempty
        rw [Array.isEmpty_iff_size_eq_zero, Array.size_extract] at hempty
        have hcut : (text.extract (position + acc.size) (position + acc.size + k)).extract 0
            (limit - acc.size) = text.extract (position + acc.size) (position + acc.size + k) := by
          refine Array.extract_eq_self_of_le ?_
          rw [Array.size_extract]
          omega
        have hjoin : acc ++ text.extract (position + acc.size) (position + acc.size + k) =
            text.extract position (position + acc.size + k) := by
          have happend : text.extract position (position + acc.size) ++
              text.extract (position + acc.size) (position + acc.size + k) = _ :=
            Array.extract_append_extract
          rwa [← hacc, Nat.min_eq_left (Nat.le_add_right _ _),
            Nat.max_eq_right (Nat.le_add_right _ _)] at happend
        rw [hcut, hjoin]
        refine ih _ a' ?_ ?_ ?_
        · rw [Array.size_extract, Array.extract_eq_extract_right.mpr]
          omega
        · rw [Array.size_extract]
          omega
        · rw [Array.size_extract]
          omega

theorem readAt_eq (h : r.Supplies text) (position limit attempt : Nat) :
    (r.readAt position limit attempt).1 = some (text.extract position (position + limit)) :=
  h.fill_eq position limit limit #[] attempt
    (Array.extract_empty_of_stop_le_start (Nat.le_refl _)).symm (Nat.zero_le _) (Nat.le_refl _)

/-- The pages of a reader of a text are those of the text. -/
theorem samePages (h : r.Supplies text) : r.SamePages :=
  fun _ _ ↦ (h.readAt_eq _ _ _).trans (h.readAt_eq _ _ _).symm

/-- The pages of a reader make up the text that it supplies. -/
theorem text_eq (h : r.Supplies text) : r.text text.size = text := by
  apply Array.ext
  · exact r.size_text _
  · intro i h₁ h₂
    have hoffset : i % pageSize < pageSize := Nat.mod_lt _ (by decide)
    have hdiv : i / pageSize * pageSize + i % pageSize = i := by
      rw [Nat.mul_comm]
      exact Nat.div_add_mod i pageSize
    have hbyte : i % pageSize < (text.extract (i / pageSize * pageSize)
        (i / pageSize * pageSize + pageSize)).size := by
      rw [Array.size_extract]
      omega
    simp only [Reader.text, Array.getElem_ofFn, page, h.readAt_eq, Paged.padded, Option.getD_some]
    rw [Array.getElem?_append_left hbyte, Array.getElem?_eq_getElem hbyte, Option.getD_some,
      Array.getElem_extract]
    simp only [hdiv]

end Supplies

end Reader

namespace Script

theorem answer_of_ne_interrupted (s : Script) {attempt position limit : Nat}
    (h : s.answer attempt position limit ≠ .interrupted) :
    s.answer attempt position limit =
      if s.failFrom ≤ position && position < s.failTo then .failed
      else .data (s.text.extract position (position + min limit (s.chunk.getD limit))) := by
  rw [answer] at h ⊢
  split at h
  · contradiction
  · rename_i hi
    rw [if_neg hi]

/-- Readers that follow a script are steady. -/
theorem steady (s : Script) : s.reader.Steady := by
  intro a b position limit ha hb
  exact (s.answer_of_ne_interrupted ha).trans (s.answer_of_ne_interrupted hb).symm

/-- A script without failures and wrong lengths makes a reader of its text, with short reads and
interruptions. -/
theorem supplies (s : Script) (hrefusal : s.refusal = none) (hsize : s.size = none)
    (hfail : s.failTo ≤ s.failFrom) (hchunk : s.chunk ≠ some 0) : s.reader.Supplies s.text where
  size_eq := by rw [reader, hrefusal, hsize, Option.getD_none]
  answer_eq attempt position limit hne := by
    refine ⟨min limit (s.chunk.getD limit), Nat.min_le_left _ _, fun _ hlimit ↦ ?_, ?_⟩
    · rcases hc : s.chunk with - | (- | n)
      · simpa using hlimit
      · exact absurd hc hchunk
      · exact Nat.lt_min.mpr ⟨hlimit, Nat.succ_pos n⟩
    · have hreads : (decide (s.failFrom ≤ position) && decide (position < s.failTo)) = false := by
        simp only [Bool.and_eq_false_imp, decide_eq_true_eq, decide_eq_false_iff_not]
        omega
      refine (s.answer_of_ne_interrupted hne).trans ?_
      rw [hreads]
      rfl

end Script

end ParsingMachine
