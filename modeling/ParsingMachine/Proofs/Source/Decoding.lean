import Mathlib.Data.List.Infix
import ParsingMachine.Proofs.Source.Excerpt
import ParsingMachine.Proofs.Text.Encoding

/-!
# Reading a text code point by code point

A client reads a text from its start to its end by asking for the code point at a position and for
the length of its encoding, and going on behind it (`Buffer.codePoints`). The decoder trusts the
first byte of each code point; on the encoding of a list of characters that is right. The walk then
stops at each place where a character starts, and at the end of the text, and reads the characters
in order.

What the decoder makes of one character follows from the values of its bytes (`Utf8.Form`); that the
bytes may come from more than one page does not matter, since a paged source reads as the text does
(`Buffer.ReadsAs`).

So the proof has nothing to do with pages. The walk is evaluated over a text in memory, by induction
on the characters that are left: the position is where the next of them starts, so the bytes that
are read there are those of this character and no others, whatever comes behind them
(`Resident.codePointsFrom_run`). The number of steps is bounded by the bytes that are left, each
step taking one at least. A walk over any other source of the text asks the same questions and gets
the same answers.

The positions are part of what is said. They are the lengths of the encodings of the beginnings of
the text, from the empty one to the whole, and there is one more of them than code points.

Texts that are not the encoding of characters are not spoken of. The decoder answers something for
them too, but what that is depends on bytes it does not check.

## Main statements

* `Utf8.Form.decode`: decoding the bytes of a character gives the character.
* `Resident.codePointsFrom_run`: from the start of a character on, the walk reads the characters.
* `Buffer.codePoints_encode`: this holds of the text in memory, and of every paged source over a
  reader that supplies it, wherever the boundaries of the pages fall and however few pages are kept.
-/

namespace ParsingMachine

/-! ### One character -/

namespace Utf8

/-- The first byte of a character announces how many bytes it takes, and decoding these bytes gives
the character. -/
theorem Form.decode {c : Char} {b : UInt8} {rest : List UInt8} (h : Form c (b :: rest)) :
    CodePoint.encodedLength b = rest.length + 1 ∧ CodePoint.decode b rest = c.toNat := by
  have hvalid := valid c
  have hlt (n : UInt8) : b < n ↔ b.toNat < n.toNat := UInt8.lt_iff_toNat_lt
  have hlength : CodePoint.encodedLength b = rest.length + 1 := by
    simp only [CodePoint.encodedLength, hlt, UInt8.reduceToNat]
    cases h with
    | one _ h₀ => grind
    | two _ _ h₀ _ => grind
    | three _ _ h₀ _ _ => grind
    | four _ h₀ _ _ _ => grind
  refine ⟨hlength, ?_⟩
  rw [CodePoint.decode, hlength]
  cases h with
  | one _ h₀ => exact h₀
  | two | three | four =>
    show CodePoint.extend _ _ = _
    simp only [CodePoint.extend, List.foldl_cons, List.foldl_nil]
    omega

end Utf8

/-! ### Reading a text in memory -/

namespace Buffer

variable {σ : Type} [Buffer σ]

/-- Goes from a position to the end of the input, at most `n` steps, each by the length of the code
point. Answers the positions where it stops, the last one included, and the code points between
them. -/
def codePointsFrom : Nat → Nat → StateM σ (List Nat × List Nat)
  | 0, pos => pure ([pos], [])
  | n + 1, pos => do
    if length (← get) ≤ pos then pure ([pos], [])
    else
      let c ← codePointAt pos
      let size ← codePointLength pos
      let (positions, points) ← codePointsFrom n (pos + size)
      return (pos :: positions, c :: points)

/-- Goes through the whole input. Each step takes at least one byte. -/
def codePoints : StateM σ (List Nat × List Nat) := do
  codePointsFrom (length (← get)) 0

theorem SameBytes.codePointsFrom {τ : Type} [Buffer τ] {rel : σ → τ → Prop} (h : SameBytes rel)
    (n pos : Nat) : Agree rel (Buffer.codePointsFrom n pos) (Buffer.codePointsFrom n pos) := by
  induction n generalizing pos with
  | zero => exact .pure _
  | succ n ih =>
    refine Agree.get_bind fun s t hst ↦ ?_
    rw [h.length_eq hst]
    exact .ite (.pure _) ((h.codePointAt pos).bind fun c ↦ (h.codePointLength pos).bind fun size ↦
      (ih (pos + size)).bind fun _ ↦ .pure _)

/-- The walk through the whole input takes the same steps over the same bytes. -/
theorem SameBytes.codePoints {τ : Type} [Buffer τ] {rel : σ → τ → Prop} (h : SameBytes rel) :
    Agree rel Buffer.codePoints Buffer.codePoints := by
  refine Agree.get_bind fun s t hst ↦ ?_
  rw [h.length_eq hst]
  exact h.codePointsFrom _ 0

end Buffer

namespace Resident

variable {t : Resident} {before after : List Char} {c : Char}

/-- At the start of a character, the bytes are those of the character. -/
theorem exists_encodeChar_eq (ht : t.text.toList = Utf8.encode (before ++ c :: after)) :
    ∃ rest, String.utf8EncodeChar c = t.byteAt (Utf8.encode before).length :: rest ∧
      (List.range' ((Utf8.encode before).length + 1) rest.length).map t.byteAt = rest := by
  have hsize : t.text.size = _ := (congrArg List.length ht).trans
    (Utf8.length_encode_append_cons before c after)
  have hbytes : (List.range' (Utf8.encode before).length (String.utf8EncodeChar c).length).map
      t.byteAt = _ := Excerpt.map_byteAt_range' (by omega)
  rw [ht, Utf8.encode_append, List.drop_left, Utf8.encode_cons, List.take_left] at hbytes
  obtain ⟨b, rest, hchar, -⟩ := Utf8.exists_encodeChar c
  rw [hchar, List.length_cons, List.range'_succ, List.map_cons, List.cons.injEq] at hbytes
  exact ⟨rest, by rw [hchar, hbytes.1], hbytes.2⟩

/-- At the start of a character, the code point is the character, and its length that of the bytes
of the character. -/
theorem codePointAt_run (ht : t.text.toList = Utf8.encode (before ++ c :: after)) :
    Buffer.codePointAt (Utf8.encode before).length t = (c.toNat, t) ∧
      Buffer.codePointLength (Utf8.encode before).length t =
        ((String.utf8EncodeChar c).length, t) := by
  obtain ⟨rest, hchar, hrest⟩ := exists_encodeChar_eq ht
  generalize (Utf8.encode before).length = pos at hchar hrest ⊢
  have hform := Utf8.form_encodeChar c
  rw [hchar] at hform ⊢
  obtain ⟨hlength, hdecode⟩ := hform.decode
  have hlead : Buffer.byteAt pos t = (t.byteAt pos, t) := rfl
  have hfollow : (List.range rest.length).mapM (fun i ↦ Buffer.byteAt (pos + 1 + i)) t =
      (rest, t) := by
    have hrun := Excerpt.mapM_byteAt_run (t := t) (List.range' (pos + 1) rest.length)
    rwa [hrest, List.range'_eq_map_range, List.mapM_map] at hrun
  constructor
  · rw [Buffer.codePointAt, bind_run hlead, hlength, Nat.add_sub_cancel, bind_run hfollow, hdecode]
    rfl
  · rw [Buffer.codePointLength, bind_run hlead, hlength]
    rfl

/-- From the start of a character on, the walk stops where the characters start, and reads them. -/
theorem codePointsFrom_run {n : Nat} (ht : t.text.toList = Utf8.encode (before ++ after))
    (hn : (Utf8.encode after).length ≤ n) :
    Buffer.codePointsFrom n (Utf8.encode before).length t =
      ((after.inits.map fun shown ↦ (Utf8.encode (before ++ shown)).length,
        after.map Char.toNat), t) := by
  have hget : (get : StateM Resident Resident) t = (t, t) := rfl
  induction after generalizing before n with
  | nil =>
    have hend : Buffer.length t ≤ (Utf8.encode before).length := by
      rw [← List.append_nil before, ← ht]
      exact Nat.le_refl _
    have hstop : Buffer.codePointsFrom n (Utf8.encode before).length t =
        (([(Utf8.encode before).length], []), t) := by
      cases n with
      | zero => rfl
      | succ n =>
        rw [Buffer.codePointsFrom, bind_run hget, if_pos hend]
        rfl
    simp [hstop]
  | cons c after ih =>
    have hchar := Utf8.length_encodeChar_pos c
    have hsize : Buffer.length t = _ := (congrArg List.length ht).trans
      (Utf8.length_encode_append_cons before c after)
    rw [Utf8.encode_cons, List.length_append] at hn
    cases n with
    | zero => omega
    | succ n =>
      obtain ⟨hpoint, hlength⟩ := codePointAt_run ht
      -- behind the character the walk goes on as from the longer beginning
      have hnext : (Utf8.encode before).length + (String.utf8EncodeChar c).length =
          (Utf8.encode (before ++ [c])).length := by simp
      have hfollows : t.text.toList = Utf8.encode ((before ++ [c]) ++ after) := by simpa using ht
      have hrest := ih hfollows (show _ ≤ n by omega)
      rw [Buffer.codePointsFrom, bind_run hget, if_neg (by omega), bind_run hpoint,
        bind_run hlength, hnext, bind_run hrest]
      show ((_ :: _, _ :: _), t) = _
      simp [Function.comp_def]

theorem codePoints_run {cs : List Char} (ht : t.text.toList = Utf8.encode cs) :
    (Buffer.codePoints t).1 =
      (cs.inits.map fun shown ↦ (Utf8.encode shown).length, cs.map Char.toNat) := by
  have hget : (get : StateM Resident Resident) t = (t, t) := rfl
  have hsize : (Utf8.encode cs).length ≤ Buffer.length t :=
    Nat.le_of_eq (congrArg List.length ht).symm
  have hrun := codePointsFrom_run (show t.text.toList = Utf8.encode ([] ++ cs) from ht) hsize
  rw [Buffer.codePoints, bind_run hget]
  exact congrArg Prod.fst hrun

end Resident

/-! ### Reading a text in pages -/

namespace Buffer

/-- A source that reads as the encoding of a list of characters is walked through from character to
character. -/
theorem ReadsAs.codePoints {σ : Type} [Buffer σ] {src : σ} {cs : List Char}
    (h : ReadsAs src (Utf8.encode cs).toArray) :
    (Buffer.codePoints src).1 =
      (cs.inits.map fun shown ↦ (Utf8.encode shown).length, cs.map Char.toNat) := by
  obtain ⟨rel, t, hrel, hsrc, htext⟩ := h
  rw [(hrel.codePoints src t hsrc).1]
  exact Resident.codePoints_run (by rw [htext])

/-- Decoding undoes encoding over whole texts. Stepping through the encoding of a list of characters
by the length of the code point, from position zero, stops exactly where the encoding of each
character starts and then at the end, and the code points read there are the characters in order:
for the text in memory, and for every paged source over a reader that supplies it. -/
theorem codePoints_encode (cs : List Char) (name : String) (startLine : Nat) :
    (codePoints ({ name, startLine, text := (Utf8.encode cs).toArray } : Resident)).1 =
        (cs.inits.map fun shown ↦ (Utf8.encode shown).length, cs.map Char.toNat) ∧
      ∀ (r : Reader) (capacity : Nat), r.Supplies (Utf8.encode cs).toArray →
        ∃ s, Paged.ofReader name r capacity startLine = .ok s ∧ (codePoints s).1 =
          (cs.inits.map fun shown ↦ (Utf8.encode shown).length, cs.map Char.toNat) := by
  refine ⟨(readsAs_resident _).codePoints, fun r capacity hr ↦ ?_⟩
  obtain ⟨s, hs, hreads⟩ := Paged.readsAs_of_supplies hr name capacity startLine
  exact ⟨s, hs, hreads.codePoints⟩

/-- All of the first page but its last byte is ASCII; the next character takes two bytes, one on
each page. -/
def straddling : List Char :=
  List.replicate 4095 'a' ++ ['é', '😀']

/-- Reads give one byte each, and every other attempt is interrupted. -/
def straddlingScript : Script where
  text := (Utf8.encode straddling).toArray
  chunk := some 1
  interrupts := true

/-- With one page in memory at a time, the character that lies on two pages is read as well, and so
is the character behind it. -/
theorem codePoints_encode_straddling :
    straddlingScript.reader.Supplies (Utf8.encode straddling).toArray ∧
      (Utf8.encode (List.replicate 4095 'a')).length + 1 = pageSize ∧
      ∃ s, Paged.ofReader "straddling" straddlingScript.reader 0 1 = .ok s ∧
        (codePoints s).1 = (straddling.inits.map fun shown ↦ (Utf8.encode shown).length,
          List.replicate 4095 0x61 ++ [0xE9, 0x1F600]) := by
  have hsupplies := straddlingScript.supplies rfl rfl (by decide) (by decide)
  have hlength : (Utf8.encode (List.replicate 4095 'a')).length + 1 = pageSize := by
    rw [Utf8.encode, List.length_flatMap, List.map_replicate, List.sum_replicate_nat]
    rfl
  have hpoints : straddling.map Char.toNat = List.replicate 4095 0x61 ++ [0xE9, 0x1F600] := by
    rw [straddling, List.map_append, List.map_replicate]
    rfl
  refine ⟨hsupplies, hlength, ?_⟩
  rw [← hpoints]
  exact (codePoints_encode straddling "straddling" 1).2 straddlingScript.reader 0 hsupplies

end Buffer

end ParsingMachine
