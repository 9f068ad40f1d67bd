import ParsingMachine.Proofs.Source.Excerpt
import ParsingMachine.Proofs.Text.Encoding

/-!
# The line of markers

The bytes of an excerpt are shown and underlined one by one. Of a text in UTF-8 an excerpt shows
whole characters (`Excerpt.CutFrom.exists_characters`), because the scans stop only where a
character starts. So both lines can be read character by character: a newline takes two columns, a
tab four, any other character one (`Excerpt.width`), and what stands below a character that is not
marked takes the same columns (`Excerpt.padding`).

`Excerpt.Underlines` says what the line of markers is to show. It does so for every position where a
character starts (`Buffer.underlines_excerpt`). At the end of the text the last byte is marked, so
the last character is underlined only if this is its only byte; otherwise the column of its first
byte comes before the caret (`Buffer.underlines_excerpt_end`).

The way from bytes to characters is taken once, for a single character: its bytes are shown as the
character is, and what stands below them is the padding of the character
(`Excerpt.flatMap_markers_encodeChar`). Bytes that continue a character have nothing below them,
which makes up for the columns that they do not have. The lines are then concatenations over
characters, and what is said of their lengths follows from equal widths.

The marked byte is the only one that is treated in another way, so a line of markers has three
parts, of which the first and the last are paddings. If the marked byte is the first one of its
character, the carets take its columns. If it is the last one of several, the first byte has got a
column already and the caret adds one more.

In the padding of a newline there are letters and no carets, so the carets of a line are those of
the marked character and their columns can be told from the line.

## Main statements

* `Excerpt.flatMap_shown_encodeChar`, `Excerpt.flatMap_markers_encodeChar`: what the bytes of one
  character become in either line.
* `Excerpt.underlines_of_first`, `Excerpt.underlines_of_last`: when a character is underlined.
* `Excerpt.CutFrom.exists_characters`: an excerpt shows whole characters.
* `Buffer.underlines_excerpt`: the excerpt at a position where a character starts.
* `Buffer.underlines_excerpt_end`: the excerpt at the end of the text.
-/

namespace ParsingMachine

namespace Excerpt

open Utf8 (encode)

/-! ### Columns -/

/-- How many columns a character takes. -/
def width (c : Char) : Nat :=
  if c = '\n' then 2 else if c = '\t' then 4 else 1

/-- How many columns a line of characters takes. -/
def columns : List Char → Nat
  | [] => 0
  | c :: cs => width c + columns cs

/-- How a character is shown. -/
def rendered (c : Char) : List Char :=
  if c = '\n' then ['\\', 'N'] else if c = '\t' then List.replicate 4 ' ' else [c]

/-- What stands below a character that is not marked. -/
def padding (c : Char) : List Char :=
  if c = '\n' then ['\\', 'N'] else List.replicate (width c) ' '

theorem width_of_ne {c : Char} (hnewline : c ≠ '\n') (htab : c ≠ '\t') : width c = 1 := by
  rw [width, if_neg hnewline, if_neg htab]

/-- A character takes the columns of its width. -/
theorem length_rendered (c : Char) : (rendered c).length = width c := by
  rw [rendered, width]
  split
  · rfl
  split
  · rfl
  · rfl

/-- What stands below it takes as many. -/
theorem length_padding (c : Char) : (padding c).length = width c := by
  rw [padding]
  split
  · rename_i hc
    rw [hc]
    rfl
  · exact List.length_replicate

/-- There are no carets below a character that is not marked. -/
theorem caret_not_mem_padding (c : Char) : '^' ∉ padding c := by
  rw [padding]
  split
  · decide
  · exact fun h ↦ absurd (List.eq_of_mem_replicate h) (by decide)

theorem length_flatMap_of_width {f : Char → List Char} (hf : ∀ c, (f c).length = width c)
    (cs : List Char) : (cs.flatMap f).length = columns cs := by
  induction cs with
  | nil => rfl
  | cons c cs ih => rw [List.flatMap_cons, List.length_append, hf, ih, columns]

theorem length_flatMap_rendered (cs : List Char) : (cs.flatMap rendered).length = columns cs :=
  length_flatMap_of_width length_rendered cs

theorem length_flatMap_padding (cs : List Char) : (cs.flatMap padding).length = columns cs :=
  length_flatMap_of_width length_padding cs

theorem columns_append (cs ds : List Char) : columns (cs ++ ds) = columns cs + columns ds := by
  simp only [← length_flatMap_padding, List.flatMap_append, List.length_append]

theorem caret_not_mem_flatMap_padding (cs : List Char) : '^' ∉ cs.flatMap padding := by
  rw [List.mem_flatMap]
  rintro ⟨c, -, hc⟩
  exact caret_not_mem_padding c hc

/-! ### The bytes of one character -/

section

variable {c : Char} {b : UInt8} {bytes : List UInt8}

/-- The bytes of a character other than newline and tab are neither newlines nor tabs. -/
theorem ne_of_mem_encodeChar (hnewline : c ≠ '\n') (htab : c ≠ '\t')
    (hb : b ∈ String.utf8EncodeChar c) : b ≠ newline ∧ b ≠ tab := by
  constructor
  · rintro rfl
    exact hnewline (Char.toNat_inj.mp (Utf8.toNat_eq_of_mem_encodeChar hb (by decide)).symm)
  · rintro rfl
    exact htab (Char.toNat_inj.mp (Utf8.toNat_eq_of_mem_encodeChar hb (by decide)).symm)

/-- Below a byte that is no newline and no tab there is a caret, nothing or a space. -/
theorem markers_of_ne (hb : b ≠ newline ∧ b ≠ tab) (marked : Bool) :
    markers b marked =
      if marked then ['^'] else if CodePoint.isContinuation b then [] else [' '] := by
  rw [markers, if_neg hb.1, if_neg hb.2]

/-- Bytes that continue a character are neither newlines nor tabs. -/
theorem ne_of_isContinuation (hb : CodePoint.isContinuation b = true) :
    b ≠ newline ∧ b ≠ tab := by
  constructor
  · rintro rfl
    cases hb
  · rintro rfl
    cases hb

/-- Nothing stands below bytes that continue a character. -/
theorem flatMap_markers_eq_nil (h : ∀ b ∈ bytes, CodePoint.isContinuation b = true) :
    bytes.flatMap (markers · false) = [] := by
  refine List.flatMap_eq_nil_iff.mpr fun b hb ↦ ?_
  rw [markers_of_ne (ne_of_isContinuation (h b hb)), if_neg Bool.false_ne_true, if_pos (h b hb)]

/-- Showing the bytes of a character shows the character. -/
theorem flatMap_shown_encodeChar (c : Char) :
    (String.utf8EncodeChar c).flatMap shown = encode (rendered c) := by
  by_cases hnewline : c = '\n'
  · rw [hnewline]
    rfl
  by_cases htab : c = '\t'
  · rw [htab]
    rfl
  have hshown : ∀ b ∈ String.utf8EncodeChar c, shown b = [b] := by
    intro b hb
    obtain ⟨hb₁, hb₂⟩ := ne_of_mem_encodeChar hnewline htab hb
    rw [shown, if_neg hb₁, if_neg hb₂]
  have hencode : encode (rendered c) = String.utf8EncodeChar c := by
    rw [rendered, if_neg hnewline, if_neg htab]
    simp
  rw [hencode]
  generalize String.utf8EncodeChar c = bytes at hshown
  induction bytes with
  | nil => rfl
  | cons b bytes ih =>
    obtain ⟨hb, hbytes⟩ := List.forall_mem_cons.mp hshown
    rw [List.flatMap_cons, hb, ih hbytes]
    rfl

/-- What stands below the bytes of a character that is not marked. -/
theorem flatMap_markers_encodeChar (c : Char) :
    (String.utf8EncodeChar c).flatMap (markers · false) = padding c := by
  by_cases hnewline : c = '\n'
  · rw [hnewline]
    rfl
  by_cases htab : c = '\t'
  · rw [htab]
    rfl
  obtain ⟨b, rest, hc, hb, hrest⟩ := Utf8.exists_encodeChar c
  have hne : b ≠ newline ∧ b ≠ tab :=
    ne_of_mem_encodeChar hnewline htab (by rw [hc]; exact List.mem_cons_self)
  rw [hc, List.flatMap_cons, flatMap_markers_eq_nil hrest, markers_of_ne hne, hb, padding,
    if_neg hnewline, width_of_ne hnewline htab]
  rfl

/-- When the first byte of a character is marked, carets stand below the whole character. -/
theorem markers_first (hc : String.utf8EncodeChar c = b :: bytes) :
    markers b true ++ bytes.flatMap (markers · false) = List.replicate (width c) '^' := by
  by_cases hnewline : c = '\n'
  · subst hnewline
    obtain ⟨rfl, rfl⟩ := List.cons.inj hc
    rfl
  by_cases htab : c = '\t'
  · subst htab
    obtain ⟨rfl, rfl⟩ := List.cons.inj hc
    rfl
  obtain ⟨b₀, rest, hc₀, -, hrest⟩ := Utf8.exists_encodeChar c
  obtain ⟨rfl, rfl⟩ := List.cons.inj (hc.symm.trans hc₀)
  have hne : b ≠ newline ∧ b ≠ tab :=
    ne_of_mem_encodeChar hnewline htab (by rw [hc]; exact List.mem_cons_self)
  rw [flatMap_markers_eq_nil hrest, markers_of_ne hne, width_of_ne hnewline htab]
  rfl

/-- When the last byte of several is marked, the caret stands behind the column of the first one. -/
theorem exists_markers_last (hlong : 0x80 ≤ c.toNat) :
    ∃ front b, String.utf8EncodeChar c = front ++ [b] ∧
      front.flatMap (markers · false) = [' '] ∧ markers b true = List.replicate (width c) '^' := by
  obtain ⟨hnewline, htab⟩ : c ≠ '\n' ∧ c ≠ '\t' := by
    constructor
    · rintro rfl
      exact absurd hlong (by decide)
    · rintro rfl
      exact absurd hlong (by decide)
  obtain ⟨b, rest, hc, hrest, hfirst, hcont⟩ := Utf8.exists_encodeChar_of_le hlong
  have hb : b ≠ newline ∧ b ≠ tab :=
    ne_of_mem_encodeChar hnewline htab (by rw [hc]; exact List.mem_cons_self)
  have hstarts : CodePoint.isContinuation b = false := by
    rw [Bool.eq_false_iff, ne_eq, Utf8.isContinuation_iff]
    omega
  refine ⟨b :: rest.dropLast, rest.getLast hrest, ?_, ?_, ?_⟩
  · rw [hc, List.cons_append, List.dropLast_concat_getLast]
  · rw [List.flatMap_cons, flatMap_markers_eq_nil fun x hx ↦ hcont x (List.dropLast_subset _ hx),
      markers_of_ne hb, hstarts]
    rfl
  · rw [markers_of_ne (ne_of_isContinuation (hcont _ (List.getLast_mem hrest))),
      width_of_ne hnewline htab]
    rfl

end

/-! ### The two lines -/

theorem flatMap_shown_encode (cs : List Char) :
    (encode cs).flatMap shown = encode (cs.flatMap rendered) := by
  rw [encode, encode, List.flatMap_assoc, List.flatMap_assoc]
  exact congrArg (List.flatMap · cs) (funext flatMap_shown_encodeChar)

/-- Below a list of characters stand their paddings. -/
theorem flatMap_markers_encode (cs : List Char) :
    (encode cs).flatMap (markers · false) = cs.flatMap padding := by
  rw [encode, List.flatMap_assoc]
  exact congrArg (List.flatMap · cs) (funext flatMap_markers_encodeChar)

/-- The line of text shows the characters. -/
theorem source_eq {x : Excerpt} {cs : List Char} (h : x.bytes = encode cs) :
    x.source = String.ofList (cs.flatMap rendered) := by
  rw [source, h, flatMap_shown_encode, Lenient.text_encode]

/-- Bytes that do not lie at the marked position. -/
theorem flatMap_zipIdx_eq {bytes : List UInt8} {n mark : Nat}
    (h : mark < n ∨ n + bytes.length ≤ mark) :
    (bytes.zipIdx n).flatMap (fun (b, i) ↦ markers b (i == mark)) =
      bytes.flatMap (markers · false) := by
  induction bytes generalizing n with
  | nil => rfl
  | cons b bytes ih =>
    rw [List.length_cons] at h
    have hne : (n == mark) = false := by
      rw [beq_eq_false_iff_ne]
      omega
    rw [List.zipIdx_cons, List.flatMap_cons, List.flatMap_cons, ih (by omega)]
    simp only [hne]

/-- The line of markers around the marked byte. -/
theorem toList_marker {x : Excerpt} {before after : List UInt8} {b : UInt8}
    (hbytes : x.bytes = before ++ b :: after) (hmark : x.mark = x.start + before.length) :
    x.marker.toList = before.flatMap (markers · false) ++
      (markers b true ++ after.flatMap (markers · false)) := by
  rw [marker, String.toList_ofList, hbytes, hmark, List.zipIdx_append, List.zipIdx_cons,
    List.flatMap_append, List.flatMap_cons, flatMap_zipIdx_eq (.inr (Nat.le_refl _)),
    flatMap_zipIdx_eq (.inl (Nat.lt_succ_self _))]
  show _ ++ (markers b (x.start + before.length == x.start + before.length) ++ _) = _
  rw [beq_self_eq_true]

/-- The line of markers around the marked byte of a character. -/
theorem toList_marker_of_encodeChar {x : Excerpt} {before after : List Char} {c : Char}
    {front back : List UInt8} {b : UInt8} (hbytes : x.bytes = encode (before ++ c :: after))
    (hc : String.utf8EncodeChar c = front ++ b :: back)
    (hmark : x.mark = x.start + (encode before).length + front.length) :
    x.marker.toList = (before.flatMap padding ++ front.flatMap (markers · false)) ++
      (markers b true ++ (back.flatMap (markers · false) ++ after.flatMap padding)) := by
  have hsplit : x.bytes = (encode before ++ front) ++ b :: (back ++ encode after) := by
    rw [hbytes, Utf8.encode_append, Utf8.encode_cons, hc]
    simp only [List.append_assoc, List.cons_append]
  have hlength : x.mark = x.start + (encode before ++ front).length := by
    rw [hmark, List.length_append, Nat.add_assoc]
  rw [toList_marker hsplit hlength, List.flatMap_append, List.flatMap_append,
    flatMap_markers_encode, flatMap_markers_encode]

/-! ### Underlining a character -/

/-- The line of markers underlines one character among those that are shown: it is as long as the
line of text, and there are carets below this character and nowhere else. When `shift` is not zero,
the carets stand this many columns too far to the right, and the line is this much longer. -/
structure Underlines (x : Excerpt) (before : List Char) (c : Char) (after : List Char)
    (shift : Nat) : Prop where
  /-- The bytes are those of whole characters. -/
  bytes_eq : x.bytes = encode (before ++ c :: after)
  /-- The line of text shows them. -/
  source_eq : x.source = String.ofList ((before ++ c :: after).flatMap rendered)
  /-- The line of text has the columns of the characters. -/
  length_source : x.source.length = columns (before ++ c :: after)
  /-- The line of markers is as long as the line of text. -/
  length_marker : x.marker.length = x.source.length + shift
  /-- The carets stand below the character. -/
  caret_iff : ∀ i, x.marker.toList[i]? = some '^' ↔
    columns before + shift ≤ i ∧ i < columns before + shift + width c

/-- A run of one item between others. -/
theorem getElem?_eq_some_iff_of_replicate {α : Type} {a : α} {before after : List α}
    (hbefore : a ∉ before) (hafter : a ∉ after) (n i : Nat) :
    (before ++ (List.replicate n a ++ after))[i]? = some a ↔
      before.length ≤ i ∧ i < before.length + n := by
  rcases Nat.lt_or_ge i before.length with hi | hi
  · rw [List.getElem?_append_left hi]
    exact iff_of_false (fun h ↦ hbefore (List.mem_of_getElem? h)) (by omega)
  rw [List.getElem?_append_right hi]
  rcases Nat.lt_or_ge (i - before.length) n with hn | hn
  · rw [List.getElem?_append_left (by rwa [List.length_replicate]), List.getElem?_replicate,
      if_pos hn]
    exact iff_of_true rfl (by omega)
  · rw [List.getElem?_append_right (by rwa [List.length_replicate])]
    exact iff_of_false (fun h ↦ hafter (List.mem_of_getElem? h)) (by omega)

/-- Padding, the shift, carets for one character, and padding again. -/
theorem underlines_of_toList_marker {x : Excerpt} {before after : List Char} {c : Char}
    {shift : Nat} (hbytes : x.bytes = encode (before ++ c :: after))
    (hmarker : x.marker.toList = (before.flatMap padding ++ List.replicate shift ' ') ++
      (List.replicate (width c) '^' ++ after.flatMap padding)) :
    x.Underlines before c after shift := by
  have hsource := source_eq hbytes
  have hlength : x.source.length = columns (before ++ c :: after) := by
    rw [hsource, String.length_ofList, length_flatMap_rendered]
  refine ⟨hbytes, hsource, hlength, ?_, fun i ↦ ?_⟩
  · rw [hlength, ← String.length_toList, hmarker]
    simp only [List.length_append, List.length_replicate, length_flatMap_padding, columns_append,
      columns]
    omega
  · have hbefore : '^' ∉ before.flatMap padding ++ List.replicate shift ' ' := by
      rw [List.mem_append, not_or]
      exact ⟨caret_not_mem_flatMap_padding before,
        fun h ↦ absurd (List.eq_of_mem_replicate h) (by decide)⟩
    rw [hmarker, getElem?_eq_some_iff_of_replicate hbefore (caret_not_mem_flatMap_padding after),
      List.length_append, length_flatMap_padding, List.length_replicate]

section

variable {x : Excerpt} {before after : List Char} {c : Char}

/-- A character whose first byte is marked is underlined. -/
theorem underlines_of_first (hbytes : x.bytes = encode (before ++ c :: after))
    (hmark : x.mark = x.start + (encode before).length) : x.Underlines before c after 0 := by
  obtain ⟨b, rest, hc, -, -⟩ := Utf8.exists_encodeChar c
  have hmarker := toList_marker_of_encodeChar hbytes (hc.trans (List.nil_append _).symm) hmark
  refine underlines_of_toList_marker hbytes ?_
  rw [hmarker, ← markers_first hc, List.append_assoc (markers b true)]
  rfl

/-- A character whose last byte is marked is underlined if this is its only byte; otherwise the
caret stands one column behind it. -/
theorem underlines_of_last (hbytes : x.bytes = encode (before ++ c :: after))
    (hmark : x.mark + 1 = x.start + (encode (before ++ [c])).length) :
    x.Underlines before c after (if c.toNat < 0x80 then 0 else 1) := by
  rw [Utf8.length_encode_append_cons, Utf8.encode_nil, List.length_nil] at hmark
  split
  · rename_i hascii
    obtain ⟨b, hc, -⟩ := Utf8.exists_encodeChar_of_lt hascii
    rw [hc, List.length_singleton] at hmark
    exact underlines_of_first hbytes (by omega)
  · rename_i hlong
    obtain ⟨front, b, hc, hfront, hb⟩ := exists_markers_last (Nat.le_of_not_lt hlong)
    rw [hc, List.length_append, List.length_singleton] at hmark
    have hmarker := toList_marker_of_encodeChar hbytes hc (by omega)
    refine underlines_of_toList_marker hbytes ?_
    rw [hmarker, hfront, hb]
    rfl

end

/-! ### Whole characters -/

section

variable {t : Resident} {cs : List Char} {mark start stop : Nat}

theorem getElem?_encode (ht : t.text.toList = encode cs) {i : Nat} (hi : i < t.text.size) :
    (encode cs)[i]? = some (t.byteAt i) := by
  rw [← ht, Array.getElem?_toList, Resident.getElem?_text hi]

/-- An excerpt starts where a character starts. -/
theorem OpensAt.starts (h : OpensAt t mark start) (ht : t.text.toList = encode cs)
    (hmark : mark < t.text.size) : Utf8.Starts cs start := by
  have hle := h.start_le
  rcases h.opens with rfl | ⟨hpos, hnewline⟩ | ⟨-, hascii⟩
  · exact Utf8.starts_zero cs
  · have hbyte : (encode cs)[start - 1]? = some newline := by
      rw [getElem?_encode ht (by omega), hnewline]
    have hstarts := Utf8.starts_succ_of_byte hbyte rfl
    rwa [Nat.sub_add_cancel (by omega)] at hstarts
  · exact Utf8.starts_of_byte (getElem?_encode ht (by omega))
      (Utf8.isContinuation_of_isAscii hascii)

/-- It stops where a character starts, or at the end of the text. -/
theorem ClosesAt.starts (h : ClosesAt t mark start stop) (ht : t.text.toList = encode cs) :
    Utf8.Starts cs stop := by
  rcases Nat.lt_or_eq_of_le h.stop_le with hlt | rfl
  · have hascii := h.closes.resolve_left (Nat.ne_of_lt hlt)
    exact Utf8.starts_of_byte (getElem?_encode ht hlt) (Utf8.isContinuation_of_isAscii hascii)
  · rw [← Array.length_toList, ht]
    exact Utf8.starts_length cs

end

section

variable {t : Resident} {x : Excerpt} {stop : Nat}

/-- An excerpt of a text shows whole characters: the one that is marked and some before and after
it. -/
theorem CutFrom.exists_characters {before after : List Char} {c : Char} (h : CutFrom t x stop)
    (ht : t.text.toList = encode (before ++ c :: after)) (hle : (encode before).length ≤ x.mark)
    (hlt : x.mark < (encode (before ++ [c])).length) :
    ∃ hidden shown shown' rest, before = hidden ++ shown ∧ after = shown' ++ rest ∧
      x.start = (encode hidden).length ∧ x.bytes = encode (shown ++ c :: shown') := by
  have hopens := h.toOpensAt.starts ht (Nat.lt_of_lt_of_le h.mark_lt h.stop_le)
  obtain ⟨hidden, shown, rfl, hstart⟩ := hopens.exists_before (Nat.lt_of_le_of_lt h.start_le hlt)
  obtain ⟨shown', rest, rfl, hstop⟩ :=
    (h.toClosesAt.starts ht).exists_after (Nat.lt_of_le_of_lt hle h.mark_lt)
  refine ⟨hidden, shown, shown', rest, rfl, rfl, hstart, ?_⟩
  have hsplit : hidden ++ shown ++ c :: (shown' ++ rest) =
      hidden ++ ((shown ++ c :: shown') ++ rest) := by
    simp only [List.append_assoc, List.cons_append]
  have hlength : stop - x.start = (encode (shown ++ c :: shown')).length := by
    rw [hstop, hstart, List.append_assoc, Utf8.encode_append, List.length_append,
      Nat.add_sub_cancel_left]
  rw [h.bytes_eq, ht, hsplit, Utf8.encode_append, Utf8.encode_append, hlength, hstart,
    List.drop_left, List.take_left]

/-- In ASCII text the scans stop as soon as they are far enough. -/
theorem CutFrom.near_and_narrow (h : CutFrom t x stop)
    (hascii : ∀ b ∈ t.text, CodePoint.isAscii b = true) :
    x.mark ≤ x.start + 61 ∧ x.bytes.length ≤ 79 := by
  have hbyte : ∀ i < t.text.size, CodePoint.isAscii (t.byteAt i) = true := fun i hi ↦
    hascii _ (Array.mem_of_getElem? (Resident.getElem?_text hi))
  have hmark := h.mark_lt
  have hstop := h.stop_le
  have hnear : x.mark ≤ x.start + 61 := by
    refine Nat.le_of_not_lt fun hfar ↦ ?_
    have hfirst := h.near (x.start + 1) (Nat.lt_succ_self _) (by rw [maxBefore]; omega)
    rw [hbyte _ (by omega)] at hfirst
    cases hfirst
  refine ⟨hnear, Nat.le_of_not_lt fun hwide ↦ ?_⟩
  rw [h.bytes_eq, List.length_take] at hwide
  have hlast := h.narrow (stop - 1) (by omega) (by omega) (by rw [maxWidth]; omega)
  rw [hbyte _ (by omega)] at hlast
  cases hlast

end

end Excerpt

namespace Buffer

open Utf8 (encode)

section

variable {σ : Type} [Buffer σ] {src : σ} {before after : List Char} {c : Char}

/-- What an excerpt of a text without zero bytes shows, and which position it marks. -/
theorem exists_characters_excerpt (hsrc : ReadsAs src (encode (before ++ c :: after)).toArray)
    (hnul : endByte ∉ encode (before ++ c :: after)) {pos mark : Nat}
    (hmark : mark = min pos ((encode (before ++ c :: after)).length - 1))
    (hle : (encode before).length ≤ mark) (hlt : mark < (encode (before ++ [c])).length) :
    (excerpt pos src).1.mark = mark ∧
      ∃ hidden shown shown' rest, before = hidden ++ shown ∧ after = shown' ++ rest ∧
        (excerpt pos src).1.start = (encode hidden).length ∧
        (excerpt pos src).1.bytes = encode (shown ++ c :: shown') ∧
        ((∀ d ∈ before ++ c :: after, d.toNat < 0x80) →
          mark ≤ (excerpt pos src).1.start + 61 ∧ (excerpt pos src).1.bytes.length ≤ 79) := by
  obtain ⟨t, ht, hresident⟩ := hsrc.exists_resident
  rw [(hresident pos).1]
  have htext : t.text.toList = encode (before ++ c :: after) := by rw [ht]
  have hsize : t.text.size = (encode (before ++ c :: after)).length := by rw [ht, List.size_toArray]
  have hc := Utf8.length_encodeChar_pos c
  have hlength := Utf8.length_encode_append_cons before c after
  obtain ⟨hx, stop, hcut⟩ := Excerpt.exists_cutFrom (t := t)
    (by rwa [← Array.mem_toList_iff, htext]) (by omega) pos
  rw [hsize, ← hmark] at hx
  obtain ⟨hidden, shown, shown', rest, hbefore, hafter, hstart, hbytes⟩ :=
    hcut.exists_characters htext (by rwa [hx]) (by rwa [hx])
  refine ⟨hx, hidden, shown, shown', rest, hbefore, hafter, hstart, hbytes, fun hascii ↦ ?_⟩
  rw [← hx]
  refine hcut.near_and_narrow fun b hb ↦ Utf8.isAscii_of_mem_encode hascii ?_
  rwa [← htext, Array.mem_toList_iff]

/-- Around a position where a character starts, whole characters are shown, and this character is
underlined. In ASCII text the excerpt is short. -/
theorem underlines_excerpt (hsrc : ReadsAs src (encode (before ++ c :: after)).toArray)
    (hnul : endByte ∉ encode (before ++ c :: after)) {pos : Nat}
    (hpos : pos = (encode before).length) :
    ∃ hidden shown shown' rest, before = hidden ++ shown ∧ after = shown' ++ rest ∧
      (excerpt pos src).1.start = (encode hidden).length ∧
      (excerpt pos src).1.Underlines shown c shown' 0 ∧
      ((∀ d ∈ before ++ c :: after, d.toNat < 0x80) →
        pos ≤ (excerpt pos src).1.start + 61 ∧ (excerpt pos src).1.bytes.length ≤ 79) := by
  have hc := Utf8.length_encodeChar_pos c
  have hlt : pos < (encode (before ++ [c])).length := by
    rw [Utf8.length_encode_append_cons]
    omega
  have hle : pos ≤ (encode (before ++ c :: after)).length - 1 := by
    rw [Utf8.length_encode_append_cons]
    omega
  obtain ⟨hmark, hidden, shown, shown', rest, rfl, rfl, hstart, hbytes, hshort⟩ :=
    exists_characters_excerpt hsrc hnul (Nat.min_eq_left hle).symm (Nat.le_of_eq hpos.symm) hlt
  rw [Utf8.encode_append, List.length_append, ← hstart] at hpos
  exact ⟨hidden, shown, shown', rest, rfl, rfl, hstart,
    Excerpt.underlines_of_first hbytes (hmark.trans hpos), hshort⟩

/-- A tab, an accented letter and a plain one, in reads of one byte each. -/
def tabbedScript : Script where
  text := #[tab, 0xC3, 0xA9, 0x62]
  chunk := some 1

/-- A character that takes two bytes, behind a tab that takes four columns. -/
theorem underlines_excerpt_tabbedScript :
    ∃ s, Paged.ofReader "tabbed" tabbedScript.reader 0 1 = .ok s ∧
      ReadsAs s (encode (['\t'] ++ 'é' :: ['b'])).toArray ∧
      endByte ∉ encode (['\t'] ++ 'é' :: ['b']) ∧ 1 = (encode ['\t']).length ∧
      ∃ hidden shown shown' rest, ['\t'] = hidden ++ shown ∧ ['b'] = shown' ++ rest ∧
        (excerpt 1 s).1.start = (encode hidden).length ∧
        (excerpt 1 s).1.Underlines shown 'é' shown' 0 := by
  have htext : (encode (['\t'] ++ 'é' :: ['b'])).toArray = tabbedScript.text := rfl
  have hnul : endByte ∉ encode (['\t'] ++ 'é' :: ['b']) := by decide
  obtain ⟨s, hs, hreads⟩ := Paged.readsAs_of_supplies
    (tabbedScript.supplies rfl rfl (by decide) (by decide)) "tabbed" 0 1
  rw [← htext] at hreads
  obtain ⟨hidden, shown, shown', rest, hbefore, hafter, hstart, hunder, -⟩ :=
    underlines_excerpt hreads hnul rfl
  exact ⟨s, hs, hreads, hnul, rfl, hidden, shown, shown', rest, hbefore, hafter, hstart, hunder⟩

/-- At the end of the text the last character is underlined if it is ASCII. If it is any other, the
caret stands one column behind it, and the line of markers is one column too long. -/
theorem underlines_excerpt_end (hsrc : ReadsAs src (encode (before ++ [c])).toArray)
    (hnul : endByte ∉ encode (before ++ [c])) {pos : Nat}
    (hpos : (encode (before ++ [c])).length ≤ pos) :
    ∃ hidden shown, before = hidden ++ shown ∧
      (excerpt pos src).1.start = (encode hidden).length ∧
      (excerpt pos src).1.Underlines shown c [] (if c.toNat < 0x80 then 0 else 1) := by
  have hc := Utf8.length_encodeChar_pos c
  have hlength := Utf8.length_encode_append_cons before c []
  have hlast := (Nat.min_eq_right (Nat.le_trans (Nat.sub_le _ 1) hpos)).symm
  obtain ⟨hmark, hidden, shown, shown', rest, rfl, hafter, hstart, hbytes, -⟩ :=
    exists_characters_excerpt hsrc hnul hlast (by omega) (by omega)
  obtain ⟨rfl, -⟩ := List.append_eq_nil_iff.mp hafter.symm
  refine ⟨hidden, shown, rfl, hstart, Excerpt.underlines_of_last hbytes ?_⟩
  rw [hmark, hstart, ← List.length_append, ← Utf8.encode_append, ← List.append_assoc]
  omega

/-- A plain letter and an accented one. -/
def accentedLast : Resident where
  text := #[0x62, 0xC3, 0xA9]

/-- The caret behind the last character, which takes two bytes. -/
theorem underlines_excerpt_end_accentedLast :
    ReadsAs accentedLast (encode (['b'] ++ ['é'])).toArray ∧ endByte ∉ encode (['b'] ++ ['é']) ∧
      (encode (['b'] ++ ['é'])).length ≤ 3 ∧
      ∃ hidden shown, ['b'] = hidden ++ shown ∧
        (excerpt 3 accentedLast).1.start = (encode hidden).length ∧
        (excerpt 3 accentedLast).1.Underlines shown 'é' [] 1 := by
  have hnul : endByte ∉ encode (['b'] ++ ['é']) := by decide
  have hreads : ReadsAs accentedLast (encode (['b'] ++ ['é'])).toArray :=
    readsAs_resident accentedLast
  exact ⟨hreads, hnul, by decide, underlines_excerpt_end hreads hnul (by decide)⟩

/-- One accented letter. -/
def accented : Resident where
  text := #[0xC3, 0xA9]

/-- At the end of the one letter the caret stands behind it. -/
theorem excerpt_end_accented :
    accented.text.toList = encode ['é'] ∧ endByte ∉ encode ['é'] ∧
      accented.text.size ≤ 2 ∧ (excerpt 2 accented).1.source = "é" ∧
      (excerpt 2 accented).1.marker = " ^" :=
  ⟨rfl, by decide, by decide, by decide, by decide⟩

end

end Buffer

end ParsingMachine
