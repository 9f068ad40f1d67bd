import ParsingMachine.Text.CodePoint
import ParsingMachine.Text.Lenient

/-!
# Characters as bytes

The bytes of a text in UTF-8 (`Utf8.encode`), as far as reading them needs it. Two readers look at
these bytes later: one that walks over code points and one that puts in replacement characters.

What a character looks like is said once (`Utf8.Form`): how many bytes it takes, and the value of
each of them. There is one constructor for each number of bytes, and every fact about a single
character is a case split over these four, with arithmetic left. So nothing outside this module
computes with the bits of a character.

From the forms follows that every byte of a character but the first one continues it
(`Utf8.exists_encodeChar`). A byte that continues nothing therefore stands where a character starts,
and one after an ASCII byte does so too. Where a character starts is not a matter of bytes but of a
division of the text (`Utf8.Starts`), so that whoever cuts a text at such a place has the characters
on both sides at hand.

Reading with replacement characters keeps a state: the bits read so far, how many bytes are still
owed, and the range of the next one. On the bytes of a character each byte lies in its range, also
the second bytes whose range is narrower after some first bytes; the states passed through are those
of the four forms, and no replacement is ever put in.

## Main statements

* `Utf8.form_encodeChar`: every character has one of the four forms.
* `Utf8.starts_of_byte`, `Utf8.starts_succ_of_byte`: where a byte continues nothing, and after an
  ASCII byte, a character starts.
* `Utf8.Starts.exists_before`, `Utf8.Starts.exists_after`: a place where a character starts divides
  the text before or after a given character.
* `Lenient.charsFrom_encodeChar`: the bytes of a character are read as this character.
* `Lenient.chars_encode`: reading the bytes of a text gives back its characters.
-/

namespace ParsingMachine

namespace Utf8

/-- The bytes of a list of characters, as a `String` of them holds them (`List.utf8Encode`). -/
def encode (cs : List Char) : List UInt8 :=
  cs.flatMap String.utf8EncodeChar

@[simp] theorem encode_nil : encode [] = [] := rfl

@[simp] theorem encode_cons (c : Char) (cs : List Char) :
    encode (c :: cs) = String.utf8EncodeChar c ++ encode cs :=
  List.flatMap_cons

@[simp] theorem encode_append (cs ds : List Char) : encode (cs ++ ds) = encode cs ++ encode ds :=
  List.flatMap_append

/-! ### One character -/

/-- The bytes of a character by their values: four forms, one for each number of bytes. -/
inductive Form (c : Char) : List UInt8 → Prop
  | one {b₀ : UInt8} (h : c.toNat < 0x80) (h₀ : b₀.toNat = c.toNat) : Form c [b₀]
  | two {b₀ b₁ : UInt8} (h : 0x80 ≤ c.toNat) (h' : c.toNat < 0x800)
    (h₀ : b₀.toNat = 0xC0 + c.toNat / 0x40) (h₁ : b₁.toNat = 0x80 + c.toNat % 0x40) :
    Form c [b₀, b₁]
  | three {b₀ b₁ b₂ : UInt8} (h : 0x800 ≤ c.toNat) (h' : c.toNat < 0x10000)
    (h₀ : b₀.toNat = 0xE0 + c.toNat / 0x1000) (h₁ : b₁.toNat = 0x80 + c.toNat / 0x40 % 0x40)
    (h₂ : b₂.toNat = 0x80 + c.toNat % 0x40) : Form c [b₀, b₁, b₂]
  | four {b₀ b₁ b₂ b₃ : UInt8} (h : 0x10000 ≤ c.toNat)
    (h₀ : b₀.toNat = 0xF0 + c.toNat / 0x40000) (h₁ : b₁.toNat = 0x80 + c.toNat / 0x1000 % 0x40)
    (h₂ : b₂.toNat = 0x80 + c.toNat / 0x40 % 0x40) (h₃ : b₃.toNat = 0x80 + c.toNat % 0x40) :
    Form c [b₀, b₁, b₂, b₃]

/-- No character lies among the surrogates or above the last code point. -/
theorem valid (c : Char) : c.toNat < 0xD800 ∨ 0xDFFF < c.toNat ∧ c.toNat < 0x110000 :=
  c.valid

/-- The bytes of a character have the form for its code point. -/
theorem form_encodeChar (c : Char) : Form c (String.utf8EncodeChar c) := by
  have hvalid := valid c
  have toNat_ofNat (n : Nat) : (UInt8.ofNat n).toNat = n % 0x100 := UInt8.toNat_ofNat'
  simp only [String.utf8EncodeChar]
  generalize hn : c.val.toNat = n
  change c.toNat = n at hn
  split
  · refine .one (by omega) ?_
    rw [toNat_ofNat]
    omega
  split
  · refine .two (by omega) (by omega) ?_ ?_ <;> rw [toNat_ofNat] <;> omega
  split
  · refine .three (by omega) (by omega) ?_ ?_ ?_ <;> rw [toNat_ofNat] <;> omega
  · refine .four (by omega) ?_ ?_ ?_ ?_ <;> rw [toNat_ofNat] <;> omega

/-- An ASCII byte by its value. -/
theorem isAscii_iff {b : UInt8} : CodePoint.isAscii b = true ↔ b.toNat < 0x80 := by
  rw [CodePoint.isAscii, decide_eq_true_iff, UInt8.lt_iff_toNat_lt]
  rfl

/-- A byte that continues a character, by its value. -/
theorem isContinuation_iff {b : UInt8} :
    CodePoint.isContinuation b = true ↔ 0x80 ≤ b.toNat ∧ b.toNat < 0xC0 := by
  rw [CodePoint.isContinuation, Bool.and_eq_true, decide_eq_true_iff, decide_eq_true_iff,
    UInt8.le_iff_toNat_le, UInt8.lt_iff_toNat_lt]
  rfl

/-- An ASCII byte continues nothing. -/
theorem isContinuation_of_isAscii {b : UInt8} (hascii : CodePoint.isAscii b = true) :
    CodePoint.isContinuation b = false := by
  rw [isAscii_iff] at hascii
  rw [Bool.eq_false_iff, ne_eq, isContinuation_iff]
  omega

/-- An ASCII character is one byte, its own value. -/
theorem exists_encodeChar_of_lt {c : Char} (hc : c.toNat < 0x80) :
    ∃ b, String.utf8EncodeChar c = [b] ∧ b.toNat = c.toNat := by
  have hform := form_encodeChar c
  generalize String.utf8EncodeChar c = bytes at hform ⊢
  cases hform with
  | one h h₀ => exact ⟨_, rfl, h₀⟩
  | two h | three h | four h => omega

/-- Any other character is a first byte above ASCII and then, at least once, bytes that continue
it. -/
theorem exists_encodeChar_of_le {c : Char} (hc : 0x80 ≤ c.toNat) :
    ∃ b rest, String.utf8EncodeChar c = b :: rest ∧ rest ≠ [] ∧ 0xC0 ≤ b.toNat ∧
      ∀ x ∈ rest, CodePoint.isContinuation x = true := by
  have hform := form_encodeChar c
  generalize String.utf8EncodeChar c = bytes at hform ⊢
  cases hform with
  | one h => omega
  | two _ _ h₀ h₁ =>
    refine ⟨_, _, rfl, List.cons_ne_nil _ _, by omega, ?_⟩
    simp only [List.forall_mem_cons, isContinuation_iff]
    exact ⟨by omega, List.forall_mem_nil _⟩
  | three _ _ h₀ h₁ h₂ =>
    refine ⟨_, _, rfl, List.cons_ne_nil _ _, by omega, ?_⟩
    simp only [List.forall_mem_cons, isContinuation_iff]
    exact ⟨by omega, by omega, List.forall_mem_nil _⟩
  | four _ h₀ h₁ h₂ h₃ =>
    refine ⟨_, _, rfl, List.cons_ne_nil _ _, by omega, ?_⟩
    simp only [List.forall_mem_cons, isContinuation_iff]
    exact ⟨by omega, by omega, by omega, List.forall_mem_nil _⟩

/-- The first byte of a character continues nothing, and all others continue it. -/
theorem exists_encodeChar (c : Char) :
    ∃ b rest, String.utf8EncodeChar c = b :: rest ∧ CodePoint.isContinuation b = false ∧
      ∀ x ∈ rest, CodePoint.isContinuation x = true := by
  have not_continuation {b : UInt8} (hb : b.toNat < 0x80 ∨ 0xC0 ≤ b.toNat) :
      CodePoint.isContinuation b = false := by
    rw [Bool.eq_false_iff, ne_eq, isContinuation_iff]
    omega
  rcases Nat.lt_or_ge c.toNat 0x80 with hc | hc
  · obtain ⟨b, hb, hval⟩ := exists_encodeChar_of_lt hc
    exact ⟨b, [], hb, not_continuation (by omega), List.forall_mem_nil _⟩
  · obtain ⟨b, rest, hb, -, hval, hrest⟩ := exists_encodeChar_of_le hc
    exact ⟨b, rest, hb, not_continuation (.inr hval), hrest⟩

/-- No character is written without bytes. -/
theorem length_encodeChar_pos (c : Char) : 0 < (String.utf8EncodeChar c).length := by
  rw [String.length_utf8EncodeChar]
  exact c.utf8Size_pos

theorem length_encode_append_cons (before : List Char) (c : Char) (after : List Char) :
    (encode (before ++ c :: after)).length =
      (encode before).length + (String.utf8EncodeChar c).length + (encode after).length := by
  rw [encode_append, encode_cons, List.length_append, List.length_append, Nat.add_assoc]

/-- A byte in the range of ASCII is an ASCII character. -/
theorem toNat_eq_of_mem_encodeChar {c : Char} {b : UInt8} (hb : b ∈ String.utf8EncodeChar c)
    (hascii : b.toNat < 0x80) : b.toNat = c.toNat := by
  rcases Nat.lt_or_ge c.toNat 0x80 with hc | hc
  · obtain ⟨b₀, hb₀, hval⟩ := exists_encodeChar_of_lt hc
    rw [hb₀, List.mem_singleton] at hb
    rw [hb, hval]
  · obtain ⟨b₀, rest, hb₀, -, hval, hrest⟩ := exists_encodeChar_of_le hc
    rw [hb₀, List.mem_cons] at hb
    rcases hb with rfl | hb
    · omega
    · have := isContinuation_iff.mp (hrest b hb)
      omega

/-- A text of ASCII characters has ASCII bytes only. -/
theorem isAscii_of_mem_encode {cs : List Char} (hcs : ∀ c ∈ cs, c.toNat < 0x80) {b : UInt8}
    (hb : b ∈ encode cs) : CodePoint.isAscii b = true := by
  obtain ⟨c, hc, hb⟩ := List.mem_flatMap.mp hb
  obtain ⟨b₀, hb₀, hval⟩ := exists_encodeChar_of_lt (hcs c hc)
  rw [hb₀, List.mem_singleton] at hb
  rw [isAscii_iff, hb, hval]
  exact hcs c hc

/-! ### Where characters start -/

/-- A character starts at a position, or the text ends there. -/
def Starts (cs : List Char) (i : Nat) : Prop :=
  ∃ before after, cs = before ++ after ∧ (encode before).length = i

/-- A text starts with a character, unless it is empty. -/
theorem starts_zero (cs : List Char) : Starts cs 0 :=
  ⟨[], cs, rfl, rfl⟩

/-- The end of a text counts as a place where a character starts. -/
theorem starts_length (cs : List Char) : Starts cs (encode cs).length :=
  ⟨cs, [], (List.append_nil cs).symm, rfl⟩

/-- Where a byte stands that continues nothing, a character starts. -/
theorem starts_of_byte {cs : List Char} {i : Nat} {b : UInt8} (hb : (encode cs)[i]? = some b)
    (hcont : CodePoint.isContinuation b = false) : Starts cs i := by
  induction cs generalizing i with
  | nil => cases hb
  | cons c cs ih =>
    obtain ⟨b₀, rest, hc, -, hrest⟩ := exists_encodeChar c
    cases i with
    | zero => exact starts_zero _
    | succ i =>
      rw [encode_cons, hc, List.cons_append, List.getElem?_cons_succ] at hb
      rcases Nat.lt_or_ge i rest.length with hi | hi
      · -- inside the character every byte continues it
        rw [List.getElem?_append_left hi] at hb
        rw [hrest b (List.mem_of_getElem? hb)] at hcont
        cases hcont
      · rw [List.getElem?_append_right hi] at hb
        obtain ⟨before, after, rfl, hlength⟩ := ih hb
        refine ⟨c :: before, after, rfl, ?_⟩
        rw [encode_cons, hc, List.length_append, List.length_cons]
        omega

/-- After an ASCII byte a character starts. -/
theorem starts_succ_of_byte {cs : List Char} {i : Nat} {b : UInt8} (hb : (encode cs)[i]? = some b)
    (hascii : CodePoint.isAscii b = true) : Starts cs (i + 1) := by
  obtain ⟨before, after, rfl, rfl⟩ := starts_of_byte hb (isContinuation_of_isAscii hascii)
  rw [isAscii_iff] at hascii
  rw [encode_append, List.getElem?_append_right (Nat.le_refl _), Nat.sub_self] at hb
  cases after with
  | nil => cases hb
  | cons c after =>
    rcases Nat.lt_or_ge c.toNat 0x80 with hc | hc
    · obtain ⟨b₀, hb₀, -⟩ := exists_encodeChar_of_lt hc
      refine ⟨before ++ [c], after, by simp, ?_⟩
      simp [hb₀]
    · obtain ⟨b₀, rest, hb₀, -, hval, -⟩ := exists_encodeChar_of_le hc
      rw [encode_cons, hb₀] at hb
      obtain rfl : b₀ = b := by simpa using hb
      omega

section Around

variable {before after : List Char} {c : Char} {i : Nat}

/-- Where a character starts that does not lie behind another one, the text before that one is
divided. -/
theorem Starts.exists_before (h : Starts (before ++ c :: after) i)
    (hi : i < (encode (before ++ [c])).length) :
    ∃ hidden shown, before = hidden ++ shown ∧ i = (encode hidden).length := by
  obtain ⟨hidden, rest, heq, rfl⟩ := h
  rcases List.append_eq_append_iff.mp heq with ⟨shown, rfl, hrest⟩ | ⟨shown, rfl, hrest⟩
  · cases shown with
    | nil => exact ⟨before, [], by simp, by simp⟩
    | cons d shown =>
      -- the character itself would be divided off
      obtain ⟨rfl, -⟩ := List.cons.inj hrest
      rw [length_encode_append_cons, length_encode_append_cons, encode_nil, List.length_nil] at hi
      omega
  · exact ⟨hidden, shown, rfl, rfl⟩

/-- Where a character starts behind another one, the text after that one is divided. -/
theorem Starts.exists_after (h : Starts (before ++ c :: after) i)
    (hi : (encode before).length < i) :
    ∃ shown rest, after = shown ++ rest ∧ i = (encode (before ++ c :: shown)).length := by
  obtain ⟨front, rest, heq, rfl⟩ := h
  rcases List.append_eq_append_iff.mp heq with ⟨shown, rfl, hrest⟩ | ⟨shown, rfl, hrest⟩
  · cases shown with
    | nil =>
      rw [List.append_nil] at hi
      exact absurd hi (Nat.lt_irrefl _)
    | cons d shown =>
      obtain ⟨rfl, rfl⟩ := List.cons.inj hrest
      exact ⟨shown, rest, rfl, rfl⟩
  · rw [encode_append, List.length_append] at hi
    omega

end Around

end Utf8

namespace Lenient

/-! ### Reading the bytes of a text -/

theorem charsFrom_cons (state : State) (b : UInt8) (bytes : List UInt8) :
    charsFrom state (b :: bytes) = (step state b).1 ++ charsFrom (step state b).2 bytes := by
  cases state <;> rfl

/-- A byte in the range of the next one is taken. -/
theorem step_some {p : Pending} {b : UInt8} (hlow : p.low.toNat ≤ b.toNat)
    (hhigh : b.toNat ≤ p.high.toNat) :
    step (some p) b = match p.owed with
      | 0 => ([Char.ofNat (p.bits * 64 + b.toNat % 64)], none)
      | owed + 1 => ([], some ⟨p.bits * 64 + b.toNat % 64, owed, 0x80, 0xBF⟩) := by
  have hrange : (decide (p.low ≤ b) && decide (b ≤ p.high)) = true := by
    rw [Bool.and_eq_true, decide_eq_true_iff, decide_eq_true_iff]
    exact ⟨UInt8.le_iff_toNat_le.mpr hlow, UInt8.le_iff_toNat_le.mpr hhigh⟩
  exact if_pos hrange

/-- The last byte that is owed completes the character. -/
theorem charsFrom_owed_zero {bits : Nat} {b : UInt8} (hlow : 0x80 ≤ b.toNat)
    (hhigh : b.toNat ≤ 0xBF) (bytes : List UInt8) :
    charsFrom (some ⟨bits, 0, 0x80, 0xBF⟩) (b :: bytes) =
      Char.ofNat (bits * 64 + b.toNat % 64) :: charsFrom none bytes := by
  rw [charsFrom_cons, step_some (p := ⟨bits, 0, 0x80, 0xBF⟩) hlow hhigh]
  rfl

/-- Any other byte that is owed adds six bits. -/
theorem charsFrom_owed_succ {bits owed : Nat} {low high b : UInt8} (hlow : low.toNat ≤ b.toNat)
    (hhigh : b.toNat ≤ high.toNat) (bytes : List UInt8) :
    charsFrom (some ⟨bits, owed + 1, low, high⟩) (b :: bytes) =
      charsFrom (some ⟨bits * 64 + b.toNat % 64, owed, 0x80, 0xBF⟩) bytes := by
  rw [charsFrom_cons, step_some (p := ⟨bits, owed + 1, low, high⟩) hlow hhigh]
  rfl

/-- The first byte of two. -/
theorem lead_two {b : UInt8} (h : 0xC2 ≤ b.toNat) (h' : b.toNat < 0xE0) :
    lead b = ([], some ⟨b.toNat % 0x20, 0, 0x80, 0xBF⟩) := by
  simp only [lead]
  rw [if_neg (by omega), if_neg (by omega), if_pos h']

/-- The first byte of three. -/
theorem lead_three {b : UInt8} (h : 0xE0 ≤ b.toNat) (h' : b.toNat < 0xF0) :
    lead b = ([], some ⟨b.toNat % 0x10, 1, if b.toNat = 0xE0 then 0xA0 else 0x80,
      if b.toNat = 0xED then 0x9F else 0xBF⟩) := by
  simp only [lead]
  rw [if_neg (by omega), if_neg (by omega), if_neg (by omega)]
  by_cases hE0 : b.toNat = 0xE0
  · rw [if_pos hE0, if_pos hE0, if_neg (by omega)]
  by_cases hED : b.toNat = 0xED
  · rw [if_neg hE0, if_pos hED, if_neg hE0, if_pos hED]
  · rw [if_neg hE0, if_neg hED, if_pos h', if_neg hE0, if_neg hED]

/-- The first byte of four. -/
theorem lead_four {b : UInt8} (h : 0xF0 ≤ b.toNat) (h' : b.toNat ≤ 0xF4) :
    lead b = ([], some ⟨b.toNat % 0x08, 2, if b.toNat = 0xF0 then 0x90 else 0x80,
      if b.toNat = 0xF4 then 0x8F else 0xBF⟩) := by
  simp only [lead]
  rw [if_neg (by omega), if_neg (by omega), if_neg (by omega), if_neg (by omega),
    if_neg (by omega), if_neg (by omega)]
  by_cases hF0 : b.toNat = 0xF0
  · rw [if_pos hF0, if_pos hF0, if_neg (by omega)]
  by_cases hF4 : b.toNat = 0xF4
  · rw [if_neg hF0, if_neg (by omega), if_pos hF4, if_neg hF0, if_pos hF4]
  · rw [if_neg hF0, if_pos (by omega), if_neg hF0, if_neg hF4]

/-- The bytes of a character are read as the character. -/
theorem charsFrom_encodeChar (c : Char) (bytes : List UInt8) :
    charsFrom none (String.utf8EncodeChar c ++ bytes) = c :: charsFrom none bytes := by
  have hvalid := Utf8.valid c
  have hform := Utf8.form_encodeChar c
  have hval {n : Nat} (h : n = c.toNat) : Char.ofNat n = c := by rw [h, Char.ofNat_toNat]
  generalize String.utf8EncodeChar c = encoded at hform ⊢
  cases hform with
  | @one b₀ h h₀ =>
    have hlead : lead b₀ = ([Char.ofNat b₀.toNat], none) := by
      simp only [lead]
      rw [if_pos (by omega)]
    rw [List.singleton_append, charsFrom_cons, step, hlead, hval h₀]
    rfl
  | two h h' h₀ h₁ =>
    rw [List.cons_append, charsFrom_cons, step, lead_two (by omega) (by omega)]
    refine (charsFrom_owed_zero (by omega) (by omega) bytes).trans ?_
    rw [hval (by omega)]
  | @three b₀ b₁ b₂ h h' h₀ h₁ h₂ =>
    rw [List.cons_append, charsFrom_cons, step, lead_three (by omega) (by omega)]
    refine (charsFrom_owed_succ ?_ ?_ _).trans
      ((charsFrom_owed_zero (by omega) (by omega) bytes).trans ?_)
    · -- no overlong form
      split
      · show 0xA0 ≤ _
        omega
      · show 0x80 ≤ _
        omega
    · -- no surrogate
      split
      · show _ ≤ 0x9F
        omega
      · show _ ≤ 0xBF
        omega
    · rw [hval (by omega)]
  | @four b₀ b₁ b₂ b₃ h h₀ h₁ h₂ h₃ =>
    have hlow : (0x80 : UInt8).toNat ≤ b₂.toNat := show 0x80 ≤ _ by omega
    have hhigh : b₂.toNat ≤ (0xBF : UInt8).toNat := show _ ≤ 0xBF by omega
    rw [List.cons_append, charsFrom_cons, step, lead_four (by omega) (by omega)]
    refine (charsFrom_owed_succ ?_ ?_ _).trans ((charsFrom_owed_succ hlow hhigh _).trans
      ((charsFrom_owed_zero (by omega) (by omega) bytes).trans ?_))
    · -- no overlong form
      split
      · show 0x90 ≤ _
        omega
      · show 0x80 ≤ _
        omega
    · -- nothing above the last code point
      split
      · show _ ≤ 0x8F
        omega
      · show _ ≤ 0xBF
        omega
    · rw [hval (by omega)]

/-- Reading the bytes of a text gives back its characters. -/
theorem chars_encode (cs : List Char) : chars (Utf8.encode cs) = cs := by
  rw [chars]
  induction cs with
  | nil => rfl
  | cons c cs ih => rw [Utf8.encode_cons, charsFrom_encodeChar, ih]

/-- As `chars_encode`, for the string of these characters. -/
theorem text_encode (cs : List Char) : text (Utf8.encode cs) = String.ofList cs := by
  rw [text, chars_encode]

end Lenient

end ParsingMachine
