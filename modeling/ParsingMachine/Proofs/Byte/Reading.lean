import Mathlib.Data.Bool.AllAny
import Mathlib.Data.List.Basic
import ParsingMachine.Byte.Escape

/-!
# Written bytes can be read back

A written byte is one character, or a backslash and what follows it. A reader that goes on to the
first character that closes the text and has no backslash before it finds the bytes again, whatever
follows (`EscapeStyle.readEscaped`). There are three closing characters, two quotes and a bracket,
and two styles of escapes. The reader knows the closing character but not the style, so one reader
does for all of them.

What the reader needs of a style is a structure (`EscapeStyle.Guards`): the backslash and the
closing character are guarded, and no guarded character is one of the letters of the short forms.
Nothing else about a style is looked at, so that a style with further guarded characters costs one
more check of this structure and no proof.

A text is read piece by piece. `EscapeStyle.ReadsAs` says of a piece what it is read as *whatever
follows*; such pieces can be put together (`ReadsAs.append`, `ReadsAs.flatMap`), and it is enough to
look at one written byte (`Guards.readsAs_escape`).

In a byte class the reader has to tell a dash that stands for a range from a byte, so it says of
each byte whether a backslash stood before it. A member that is a dash has one, and so the runs of a
class are found again. That the runs hold the bytes of the set they were made of is a separate
induction over the fold that makes them.

## Main statements

* `EscapeStyle.Guards.readEscaped_append`: the reader stops at the closing character.
* `readEscaped_quotedBytes`: quoted bytes are read back up to either quote.
* `ByteSet.pairRuns_flatMap`: runs are found again in what is read of them.
* `ByteSet.ofRuns_runs`: the runs of a set hold its members and no other byte.
* `readSet_chars`: a written set is read back, whatever follows.
-/

namespace ParsingMachine

/-! ### Single characters -/

/-- The byte with the code of a character. -/
def charByte (c : Char) : UInt8 :=
  UInt8.ofNat c.toNat

/-- The byte that a character after a backslash stands for. -/
def unescape (c : Char) : UInt8 :=
  if c = 'n' then 0x0a else if c = 't' then 0x09 else if c = 'r' then 0x0d else charByte c

/-- The value of a lower-case hexadecimal digit. -/
def hexValue? (c : Char) : Option Nat :=
  if '0' ≤ c ∧ c ≤ '9' then some (c.toNat - 0x30)
  else if 'a' ≤ c ∧ c ≤ 'f' then some (c.toNat - 0x61 + 10)
  else none

/-- Going to the character of a byte and back gives the byte. -/
theorem charByte_byteChar (b : UInt8) : charByte (byteChar b) = b := by
  have hb : b.toNat.isValidChar := .inl (Nat.lt_trans b.toNat_lt (by decide))
  rw [charByte, byteChar, Char.ofNat, dif_pos hb]
  exact UInt8.ofNat_toNat

/-- Different bytes have different characters. -/
theorem byteChar_injective {a b : UInt8} (h : byteChar a = byteChar b) : a = b := by
  rw [← charByte_byteChar a, h, charByte_byteChar]

/-- A written digit is read as its value. -/
theorem hexValue?_hexDigit : ∀ n < 16, hexValue? (hexDigit n) = some n := by
  decide

/-! ### Texts -/

/-- The bytes up to a closing character, each with whether a backslash stands before it, and the
text behind. -/
def readEscaped (stop : Char) : List Char → Option (List (UInt8 × Bool) × List Char)
  | [] => none
  | '\\' :: 'x' :: high :: low :: cs =>
    match hexValue? high, hexValue? low with
    | some high, some low => (readEscaped stop cs).map fun (read, rest) ↦
      ((UInt8.ofNat (16 * high + low), true) :: read, rest)
    | _, _ => none
  | '\\' :: c :: cs =>
    (readEscaped stop cs).map fun (read, rest) ↦ ((unescape c, true) :: read, rest)
  | c :: cs =>
    if c = stop then some ([], cs)
    else (readEscaped stop cs).map fun (read, rest) ↦ ((charByte c, false) :: read, rest)

namespace EscapeStyle

/-- Texts of a style can be read up to a closing character. -/
structure Guards (style : EscapeStyle) (stop : Char) : Prop where
  /-- A backslash has a backslash before it. -/
  backslash_mem : 0x5c ∈ style.guarded
  /-- The closing character is no backslash and has a backslash before it. -/
  stop_ne : stop ≠ '\\'
  stop_mem : charByte stop ∈ style.guarded
  /-- The closing character is written for a byte. -/
  byteChar_stop : byteChar (charByte stop) = stop
  /-- Guarded characters are not those that have a meaning after a backslash. -/
  unescape_eq : ∀ b ∈ style.guarded, byteChar b ≠ 'x' ∧ unescape (byteChar b) = b

/-- Texts between brackets can be read up to the closing bracket. -/
theorem byteClass_guards : byteClass.Guards ']' :=
  ⟨by decide, by decide, by decide, by decide, List.all_iff_forall_prop.mp (by decide)⟩

theorem quoted_guards_single : quoted.Guards '\'' :=
  ⟨by decide, by decide, by decide, by decide, List.all_iff_forall_prop.mp (by decide)⟩

theorem quoted_guards_double : quoted.Guards '"' :=
  ⟨by decide, by decide, by decide, by decide, List.all_iff_forall_prop.mp (by decide)⟩

/-- Whether a byte is written with a backslash. -/
def escapes (style : EscapeStyle) (b : UInt8) : Bool :=
  (style.escape b).length != 1

variable {style : EscapeStyle} {stop : Char}

/-- The text is read as some bytes, whatever follows. -/
def ReadsAs (stop : Char) (text : List Char) (bytes : List (UInt8 × Bool)) : Prop :=
  ∀ cs, readEscaped stop (text ++ cs) =
    (readEscaped stop cs).map fun (read, rest) ↦ (bytes ++ read, rest)

/-- Texts that are read one by one are read one after the other. -/
theorem ReadsAs.append {text text' : List Char} {bytes bytes' : List (UInt8 × Bool)}
    (h : ReadsAs stop text bytes) (h' : ReadsAs stop text' bytes') :
    ReadsAs stop (text ++ text') (bytes ++ bytes') := by
  intro cs
  rw [List.append_assoc, h, h', Option.map_map]
  simp only [Function.comp_def, List.append_assoc]

/-- A list of texts is read as the list of what each of them is read as. -/
theorem ReadsAs.flatMap {α : Type} {f : α → List Char} {read : α → List (UInt8 × Bool)}
    {xs : List α} (h : ∀ x ∈ xs, ReadsAs stop (f x) (read x)) :
    ReadsAs stop (xs.flatMap f) (xs.flatMap read) := by
  induction xs with
  | nil =>
    intro cs
    cases hcs : readEscaped stop cs <;> simp [hcs]
  | cons x xs ih =>
    rw [List.flatMap_cons, List.flatMap_cons]
    exact (h x List.mem_cons_self).append (ih fun y hy ↦ h y (List.mem_cons_of_mem _ hy))

/-- The reader stops at the closing character. -/
theorem Guards.readEscaped_append (h : style.Guards stop) {text : List Char}
    {bytes : List (UInt8 × Bool)} (htext : ReadsAs stop text bytes) (rest : List Char) :
    readEscaped stop (text ++ stop :: rest) = some (bytes, rest) := by
  have hclose : readEscaped stop (stop :: rest) = some ([], rest) := by
    simp [readEscaped, h.stop_ne]
  rw [htext, hclose]
  simp

/-- A written byte is read back. -/
theorem Guards.readsAs_escape (h : style.Guards stop) (b : UInt8) :
    ReadsAs stop (style.escape b) [(b, style.escapes b)] := by
  intro cs
  unfold escapes escape
  split_ifs with hn ht hr hguarded hplain
  · simp [readEscaped, unescape, hn]
  · simp [readEscaped, unescape, ht]
  · simp [readEscaped, unescape, hr]
  · obtain ⟨hx, hunescape⟩ := h.unescape_eq b (List.contains_iff_mem.mp hguarded)
    simp [readEscaped, hx, hunescape]
  · -- a character that stands for itself is neither the backslash nor the closing character
    have hbackslash : byteChar b ≠ '\\' := by
      intro heq
      obtain rfl : b = 0x5c := byteChar_injective heq
      exact hguarded (List.contains_iff_mem.mpr h.backslash_mem)
    have hstop : byteChar b ≠ stop := by
      intro heq
      obtain rfl : b = charByte stop := byteChar_injective (heq.trans h.byteChar_stop.symm)
      exact hguarded (List.contains_iff_mem.mpr h.stop_mem)
    simp [readEscaped, hbackslash, hstop, charByte_byteChar]
  · have hhigh : b.toNat / 16 < 16 := by
      have := b.toNat_lt
      omega
    have hlow : b.toNat % 16 < 16 := Nat.mod_lt _ (by decide)
    simp [readEscaped, hexPair, hexValue?_hexDigit _ hhigh, hexValue?_hexDigit _ hlow,
      Nat.div_add_mod]

end EscapeStyle

/-! ### Quoted bytes -/

/-- Quoted bytes are read back up to either quote. -/
theorem readEscaped_quotedBytes {stop : Char} (h : EscapeStyle.quoted.Guards stop)
    (bytes : List UInt8) (rest : List Char) :
    readEscaped stop (quotedBytes bytes ++ stop :: rest) =
      some (bytes.map fun b ↦ (b, EscapeStyle.quoted.escapes b), rest) := by
  have hbytes : EscapeStyle.ReadsAs stop (quotedBytes bytes)
      (bytes.flatMap fun b ↦ [(b, EscapeStyle.quoted.escapes b)]) :=
    .flatMap fun b _ ↦ h.readsAs_escape b
  rw [h.readEscaped_append hbytes]
  exact congrArg (fun read ↦ some (read, rest)) (List.flatMap_pure_eq_map _ bytes)

/-! ### Byte classes -/

/-- The runs of a byte class: a dash without a backslash stands between the ends of a run. -/
def pairRuns : List (UInt8 × Bool) → List (UInt8 × UInt8)
  | [] => []
  | lo :: (0x2d, false) :: hi :: read => (lo.1, hi.1) :: pairRuns read
  | b :: read => (b.1, b.1) :: pairRuns read

/-- A byte that no dash follows is a run of its own. -/
theorem pairRuns_cons {b : UInt8 × Bool} {read : List (UInt8 × Bool)}
    (h : read.head? ≠ some (0x2d, false)) :
    pairRuns (b :: read) = (b.1, b.1) :: pairRuns read := by
  rw [pairRuns]
  rintro hi rest rfl
  exact h rfl

namespace ByteSet

/-- The set of the bytes in some runs. -/
def ofRuns (runs : List (UInt8 × UInt8)) : ByteSet :=
  ofList (allBytes.filter fun b ↦ runs.any fun run ↦ run.1 ≤ b && b ≤ run.2)

/-- What is read of a run. -/
def runRead (run : UInt8 × UInt8) : List (UInt8 × Bool) :=
  let read (b : UInt8) := (b, EscapeStyle.byteClass.escapes b)
  if run.1 < run.2 then [read run.1, (0x2d, false), read run.2] else [read run.1]

/-- A written run is read as its ends, with a bare dash between them if there are two. -/
theorem readsAs_runChars (run : UInt8 × UInt8) :
    EscapeStyle.ReadsAs ']' (runChars run) (runRead run) := by
  have hbyte := EscapeStyle.byteClass_guards.readsAs_escape
  have hdash : EscapeStyle.ReadsAs ']' ['-'] [(0x2d, false)] := by
    intro cs
    simp [readEscaped]
    rfl
  unfold runChars runRead
  split
  · exact (hbyte run.1).append (hdash.append (hbyte run.2))
  · exact hbyte run.1

/-- A run starts with a byte, and a dash has a backslash before it. -/
theorem head?_flatMap_runRead (runs : List (UInt8 × UInt8)) :
    (runs.flatMap runRead).head? ≠ some (0x2d, false) := by
  intro h
  rw [List.head?_flatMap] at h
  obtain ⟨run, -, hrun⟩ := List.exists_of_findSome?_eq_some h
  have hfirst : (runRead run).head? = some (run.1, EscapeStyle.byteClass.escapes run.1) := by
    unfold runRead
    split <;> rfl
  rw [hfirst, Option.some.injEq, Prod.mk.injEq] at hrun
  obtain ⟨hdash, hescaped⟩ := hrun
  rw [hdash] at hescaped
  cases hescaped

/-- Runs are found again in what is read of them. -/
theorem pairRuns_flatMap {runs : List (UInt8 × UInt8)} (h : ∀ run ∈ runs, run.1 ≤ run.2) :
    pairRuns (runs.flatMap runRead) = runs := by
  induction runs with
  | nil => rfl
  | cons run runs ih =>
    have hrest := ih fun other hother ↦ h other (List.mem_cons_of_mem _ hother)
    have hle := h run List.mem_cons_self
    rw [List.flatMap_cons, runRead]
    split
    · exact congrArg (run :: ·) hrest
    · rename_i hlt
      have heq : run.1 = run.2 := UInt8.le_antisymm hle (UInt8.not_lt.mp hlt)
      rw [List.singleton_append, pairRuns_cons (head?_flatMap_runRead runs), hrest]
      exact congrArg (· :: runs) (Prod.ext rfl heq)

/-! ### The runs of a set -/

theorem mem_allBytes (b : UInt8) : b ∈ allBytes :=
  List.mem_map.mpr ⟨b.toNat, List.mem_range.mpr b.toNat_lt, UInt8.ofNat_toNat⟩

theorem contains_ofList (bytes : List UInt8) (b : UInt8) :
    (ofList bytes).contains b = bytes.contains b := by
  have key (s : ByteSet) :
      (bytes.foldl insert s).contains b = (s.contains b || bytes.contains b) := by
    induction bytes generalizing s with
    | nil => simp
    | cons a bytes ih =>
      rw [List.foldl_cons, ih, contains_insert, List.contains_cons, Bool.or_assoc]
  rw [ofList, key, contains_empty, Bool.false_or]

/-- A run that is extended at its start still ends no earlier than it starts. -/
theorem le_of_mem_extendRuns {b : UInt8} {runs : List (UInt8 × UInt8)}
    (h : ∀ run ∈ runs, run.1 ≤ run.2) : ∀ run ∈ extendRuns b runs, run.1 ≤ run.2 := by
  cases runs with
  | nil => simp [extendRuns]
  | cons first runs =>
    obtain ⟨lo, hi⟩ := first
    obtain ⟨hle, hruns⟩ := List.forall_mem_cons.mp h
    rw [extendRuns]
    split
    · rename_i hnext
      refine List.forall_mem_cons.mpr ⟨?_, hruns⟩
      simp only [UInt8.le_iff_toNat_le] at hle ⊢
      omega
    · exact List.forall_mem_cons.mpr ⟨UInt8.le_refl b, h⟩

/-- Extending runs by a byte adds that byte. -/
theorem exists_mem_extendRuns_iff {b x : UInt8} {runs : List (UInt8 × UInt8)}
    (h : ∀ run ∈ runs, run.1 ≤ run.2) :
    (∃ run ∈ extendRuns b runs, run.1 ≤ x ∧ x ≤ run.2) ↔
      x = b ∨ ∃ run ∈ runs, run.1 ≤ x ∧ x ≤ run.2 := by
  have hself : b ≤ x ∧ x ≤ b ↔ x = b := by
    rw [← UInt8.toNat_inj, UInt8.le_iff_toNat_le, UInt8.le_iff_toNat_le]
    omega
  cases runs with
  | nil => simp [extendRuns, hself]
  | cons first runs =>
    obtain ⟨lo, hi⟩ := first
    have hle : lo ≤ hi := h _ List.mem_cons_self
    rw [extendRuns]
    split
    · rename_i hnext
      -- the first run now starts one earlier
      have hjoin : b ≤ x ∧ x ≤ hi ↔ x = b ∨ lo ≤ x ∧ x ≤ hi := by
        rw [← UInt8.toNat_inj]
        simp only [UInt8.le_iff_toNat_le] at hle ⊢
        omega
      simp only [List.exists_mem_cons_iff, hjoin, or_assoc]
    · simp only [List.exists_mem_cons_iff, hself]

/-- The runs made of some bytes end no earlier than they start, and hold just these bytes. -/
theorem exists_run_iff (bytes : List UInt8) :
    (∀ run ∈ bytes.foldr extendRuns [], run.1 ≤ run.2) ∧
      ∀ x, (∃ run ∈ bytes.foldr extendRuns [], run.1 ≤ x ∧ x ≤ run.2) ↔ x ∈ bytes := by
  induction bytes with
  | nil => simp
  | cons b bytes ih =>
    obtain ⟨hle, hmem⟩ := ih
    rw [List.foldr_cons]
    refine ⟨le_of_mem_extendRuns hle, fun x ↦ ?_⟩
    rw [exists_mem_extendRuns_iff hle, hmem, List.mem_cons]

/-- The runs of a set hold its members and no other byte, so the set is made of them again. -/
theorem ofRuns_runs (s : ByteSet) : ofRuns s.runs = s := by
  refine ext_contains fun b ↦ ?_
  rw [ofRuns, contains_ofList, Bool.eq_iff_iff, List.contains_iff_mem, List.mem_filter]
  have hrun := (exists_run_iff s.members).2 b
  simp only [members, List.mem_filter, mem_allBytes, true_and] at hrun
  rw [← hrun]
  simp [mem_allBytes, runs, members]

end ByteSet

/-- A byte class at the start of a text, and the text behind. -/
def readSet : List Char → Option (ByteSet × List Char)
  | '[' :: cs => (readEscaped ']' cs).map fun (read, rest) ↦ (.ofRuns (pairRuns read), rest)
  | _ => none

/-- A written set is read back, whatever follows. -/
theorem readSet_chars (s : ByteSet) (rest : List Char) :
    readSet (s.chars ++ rest) = some (s, rest) := by
  have hruns : EscapeStyle.ReadsAs ']' (s.runs.flatMap ByteSet.runChars)
      (s.runs.flatMap ByteSet.runRead) :=
    .flatMap fun run _ ↦ ByteSet.readsAs_runChars run
  have hchars : s.chars ++ rest = '[' :: (s.runs.flatMap ByteSet.runChars ++ ']' :: rest) := by
    simp [ByteSet.chars]
  have hpaired : pairRuns (s.runs.flatMap ByteSet.runRead) = s.runs :=
    ByteSet.pairRuns_flatMap (ByteSet.exists_run_iff s.members).1
  rw [hchars, readSet, EscapeStyle.byteClass_guards.readEscaped_append hruns, Option.map_some]
  simp only [hpaired, ByteSet.ofRuns_runs]

end ParsingMachine
