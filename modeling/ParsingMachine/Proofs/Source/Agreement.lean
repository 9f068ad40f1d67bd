import ParsingMachine.Source.Resident

/-!
# Buffers that answer alike

Two buffers of different kinds hold the same input when every operation of the `Buffer` interface
gives the same answer on both, whatever was asked before. `Buffer.Simulates` says this of a relation
between their states: it fixes the three answers that do not change, and the four operations that
may show the state keep it.

Everything else a buffer can be asked is derived from these operations. Since agreement passes
through sequencing (`Agree.bind`), each derived operation agrees as well: text, code points, line
starts, indentation and diagnostics (`Buffer.Simulates.positionExcerpt` is the last of them).

Text, code points, line starts, indentation and excerpts depend on the bytes only, so they agree
already when the bytes do (`Buffer.SameBytes`), whatever the buffers and their lines are called.
`Buffer.Call` lists what a client can ask, and `Buffer.Simulates.answers` extends agreement to any
finite sequence of calls.

The relation is between states, and a question may change the state, as it may load a page. That is
why agreement is about the answer and about the states that are left: only then can the next
question be asked. No operation needs to know what the relation is, so there is one proof for each
derived operation, for all pairs of buffers.

Recursive operations, which scan the input back or forth, agree by induction on the number of steps.
They take the same steps on both sides, since what decides about going on is an answer.

An input in memory is left as it is by every question, so a computation on it can be evaluated step
by step, each from the same input (`Resident.bind_run`).

## Main statements

* `Agree.bind`, `Agree.mapM`: agreement passes through sequencing.
* `SameBytes.excerpt`: excerpts of the same bytes are the same.
* `Simulates.positionExcerpt`: so are diagnostics, if names and lines are the same too.
* `Simulates.answers`: related states answer any sequence of calls alike.
-/

namespace ParsingMachine

/-- From related states both computations give the same answer and leave related states. -/
def Agree {σ τ α : Type} (rel : σ → τ → Prop) (m : StateM σ α) (n : StateM τ α) : Prop :=
  ∀ s t, rel s t → (m s).1 = (n t).1 ∧ rel (m s).2 (n t).2

namespace Agree

variable {σ τ α β : Type} {rel : σ → τ → Prop}

/-- Nothing is asked. -/
theorem pure (a : α) : Agree rel (Pure.pure a) (Pure.pure a) :=
  fun _ _ h ↦ ⟨rfl, h⟩

/-- Agreement passes through sequencing. -/
theorem bind {m : StateM σ α} {n : StateM τ α} {f : α → StateM σ β} {g : α → StateM τ β}
    (hm : Agree rel m n) (hf : ∀ a, Agree rel (f a) (g a)) : Agree rel (m >>= f) (n >>= g) := by
  intro s t h
  obtain ⟨ha, hs⟩ := hm s t h
  have hb := hf (n t).1 _ _ hs
  rw [← ha] at hb
  show (f (m s).1 (m s).2).1 = (g (n t).1 (n t).2).1 ∧
    rel (f (m s).1 (m s).2).2 (g (n t).1 (n t).2).2
  rw [← ha]
  exact hb

/-- A computation that reads the state first agrees if it does so for every pair of related
states. -/
theorem get_bind {f : σ → StateM σ β} {g : τ → StateM τ β}
    (hf : ∀ s t, rel s t → Agree rel (f s) (g t)) : Agree rel (get >>= f) (get >>= g) :=
  fun s t h ↦ hf s t h s t h

/-- A decision that does not depend on the states. -/
theorem ite {p : Prop} [Decidable p] {m m' : StateM σ α} {n n' : StateM τ α}
    (h : Agree rel m n) (h' : Agree rel m' n') :
    Agree rel (if p then m else m') (if p then n else n') := by
  split
  · exact h
  · exact h'

/-- Computations for the items of a list, one after the other. -/
theorem mapM {f : α → StateM σ β} {g : α → StateM τ β} (hf : ∀ a, Agree rel (f a) (g a))
    (l : List α) : Agree rel (l.mapM f) (l.mapM g) := by
  induction l with
  | nil => exact pure []
  | cons a l ih =>
    rw [List.mapM_cons, List.mapM_cons]
    exact bind (hf a) fun b ↦ bind ih fun bs ↦ pure (b :: bs)

end Agree

namespace Buffer

/-- Related states hold the same bytes, and stay related whatever is asked about the bytes. -/
structure SameBytes {σ τ : Type} [Buffer σ] [Buffer τ] (rel : σ → τ → Prop) : Prop where
  /-- The lengths are the same. -/
  length_eq : ∀ {s t}, rel s t → length s = length t
  /-- The bytes are the same. -/
  byteAt : ∀ pos, Agree rel (byteAt pos) (byteAt pos)
  /-- The same byte strings occur. -/
  matchesAt : ∀ pos bytes, Agree rel (matchesAt pos bytes) (matchesAt pos bytes)
  /-- The same bytes lie between two positions. -/
  subbytes : ∀ start stop, Agree rel (subbytes start stop) (subbytes start stop)

/-- Related states answer every operation of a buffer alike and stay related. -/
structure Simulates {σ τ : Type} [Buffer σ] [Buffer τ] (rel : σ → τ → Prop) : Prop
    extends SameBytes rel where
  /-- The names are the same. -/
  name_eq : ∀ {s t}, rel s t → name s = name t
  /-- The numbers of the first line are the same. -/
  startLine_eq : ∀ {s t}, rel s t → startLine s = startLine t
  /-- The lines are numbered alike. -/
  lineNumber : ∀ pos, Agree rel (lineNumber pos) (lineNumber pos)

namespace SameBytes

variable {σ τ : Type} [Buffer σ] [Buffer τ] {rel : σ → τ → Prop}

/-! ### Text and code points -/

/-- The bytes between two positions make the same text. -/
theorem substring (h : SameBytes rel) (start stop : Nat) :
    Agree rel (Buffer.substring start stop) (Buffer.substring start stop) :=
  (h.subbytes start stop).bind fun bytes ↦ .pure (Lenient.text bytes)

/-- Code points are decoded from the same bytes. -/
theorem codePointAt (h : SameBytes rel) (pos : Nat) :
    Agree rel (Buffer.codePointAt pos) (Buffer.codePointAt pos) :=
  (h.byteAt pos).bind fun lead ↦
    (Agree.mapM (fun i ↦ h.byteAt (pos + 1 + i)) _).bind fun rest ↦
      .pure (CodePoint.decode lead rest)

theorem codePointLength (h : SameBytes rel) (pos : Nat) :
    Agree rel (Buffer.codePointLength pos) (Buffer.codePointLength pos) :=
  (h.byteAt pos).bind fun lead ↦ .pure (CodePoint.encodedLength lead)

/-! ### Lines and indentation -/

/-- The scan back to a newline passes the same bytes. -/
theorem afterNewline (h : SameBytes rel) (pos : Nat) :
    Agree rel (Buffer.afterNewline pos) (Buffer.afterNewline pos) := by
  induction pos with
  | zero => exact .pure 0
  | succ pos ih => exact (h.byteAt pos).bind fun b ↦ .ite (.pure (pos + 1)) ih

/-- Lines start at the same positions. -/
theorem lineStart (h : SameBytes rel) (pos : Nat) :
    Agree rel (Buffer.lineStart pos) (Buffer.lineStart pos) := by
  refine Agree.get_bind fun s t hst ↦ ?_
  rw [h.length_eq hst]
  exact h.afterNewline _

theorem afterBlanks (h : SameBytes rel) (n pos : Nat) :
    Agree rel (Buffer.afterBlanks n pos) (Buffer.afterBlanks n pos) := by
  induction n generalizing pos with
  | zero => exact .pure pos
  | succ n ih => exact (h.byteAt pos).bind fun b ↦ .ite (ih (pos + 1)) (.pure pos)

/-- Lines are indented by the same blanks. -/
theorem indent (h : SameBytes rel) (pos : Nat) :
    Agree rel (Buffer.indent pos) (Buffer.indent pos) :=
  (h.lineStart pos).bind fun start ↦ (h.afterBlanks (pos - start) start).bind fun stop ↦
    (h.subbytes start stop).bind fun _ ↦ .pure _

/-! ### Excerpts -/

theorem lastByte (h : SameBytes rel) (pos : Nat) :
    Agree rel (Buffer.lastByte pos) (Buffer.lastByte pos) := by
  induction pos with
  | zero => exact .pure 0
  | succ pos ih => exact (h.byteAt (pos + 1)).bind fun b ↦ .ite ih (.pure (pos + 1))

/-- The scan back stops at the same position. -/
theorem excerptStart (h : SameBytes rel) (pos start : Nat) :
    Agree rel (Buffer.excerptStart pos start) (Buffer.excerptStart pos start) := by
  induction start with
  | zero => exact .pure 0
  | succ start ih =>
    exact (h.byteAt (start + 1)).bind fun b ↦
      .ite (.pure (start + 2)) (.ite (.pure (start + 1)) ih)

/-- The scan forth does too. -/
theorem excerptStop (h : SameBytes rel) (start n stop : Nat) :
    Agree rel (Buffer.excerptStop start n stop) (Buffer.excerptStop start n stop) := by
  induction n generalizing stop with
  | zero => exact .pure stop
  | succ n ih => exact (h.byteAt stop).bind fun b ↦ .ite (.pure stop) (ih (stop + 1))

/-- So the same bytes are shown, with the same mark. -/
theorem excerpt (h : SameBytes rel) (pos : Nat) :
    Agree rel (Buffer.excerpt pos) (Buffer.excerpt pos) := by
  refine Agree.get_bind fun s t hst ↦ ?_
  rw [h.length_eq hst]
  refine (h.lastByte pos).bind fun mark ↦ (h.excerptStart mark mark).bind fun start ↦ ?_
  have bytes (stop : Nat) := Agree.mapM h.byteAt (List.range' start (stop - start))
  split
  · exact (h.excerptStop start _ _).bind fun stop ↦ (bytes stop).bind fun _ ↦ .pure _
  · exact (bytes _).bind fun _ ↦ .pure _

end SameBytes

namespace Simulates

variable {σ τ : Type} [Buffer σ] [Buffer τ] {rel : σ → τ → Prop}

/-! ### Text -/

theorem indentText (h : Simulates rel) (pos : Nat) :
    Agree rel (Buffer.indentText pos) (Buffer.indentText pos) :=
  (h.indent pos).bind fun bytes ↦ .pure (Lenient.text bytes)

/-! ### Diagnostics -/

/-- A message has the same name and the same number of its line. -/
theorem positionMessage (h : Simulates rel) (severity : Severity) (pos : Nat) (message : String) :
    Agree rel (Buffer.positionMessage severity pos message)
      (Buffer.positionMessage severity pos message) := by
  refine (h.lineNumber pos).bind fun line ↦ Agree.get_bind fun s t hst ↦ ?_
  rw [h.name_eq hst]
  exact .pure _

/-- With the excerpt below it. -/
theorem positionExcerpt (h : Simulates rel) (severity : Severity) (pos : Nat) (message : String) :
    Agree rel (Buffer.positionExcerpt severity pos message)
      (Buffer.positionExcerpt severity pos message) :=
  (h.positionMessage severity pos message).bind fun _ ↦ (h.excerpt pos).bind fun _ ↦ .pure _

end Simulates

/-! ### Sequences of calls -/

/-- What a client can ask of a buffer. -/
inductive Call where
  | byteAt (pos : Nat)
  | matchesAt (pos : Nat) (bytes : List UInt8)
  | subbytes (start stop : Nat)
  | substring (start stop : Nat)
  | lineNumber (pos : Nat)
  | lineStart (pos : Nat)
  | codePointAt (pos : Nat)
  | codePointLength (pos : Nat)
  | indentText (pos : Nat)
  | positionMessage (severity : Severity) (pos : Nat) (message : String)
  | positionExcerpt (severity : Severity) (pos : Nat) (message : String)
  deriving DecidableEq

/-- What a client is told. -/
inductive Answer where
  | byte (b : UInt8)
  | flag (b : Bool)
  | bytes (bytes : List UInt8)
  | text (text : String)
  | number (n : Nat)
  deriving DecidableEq

variable {σ τ : Type} [Buffer σ] [Buffer τ] {rel : σ → τ → Prop}

/-- The answer to a call. -/
def Call.answer : Call → StateM σ Answer
  | .byteAt pos => .byte <$> Buffer.byteAt pos
  | .matchesAt pos bytes => .flag <$> Buffer.matchesAt pos bytes
  | .subbytes start stop => .bytes <$> Buffer.subbytes start stop
  | .substring start stop => .text <$> Buffer.substring start stop
  | .lineNumber pos => .number <$> Buffer.lineNumber pos
  | .lineStart pos => .number <$> Buffer.lineStart pos
  | .codePointAt pos => .number <$> Buffer.codePointAt pos
  | .codePointLength pos => .number <$> Buffer.codePointLength pos
  | .indentText pos => .text <$> Buffer.indentText pos
  | .positionMessage severity pos message => .text <$> Buffer.positionMessage severity pos message
  | .positionExcerpt severity pos message => .text <$> Buffer.positionExcerpt severity pos message

/-- The answers to calls made one after the other. -/
def answers (calls : List Call) : StateM σ (List Answer) :=
  calls.mapM Call.answer

/-- Each call is answered by one of the operations. -/
theorem Simulates.answer (h : Simulates rel) (call : Call) :
    Agree rel call.answer call.answer := by
  cases call with
  | byteAt pos => exact (h.byteAt pos).bind fun _ ↦ .pure _
  | matchesAt pos bytes => exact (h.matchesAt pos bytes).bind fun _ ↦ .pure _
  | subbytes start stop => exact (h.subbytes start stop).bind fun _ ↦ .pure _
  | substring start stop => exact (h.substring start stop).bind fun _ ↦ .pure _
  | lineNumber pos => exact (h.lineNumber pos).bind fun _ ↦ .pure _
  | lineStart pos => exact (h.lineStart pos).bind fun _ ↦ .pure _
  | codePointAt pos => exact (h.codePointAt pos).bind fun _ ↦ .pure _
  | codePointLength pos => exact (h.codePointLength pos).bind fun _ ↦ .pure _
  | indentText pos => exact (h.indentText pos).bind fun _ ↦ .pure _
  | positionMessage severity pos message =>
    exact (h.positionMessage severity pos message).bind fun _ ↦ .pure _
  | positionExcerpt severity pos message =>
    exact (h.positionExcerpt severity pos message).bind fun _ ↦ .pure _

/-- Related states answer any sequence of calls alike. -/
theorem Simulates.answers (h : Simulates rel) (calls : List Call) :
    Agree rel (Buffer.answers calls) (Buffer.answers calls) :=
  .mapM h.answer calls

end Buffer

/-! ### Inputs in memory -/

namespace Resident

/-- An input in memory agrees with itself and is left as it is. -/
theorem simulates_self (src : Resident) :
    Buffer.Simulates fun s t : Resident ↦ s = src ∧ t = src where
  name_eq := by
    rintro s t ⟨rfl, rfl⟩
    rfl
  startLine_eq := by
    rintro s t ⟨rfl, rfl⟩
    rfl
  length_eq := by
    rintro s t ⟨rfl, rfl⟩
    rfl
  byteAt pos := by
    rintro s t ⟨rfl, rfl⟩
    exact ⟨rfl, rfl, rfl⟩
  matchesAt pos bytes := by
    rintro s t ⟨rfl, rfl⟩
    exact ⟨rfl, rfl, rfl⟩
  subbytes start stop := by
    rintro s t ⟨rfl, rfl⟩
    exact ⟨rfl, rfl, rfl⟩
  lineNumber pos := by
    rintro s t ⟨rfl, rfl⟩
    exact ⟨rfl, rfl, rfl⟩

/-- A computation that leaves the input as it is hands on its answer. -/
theorem bind_run {src : Resident} {α β : Type} {m : StateM Resident α} {a : α}
    (h : m src = (a, src)) (f : α → StateM Resident β) : (m >>= f) src = f a src := by
  show f (m src).1 (m src).2 = _
  rw [h]

end Resident

end ParsingMachine
