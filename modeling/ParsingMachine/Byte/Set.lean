/-!
# Sets of byte values

A byte class of a grammar is a set of byte values, held as a bitmap of 256 bits. The view of a set
is `contains`; every operation is described by one lemma on it (`contains_insert`, `contains_union`,
`contains_compl`, …), and `ext_contains` says that the view determines the set.

End of input is not a byte value, so no set contains it: a byte class always fails there.
-/

namespace ParsingMachine

/-- A set of byte values: byte `b` is a member exactly when bit `b` of the bitmap is set. -/
structure ByteSet where
  /-- One bit for each byte value. -/
  bits : BitVec 256
  deriving DecidableEq

/-- All byte values in ascending order. -/
def allBytes : List UInt8 :=
  (List.range 256).map UInt8.ofNat

namespace ByteSet

/-! ### Construction -/

/-- The set without members. -/
def empty : ByteSet := ⟨0#256⟩

instance : Inhabited ByteSet := ⟨empty⟩

/-- The set of all byte values. -/
def full : ByteSet := ⟨BitVec.allOnes 256⟩

/-- Membership as a Boolean test. -/
def contains (s : ByteSet) (b : UInt8) : Bool :=
  s.bits.getLsbD b.toNat

/-- The set with `b` added. -/
def insert (s : ByteSet) (b : UInt8) : ByteSet :=
  ⟨s.bits ||| BitVec.twoPow 256 b.toNat⟩

/-- The set with `b` taken out. -/
def erase (s : ByteSet) (b : UInt8) : ByteSet :=
  ⟨s.bits &&& ~~~(BitVec.twoPow 256 b.toNat)⟩

/-- The members of either set. -/
def union (s t : ByteSet) : ByteSet :=
  ⟨s.bits ||| t.bits⟩

/-- The byte values that are not members. -/
def compl (s : ByteSet) : ByteSet :=
  ⟨~~~s.bits⟩

/-- The set with the one member `b`. -/
def singleton (b : UInt8) : ByteSet :=
  empty.insert b

/-- The set of the listed byte values. -/
def ofList (bytes : List UInt8) : ByteSet :=
  bytes.foldl insert empty

/-- The byte values from `lo` to `hi`, both included; empty when `hi < lo`. -/
def range (lo hi : UInt8) : ByteSet :=
  ofList (allBytes.filter fun b ↦ lo ≤ b && b ≤ hi)

/-! ### Observation -/

/-- The members in ascending order. -/
def members (s : ByteSet) : List UInt8 :=
  allBytes.filter s.contains

/-- The number of members. -/
def size (s : ByteSet) : Nat :=
  s.members.length

/-- Whether the set has no member. -/
def isEmpty (s : ByteSet) : Bool :=
  s.bits == 0#256

/-- The only member, if there is exactly one. -/
def single? (s : ByteSet) : Option UInt8 :=
  match s.members with
  | [b] => some b
  | _ => none

/-! ### The membership view -/

theorem ext_contains {s t : ByteSet} (h : ∀ b, s.contains b = t.contains b) : s = t := by
  obtain ⟨s⟩ := s
  obtain ⟨t⟩ := t
  congr 1
  refine BitVec.eq_of_getLsbD_eq fun i hi ↦ ?_
  have := h (UInt8.ofNat i)
  rwa [contains, contains, UInt8.toNat_ofNat_of_lt' (by simpa using hi)] at this

@[simp] theorem contains_empty (b : UInt8) : empty.contains b = false := by
  simp [contains, empty]

@[simp] theorem contains_full (b : UInt8) : full.contains b = true := by
  rw [contains, full, BitVec.getLsbD_allOnes]
  simpa using b.toNat_lt

@[simp] theorem contains_insert (s : ByteSet) (a b : UInt8) :
    (s.insert a).contains b = (s.contains b || b == a) := by
  have hb := b.toNat_lt
  rw [contains, insert, BitVec.getLsbD_or, BitVec.getLsbD_twoPow, contains]
  congr 1
  by_cases h : b = a
  · subst h
    simpa using hb
  · have h' : ¬a.toNat = b.toNat := fun e ↦ h (UInt8.toNat_inj.mp e.symm)
    simp [h, h']

@[simp] theorem contains_erase (s : ByteSet) (a b : UInt8) :
    (s.erase a).contains b = (s.contains b && b != a) := by
  have hb := b.toNat_lt
  rw [contains, erase, BitVec.getLsbD_and, BitVec.getLsbD_not, BitVec.getLsbD_twoPow, contains]
  by_cases h : b = a
  · subst h
    simp [hb]
  · have h' : ¬a.toNat = b.toNat := fun e ↦ h (UInt8.toNat_inj.mp e.symm)
    simp [h, h', hb]

@[simp] theorem contains_union (s t : ByteSet) (b : UInt8) :
    (s.union t).contains b = (s.contains b || t.contains b) := by
  simp [contains, union]

@[simp] theorem contains_compl (s : ByteSet) (b : UInt8) :
    s.compl.contains b = !s.contains b := by
  have hb := b.toNat_lt
  simp [contains, compl, hb]

@[simp] theorem contains_singleton (a b : UInt8) : (singleton a).contains b = (b == a) := by
  simp [singleton]

end ByteSet

end ParsingMachine
