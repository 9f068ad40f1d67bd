/-!
# Compilation options

Independent switches for the shape of the code that is made. They are numbered by the bits of a
byte.
-/

namespace ParsingMachine

/-- Which features are on. -/
structure Options where
  /-- Results of rules are kept for each position. -/
  packrat : Bool := false
  /-- Tree operators make instructions; without it they make none. -/
  ast : Bool := false
  /-- Backtracking code is replaced by single tests of bytes where the operand allows it. -/
  specialize : Bool := false
  /-- Common beginnings of alternatives are factored out. -/
  commonHead : Bool := false
  /-- Memoized paths are entered through a switch. -/
  tracing : Bool := false
  deriving DecidableEq

namespace Options

/-- The switches of the set bits; bits without a switch are dropped. -/
def ofBits (bits : Nat) : Options where
  packrat := bits.testBit 0
  ast := bits.testBit 1
  specialize := bits.testBit 2
  commonHead := bits.testBit 3
  tracing := bits.testBit 4

/-- The bits of the switches that are on. -/
def bits (o : Options) : Nat :=
  o.packrat.toNat + 2 * o.ast.toNat + 4 * o.specialize.toNat + 8 * o.commonHead.toNat +
    16 * o.tracing.toNat

/-- Everything on. -/
def all : Options := ⟨true, true, true, true, true⟩

/-- Everything on but tracing. -/
def standard : Options := { all with tracing := false }

/-- The names of the switches that are on, by ascending bit. -/
def names (o : Options) : List String :=
  [(o.packrat, "PACKRAT"), (o.ast, "AST"), (o.specialize, "SPECIALIZE"),
    (o.commonHead, "COMMON_PREFIX"), (o.tracing, "TRACING")].filterMap
      fun (on, name) ↦ if on then some name else none

theorem ofBits_bits (o : Options) : ofBits o.bits = o := by
  obtain ⟨a, b, c, d, e⟩ := o
  revert a b c d e
  decide

end Options

end ParsingMachine
