/-!
# Positions in a grammar text

A span is the range of a construct in the text of its grammar. It serves diagnostics only: no
analysis or encoding looks at it.
-/

namespace ParsingMachine

/-- A half-open range of positions. -/
structure Span where
  /-- The first position. -/
  start : Nat := 0
  /-- The position after the last. -/
  stop : Nat := 0
  deriving DecidableEq, Inhabited

namespace Span

/-- The span of nodes that stand nowhere in the text. -/
def synthetic : Span := ⟨0, 0⟩

/-- Whether this is the span of nodes that stand nowhere in the text. -/
def isSynthetic (s : Span) : Bool :=
  s == synthetic

/-- The smallest span that covers both. -/
def merge (s t : Span) : Span :=
  ⟨min s.start t.start, max s.stop t.stop⟩

/-- The two ends with two dots between them. -/
def text (s : Span) : String :=
  toString s.start ++ ".." ++ toString s.stop

end Span

end ParsingMachine
