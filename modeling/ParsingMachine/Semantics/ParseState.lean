/-!
# Scoped parse state

Besides its position a parser carries the symbols defined so far, the starts of the open blocks and
the recorded indentations. Leaving a block drops the symbols defined in it.
-/

namespace ParsingMachine

/-- Symbols, open blocks and indentation, each newest first. -/
structure ParseState where
  /-- The defined symbols, each with its table. -/
  symbols : List (String × List UInt8) := []
  /-- For each open block, the number of symbols defined before it. -/
  scopes : List Nat := []
  /-- The recorded indentations. -/
  indents : List (List UInt8) := []
  deriving DecidableEq, Inhabited

namespace ParseState

/-- Defines a symbol of a table. -/
def define (s : ParseState) (table : String) (text : List UInt8) : ParseState :=
  { s with symbols := (table, text) :: s.symbols }

/-- The symbol of a table that was defined last. -/
def lastSymbol? (s : ParseState) (table : String) : Option (List UInt8) :=
  (s.symbols.find? (·.1 == table)).map Prod.snd

/-- Whether a text is a symbol of a table; with `lastOnly` only the newest one counts. -/
def isSymbol (s : ParseState) (table : String) (text : List UInt8) (lastOnly : Bool) : Bool :=
  if lastOnly then s.lastSymbol? table == some text else s.symbols.contains (table, text)

/-- Opens a block. -/
def openScope (s : ParseState) : ParseState :=
  { s with scopes := s.symbols.length :: s.scopes }

/-- Closes the newest block and drops the symbols defined since it was opened. -/
def closeScope (s : ParseState) : ParseState :=
  match s.scopes with
  | [] => s
  | count :: scopes => { s with scopes, symbols := s.symbols.drop (s.symbols.length - count) }

/-- Records an indentation. -/
def pushIndent (s : ParseState) (indent : List UInt8) : ParseState :=
  { s with indents := indent :: s.indents }

/-- The indentation recorded last; none was recorded is the same as an empty one. -/
def lastIndent (s : ParseState) : List UInt8 :=
  s.indents.head?.getD []

end ParseState

/-- How matching ends. -/
inductive Outcome where
  /-- Accepted, stopping at a position. -/
  | matched (stop : Nat)
  /-- Rejected. -/
  | failed
  /-- Not ended within the allowed number of steps. -/
  | diverged
  deriving DecidableEq

end ParsingMachine
