import ParsingMachine.Byte.Escape
import ParsingMachine.Grammar.Basic

/-!
# Expressions as trees, and their written form

Unfolding a node along its operands gives a tree: ids, spans and the flags of repetitions are gone,
and a reference is the name of its rule. A tree is written in the usual form of parsing grammars.

The written form binds operands by four levels: an ordered choice, a sequence, an operator with one
operand, and everything that needs no enclosing. An operand of a lower level than its place asks for
stands in parentheses. A sequence of bytes alone is written as a quoted string and needs none.

Writing puts a tree before a given text, which takes time in proportion to what is written.
-/

namespace ParsingMachine

/-- An expression without ids. -/
inductive Tree where
  | empty
  | fail
  | anyByte
  | byte (b : UInt8)
  | byteClass (set : ByteSet)
  | sequence (items : List Tree)
  | choice (alts : List Tree)
  | star (inner : Tree)
  | plus (inner : Tree)
  | optional (inner : Tree)
  | and (inner : Tree)
  | not (inner : Tree)
  | reference (name : String)
  | construct (body : List Tree) (left : Bool)
  | mark (m : TreeMark)
  | link (inner : Tree) (index : Int)
  | block (inner : Tree)
  | defSymbol (table : String) (inner : Tree)
  | isSymbol (table : String) (inner : Tree) (lastOnly : Bool)
  | defIndent
  | isIndent

/-! ### Unfolding -/

namespace Grammar

/-- The tree below a node, cut off as failure below a given depth. -/
def treeWithin (g : Grammar) : Nat → ExprId → Tree
  | 0, _ => .fail
  | depth + 1, e =>
    match g.op e with
    | .empty => .empty
    | .fail => .fail
    | .anyByte => .anyByte
    | .byte b => .byte b
    | .byteClass set => .byteClass set
    | .sequence items => .sequence (items.map (treeWithin g depth))
    | .choice alts => .choice (alts.map (treeWithin g depth))
    | .star inner _ => .star (treeWithin g depth inner)
    | .plus inner _ => .plus (treeWithin g depth inner)
    | .optional inner => .optional (treeWithin g depth inner)
    | .and inner => .and (treeWithin g depth inner)
    | .not inner => .not (treeWithin g depth inner)
    | .reference rule => .reference (g.ruleName rule)
    | .construct body left => .construct (body.map (treeWithin g depth)) left
    | .mark m => .mark m
    | .link inner index => .link (treeWithin g depth inner) index
    | .block inner => .block (treeWithin g depth inner)
    | .defSymbol table inner => .defSymbol table (treeWithin g depth inner)
    | .isSymbol table inner lastOnly => .isSymbol table (treeWithin g depth inner) lastOnly
    | .defIndent => .defIndent
    | .isIndent => .isIndent

/-- The tree below a node. No path is longer than the number of nodes. -/
def tree (g : Grammar) (e : ExprId) : Tree :=
  g.treeWithin (g.size + 1) e

end Grammar

/-! ### Writing -/

namespace Tree

/-- How tightly a written tree holds together. -/
inductive Level where
  /-- Alternatives. -/
  | choice
  /-- Items side by side. -/
  | sequence
  /-- An operator and its operand. -/
  | unary
  /-- A single piece. -/
  | atom
  deriving DecidableEq

/-- The position of a level, the loosest first. -/
def Level.rank : Level → Nat
  | choice => 0
  | sequence => 1
  | unary => 2
  | atom => 3

/-- The byte of a tree that is a single given byte. -/
def byte? : Tree → Option UInt8
  | byte b => some b
  | _ => none

/-- The level of a written tree. -/
def level : Tree → Level
  | choice _ => .choice
  | sequence items => if (items.mapM byte?).isNone then .sequence else .atom
  | star _ | plus _ | optional _ | and _ | not _ | link _ _ => .unary
  | _ => .atom

/-- Writes a tree of level `level` before the text `rest`, in parentheses if it is too loose for a
place of level `place`. -/
def enclose (place level : Level) (write : List Char → List Char) (rest : List Char) : List Char :=
  if level.rank < place.rank then '(' :: write (')' :: rest) else write rest

/-- The written form of a tree operator without operands. -/
def markChars : TreeMark → List Char
  | .new false => ['<', 'n', 'e', 'w', '>']
  | .new true => ['<', 'n', 'e', 'w', '@', '>']
  | .capture => ['<', 'c', 'a', 'p', 't', 'u', 'r', 'e', '>']
  | .tag text => '#' :: text.toList
  | .replace text => '\x60' :: (text.toList ++ ['\x60'])

mutual

/-- Writes a tree before the text `rest`. -/
def write : Tree → (rest : List Char) → List Char
  | empty, rest => '\'' :: '\'' :: rest
  | fail, rest => ['<', 'f', 'a', 'i', 'l', '>'] ++ rest
  | anyByte, rest => '.' :: rest
  | byte b, rest => '\'' :: (EscapeStyle.quoted.escape b ++ '\'' :: rest)
  | byteClass set, rest => set.chars ++ rest
  | sequence items, rest =>
    match items.mapM byte? with
    | some bytes => '"' :: (quotedBytes bytes ++ '"' :: rest)
    | none => writeOperands .unary [' '] items rest
  | choice alts, rest => writeOperands .sequence [' ', '/', ' '] alts rest
  | star inner, rest => enclose .atom inner.level (write inner) ('*' :: rest)
  | plus inner, rest => enclose .atom inner.level (write inner) ('+' :: rest)
  | optional inner, rest => enclose .atom inner.level (write inner) ('?' :: rest)
  | and inner, rest => '&' :: enclose .unary inner.level (write inner) rest
  | not inner, rest => '!' :: enclose .unary inner.level (write inner) rest
  | reference name, rest => name.toList ++ rest
  | construct body left, rest =>
    (if left then ['\x7b', '@', ' '] else ['\x7b', ' ']) ++
      writeOperands .unary [' '] body (' ' :: '\x7d' :: rest)
  | mark m, rest => markChars m ++ rest
  | link inner index, rest =>
    (if index < 0 then ['@'] else ['@', '['] ++ (toString index).toList ++ [']', ' ']) ++
      enclose .unary inner.level (write inner) rest
  | block inner, rest => ['<', 'b', 'l', 'o', 'c', 'k', ' '] ++ write inner ('>' :: rest)
  | defSymbol table inner, rest =>
    ['<', 'd', 'e', 'f', ' '] ++ (table.toList ++ ' ' :: write inner ('>' :: rest))
  | isSymbol table inner lastOnly, rest =>
    (if lastOnly then ['<', 'i', 's', ' '] else ['<', 'i', 's', 'a', ' ']) ++
      (table.toList ++ ' ' :: write inner ('>' :: rest))
  | defIndent, rest => ['<', 'd', 'e', 'f', 'i', 'n', 'd', 'e', 'n', 't', '>'] ++ rest
  | isIndent, rest => ['<', 'i', 'n', 'd', 'e', 'n', 't', '>'] ++ rest

/-- Writes operands in places of a given level before the text `rest`, with a separator between
them. -/
def writeOperands (place : Level) (separator : List Char) :
    List Tree → (rest : List Char) → List Char
  | [], rest => rest
  | first :: others, rest =>
    enclose place first.level (write first)
      (if others.isEmpty then rest else separator ++ writeOperands place separator others rest)

end

/-- The written form of a tree. -/
def chars (t : Tree) : List Char :=
  t.write []

/-- The written form of a tree as a string. -/
def text (t : Tree) : String :=
  String.ofList t.chars

end Tree

/-- The written form of an expression. -/
def Grammar.display (g : Grammar) (e : ExprId) : String :=
  (g.tree e).text

end ParsingMachine
