import ParsingMachine.Byte.Escape
import ParsingMachine.Grammar.Basic
import ParsingMachine.Program.Basic

/-!
# Program listings

A program is listed block by block: the name of the rule, then one line for each instruction with
its place, a star if something jumps there, and the instruction. A jump line follows an instruction
that does not fall through to the next place.

An instruction is written as pieces, so that the references to other instructions in its text can be
told from the text around them.
-/

namespace ParsingMachine

/-! ### Instructions -/

/-- A part of a written instruction. -/
inductive Piece where
  /-- Plain text. -/
  | text (s : String)
  /-- A reference to an instruction. -/
  | ref (target : InstrId)
  deriving DecidableEq

namespace Piece

/-- The written form of a reference. -/
def refText (target : InstrId) : String :=
  "L" ++ toString target

/-- The written form of a piece. -/
def render : Piece → String
  | text s => s
  | ref target => refText target

/-- The written form of several pieces. -/
def renderAll (pieces : List Piece) : String :=
  String.join (pieces.map render)

/-- The references among pieces. -/
def refs (pieces : List Piece) : List InstrId :=
  pieces.filterMap fun
    | ref target => some target
    | text _ => none

end Piece

/-- The bytes for which a jump table holds a target. -/
def slotsOf (table : List InstrId) (target : InstrId) : ByteSet :=
  .ofList ((allBytes.zip table).filterMap fun (b, entry) ↦ if entry = target then some b else none)

/-- A jump table: each target of a byte with the set of its bytes, in the order of their first
bytes, then the target for end of input. -/
def dispatchPieces (table : List InstrId) : List Piece :=
  .text "dispatch" ::
    ((table.take endSlot).eraseDups.flatMap fun target ↦
      [.text (" " ++ (slotsOf table target).text ++ "="), .ref target]) ++
    match table[endSlot]? with
    | some target => [.text " eof=", .ref target]
    | none => []

/-- The written form of a memo slot with the operation on it. -/
def MemoUse.text (use : MemoUse) (operation : String) : String :=
  (match use.key with
    | .position => ""
    | .state => "state_") ++ operation ++ " m" ++ toString use.memo

/-- An index in brackets. -/
def indexText (index : Int) : String :=
  "[" ++ toString index ++ "]"

namespace Opcode

/-- The written form of an operation. Rules are named by `ruleName`. -/
def pieces (ruleName : RuleId → String) : Opcode → List Piece
  | fail => [.text "fail"]
  | ret => [.text "ret"]
  | anyByte => [.text "any"]
  | byte b optional =>
    [.text ((if optional then "byte? '" else "byte '") ++ String.ofList (quotedBytes [b]) ++ "'")]
  | byteClass set optional => [.text ((if optional then "class? " else "class ") ++ set.text)]
  | skipClass set => [.text ("class* " ++ set.text)]
  | notClass set => [.text ("not_class " ++ set.text)]
  | notLiteral bytes => [.text ("not_literal \"" ++ String.ofList (quotedBytes bytes) ++ "\"")]
  | failPush onFail => [.text "fail_push ", .ref onFail]
  | failPop => [.text "fail_pop"]
  | failSkip false => [.text "fail_skip"]
  | failSkip true => [.text "fail_check_skip"]
  | posPush => [.text "pos_push"]
  | posBack => [.text "pos_back"]
  | dispatch table => dispatchPieces table
  | call rule none => [.text ("call " ++ ruleName rule)]
  | call rule (some target) => [.text ("call " ++ ruleName rule ++ " "), .ref target]
  | monitoredSwitch activated => [.text "monitored_switch ", .ref activated]
  | lookup use none onHit onMemoFail =>
    [.text (use.text "lookup" ++ " "), .ref onHit, .text " ", .ref onMemoFail]
  | lookup use (some index) onHit onMemoFail =>
    [.text (use.text "lookup_node" ++ " " ++ indexText index ++ " "), .ref onHit, .text " ",
      .ref onMemoFail]
  | memoize use none => [.text (use.text "memoize")]
  | memoize use (some index) => [.text (use.text "memoize_node" ++ " " ++ indexText index)]
  | memoizeFail use => [.text (use.text "memoize_fail")]
  | nodePush => [.text "node_push"]
  | nodeStore index => [.text ("node_store " ++ indexText index)]
  | mark (.new false) => [.text "new"]
  | mark (.new true) => [.text "left_new"]
  | mark .capture => [.text "capture"]
  | mark (.tag text) => [.text ("tag #" ++ text)]
  | mark (.replace text) => [.text ("replace `" ++ text ++ "`")]
  | tablePush => [.text "table_push"]
  | tablePop => [.text "table_pop"]
  | defSymbol table => [.text ("def_symbol " ++ table)]
  | isSymbol table true => [.text ("is_symbol " ++ table)]
  | isSymbol table false => [.text ("isa_symbol " ++ table)]
  | defIndent => [.text "def_indent"]
  | isIndent => [.text "is_indent"]

end Opcode

/-! ### Programs -/

/-- A line of a listing. -/
inductive ListingLine where
  /-- The start of a block. -/
  | header (name : String)
  /-- An instruction at its place. -/
  | instruction (place : Nat) (starred : Bool) (pieces : List Piece)
  /-- The fallthrough of the instruction above. -/
  | jump (target : InstrId)
  deriving DecidableEq

/-- The written form of a line. -/
def ListingLine.render : ListingLine → String
  | header name => name ++ ":"
  | instruction place starred pieces =>
    toString place ++ (if starred then "*" else "") ++ "\t" ++ Piece.renderAll pieces
  | jump target => "\tjump " ++ Piece.refText target

namespace Program

/-- The lines for the instruction at a place. -/
def instructionLines (p : Program) (ruleName : RuleId → String) (place : Nat) : List ListingLine :=
  match p.code[place]? with
  | none => []
  | some i =>
    .instruction place i.label (i.op.pieces ruleName) ::
      (i.next.toList.filter (· != place + 1)).map .jump

/-- The lines for a block. -/
def blockLines (p : Program) (ruleName : RuleId → String) (block : Block) : List ListingLine :=
  .header (ruleName block.rule) ::
    (List.range' block.start (block.stop - block.start)).flatMap (p.instructionLines ruleName)

/-- The lines of a program. -/
def listing (p : Program) (ruleName : RuleId → String) : List ListingLine :=
  p.blocks.toList.flatMap (p.blockLines ruleName)

/-- The listing of a program as text, each line with a newline after it. -/
def dump (p : Program) (g : Grammar) : String :=
  String.join ((p.listing g.ruleName).map fun line ↦ line.render ++ "\n")

end Program

end ParsingMachine
