import ParsingMachine.Grammar.Basic

/-!
# Grammars from shapes

A shape is an expression that refers to later rules by offset. A list of shapes makes a grammar of
the rules `R0`, `R1`, …, one for each shape. References only go forward, so the rules are not
recursive, and building from the last rule to the first knows for each reference whether its rule
can succeed without consuming. The flags of repetitions are set from this.
-/

namespace ParsingMachine

/-- An expression that refers to later rules. -/
inductive Shape where
  | empty
  | any
  | byte (b : UInt8)
  | byteClass (bytes : List UInt8)
  | literal (bytes : List UInt8)
  | sequence (items : List Shape)
  | choice (alts : List Shape)
  | star (inner : Shape)
  | plus (inner : Shape)
  | optional (inner : Shape)
  | and (inner : Shape)
  | not (inner : Shape)
  /-- A later rule, counted from the next one and around; a byte where there is none. -/
  | reference (offset : Nat)
  /-- Alternatives that all begin with one shared node. -/
  | sharedHead (head : Shape) (rests : List Shape)
  /-- A byte at which none of the words begins. -/
  | notThenAny (words : List (List UInt8))

namespace Shape

/-- What a shape is built in: the number of its rule, and for each rule whether it can succeed
without consuming. -/
structure Context where
  /-- The rule being built. -/
  current : RuleId
  /-- For each rule, whether it can succeed without consuming. -/
  nullable : List Bool

/-- The negation of a word. -/
def notWord (word : List UInt8) : Builder ExprId := do
  Grammar.alloc (.not (← Grammar.literal word))

mutual

/-- Builds a shape; answers its node and whether it can succeed without consuming. -/
def build (ctx : Context) : Shape → Builder (ExprId × Bool)
  | empty => do return (← Grammar.alloc .empty, true)
  | any => do return (← Grammar.alloc .anyByte, false)
  | byte b => do return (← Grammar.alloc (.byte b), false)
  | byteClass bytes => do return (← Grammar.alloc (.byteClass (.ofList bytes)), false)
  | literal bytes => do return (← Grammar.literal bytes, false)
  | sequence items => do
    let built ← buildAll ctx items
    return (← Grammar.sequence (built.map Prod.fst), built.all Prod.snd)
  | choice alts => do
    let built ← buildAll ctx alts
    return (← Grammar.choice (built.map Prod.fst), built.any Prod.snd)
  | star inner => do
    let (inner, nullable) ← build ctx inner
    return (← Grammar.alloc (.star inner nullable), true)
  | plus inner => do
    let (inner, nullable) ← build ctx inner
    return (← Grammar.alloc (.plus inner nullable), nullable)
  | optional inner => do
    let (inner, _) ← build ctx inner
    return (← Grammar.alloc (.optional inner), true)
  | and inner => do
    let (inner, _) ← build ctx inner
    return (← Grammar.alloc (.and inner), true)
  | not inner => do
    let (inner, _) ← build ctx inner
    return (← Grammar.alloc (.not inner), true)
  | reference offset => do
    let later := ctx.nullable.length - ctx.current - 1
    if later = 0 then return (← Grammar.alloc (.byte 0x61), false)
    else
      let target := ctx.current + 1 + offset % later
      return (← Grammar.alloc (.reference target), ctx.nullable.getD target false)
  | sharedHead head rests => do
    let (head, headNullable) ← build ctx head
    let built ← buildRests ctx head rests
    return (← Grammar.choice (built.map Prod.fst), headNullable && built.any Prod.snd)
  | notThenAny words => do
    let nots ← words.mapM notWord
    let any ← Grammar.alloc .anyByte
    return (← Grammar.sequence (nots ++ [any]), false)

/-- Builds shapes in order. -/
def buildAll (ctx : Context) : List Shape → Builder (List (ExprId × Bool))
  | [] => pure []
  | first :: rest => do
    let built ← build ctx first
    return built :: (← buildAll ctx rest)

/-- Builds shapes in order, each after a shared node. -/
def buildRests (ctx : Context) (head : ExprId) : List Shape → Builder (List (ExprId × Bool))
  | [] => pure []
  | first :: rest => do
    let (node, nullable) ← build ctx first
    let alt ← Grammar.sequence [head, node]
    return (alt, nullable) :: (← buildRests ctx head rest)

end

/-- Builds the bodies of the rules before the `n`th from the last to the first. -/
def buildRules (shapes : List Shape) : Nat → List Bool → Builder Unit
  | 0, _ => pure ()
  | rule + 1, nullable => do
    match shapes[rule]? with
    | none => buildRules shapes rule nullable
    | some shape =>
      let (body, canBeEmpty) ← build ⟨rule, nullable⟩ shape
      modify (·.defineRule rule body)
      buildRules shapes rule (nullable.set rule canBeEmpty)

/-- The grammar of a list of shapes. -/
def grammar (shapes : List Shape) : Grammar :=
  let build : Builder Unit := do
    let _ ← (List.range shapes.length).mapM fun i ↦ Grammar.declareRule ("R" ++ toString i)
    buildRules shapes shapes.length (List.replicate shapes.length false)
  (build {}).2

end Shape

end ParsingMachine
