import ParsingMachine.Source.Paged
import ParsingMachine.Source.Resident

/-!
# Opening files

A file is given by its path and its contents, if it exists. It is opened in pages, or `load` decides
by its size: files of more than `pagedThreshold` bytes are paged and others are held in memory. The
path is the name of the source, and the bytes are kept as they are.
-/

namespace ParsingMachine

/-- Why a source could not be opened. -/
inductive OpenError where
  /-- There is no file at the path. -/
  | missing (path : String)
  /-- The reader of a file or stream refused. -/
  | refused (reason : String)
  deriving DecidableEq

/-- What is reported to the user. -/
def OpenError.message : OpenError → String
  | missing path => "cannot read `" ++ path ++ "`: No such file or directory (os error 2)"
  | refused reason => reason

/-- Opens a stream in pages. -/
def Paged.ofStream (name : String) (reader : Reader) (capacity startLine : Nat) :
    Except OpenError Paged :=
  match Paged.ofReader name reader capacity startLine with
  | .ok source => .ok source
  | .error reason => .error (.refused reason)

/-- Opens a file in pages. -/
def Paged.ofFile (path : String) (contents : Option (Array UInt8))
    (capacity : Nat := defaultCapacity) : Except OpenError Paged :=
  match contents with
  | none => .error (.missing path)
  | some text => Paged.ofStream path (.ofBytes text) capacity 1

/-- The largest size of a file that is held in memory. -/
def pagedThreshold : Nat := 16 * 1024

/-- A source of either kind. -/
inductive Source where
  /-- Held in memory. -/
  | resident (s : Resident)
  /-- Read in pages. -/
  | paged (s : Paged)

namespace Source

/-- Opens a file, in memory when it is small and in pages otherwise. -/
def load (path : String) (contents : Option (Array UInt8)) : Except OpenError Source :=
  match contents with
  | none => .error (.missing path)
  | some text =>
    if pagedThreshold < text.size then .paged <$> Paged.ofFile path (some text)
    else .ok (.resident { name := path, text })

/-- Accesses a source of either kind. -/
def access {α : Type} (onResident : StateM Resident α) (onPaged : StateM Paged α) :
    StateM Source α
  | .resident s => let (a, s) := onResident s; (a, .resident s)
  | .paged s => let (a, s) := onPaged s; (a, .paged s)

instance : Buffer Source where
  name
    | .resident s => Buffer.name s
    | .paged s => Buffer.name s
  startLine
    | .resident s => Buffer.startLine s
    | .paged s => Buffer.startLine s
  length
    | .resident s => Buffer.length s
    | .paged s => Buffer.length s
  byteAt pos := access (Buffer.byteAt pos) (Buffer.byteAt pos)
  matchesAt pos bytes := access (Buffer.matchesAt pos bytes) (Buffer.matchesAt pos bytes)
  subbytes start stop := access (Buffer.subbytes start stop) (Buffer.subbytes start stop)
  lineNumber pos := access (Buffer.lineNumber pos) (Buffer.lineNumber pos)

end Source

end ParsingMachine
