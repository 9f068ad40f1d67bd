import ParsingMachine.Source.Diagnostic
import ParsingMachine.Source.Reader

/-!
# Paged sources

A large input is read in aligned pages through a small cache. Up to `capacity` pages stay resident
and leave in the order in which they were loaded, whatever was used later. A capacity of zero keeps
only the page loaded last.

A page that cannot be read is all zero bytes, and so is the part of a page that the reader does not
supply; both read as the end of input.

Line numbers come from an index with the number of newlines before each page. An entry is filled
when its page is loaded while the page before it is resident. Entries that are missing when a line
number is asked for are filled by counting through the pages from the nearest known entry, so the
order of accesses does not matter. Counting changes no residency.
-/

namespace ParsingMachine

/-- The number of bytes of a page. -/
def pageSize : Nat := 4096

/-- The capacity of a cache unless another is asked for. -/
def defaultCapacity : Nat := 8

/-- The bytes of a page. -/
abbrev Page := Array UInt8

/-- An input read in pages. -/
structure Paged where
  /-- The name used in diagnostics. -/
  name : String
  /-- The number reported for the first line. -/
  startLine : Nat
  /-- Where the pages come from. -/
  reader : Reader
  /-- The number of bytes, found once at the start. -/
  size : Nat
  /-- How many pages may be resident. -/
  capacity : Nat
  /-- The number of the next attempt to read. -/
  attempt : Nat := 0
  /-- The resident pages, by index. -/
  pages : List (Nat × Page) := []
  /-- The indices of the resident pages, oldest first. -/
  queue : List Nat := []
  /-- The resident page of a cache without capacity. -/
  single : Option (Nat × Page) := none
  /-- The number of newlines before each page, where known. -/
  lines : Array (Option Nat)

namespace Paged

/-! ### Pages -/

/-- The indices of the resident pages, oldest first. -/
def residentPages (s : Paged) : List Nat :=
  if s.capacity = 0 then (s.single.map Prod.fst).toList else s.queue

/-- What a read left, filled up with zero bytes to a page. -/
def padded (bytes : Option (Array UInt8)) : Page :=
  let bytes := bytes.getD #[]
  bytes ++ Array.replicate (pageSize - bytes.size) endByte

/-- A page of zero bytes. -/
def zeroPage : Page :=
  Array.replicate pageSize endByte

/-- A buffer into which a page was read: every byte of it is replaced. -/
def overwritten (buffer page : Page) : Page :=
  buffer.mapIdx fun i _ ↦ page[i]?.getD endByte

/-- Reads a page into a buffer, without making it resident. -/
def readPage (index : Nat) (buffer : Page) : StateM Paged Page := fun s ↦
  let (bytes, attempt) := s.reader.readAt (index * pageSize) pageSize s.attempt
  (overwritten buffer (padded bytes), { s with attempt })

/-- The number of newlines of a page before an offset. -/
def newlinesBefore (page : Page) (offset : Nat) : Nat :=
  (page.extract 0 offset).count newline

/-- The number of newlines of a page. -/
def newlines (page : Page) : Nat :=
  page.count newline

/-- The number of newlines before a page, where known. -/
def linesBefore? (s : Paged) (index : Nat) : Option Nat :=
  s.lines[index]?.join

/-- Fills the entry of the line index for a page from the page before it, if the entry is missing
and the one before it is known. -/
def recordLineStart (index : Nat) (previous : Page) : StateM Paged Unit :=
  modify fun s ↦
    match index with
    | 0 => s
    | before + 1 =>
      match s.linesBefore? (before + 1), s.linesBefore? before with
      | none, some count =>
        { s with lines := s.lines.setIfInBounds (before + 1) (some (count + newlines previous)) }
      | _, _ => s

/-- Makes a page resident in a cache that keeps one. It is read into the buffer of the page that was
resident before. -/
def admitSingle (index : Nat) : StateM Paged Unit := do
  match (← get).single with
  | some (resident, buffer) =>
    if resident ≠ index then
      if resident + 1 = index then recordLineStart index buffer
      load index buffer
  | none => load index zeroPage
where
  /-- Reads the page and keeps it. -/
  load (index : Nat) (buffer : Page) : StateM Paged Unit := do
    let page ← readPage index buffer
    modify ({ · with single := some (index, page) })

/-- Drops the oldest page if the cache is full. -/
def evict : StateM Paged Unit :=
  modify fun s ↦
    match s.queue with
    | oldest :: queue =>
      if s.capacity ≤ s.queue.length then
        { s with queue, pages := s.pages.filter (·.1 != oldest) }
      else s
    | [] => s

/-- Makes a page resident in a cache that keeps several. -/
def admitQueued (index : Nat) : StateM Paged Unit := do
  match (← get).pages.lookup index with
  | some _ => pure ()
  | none =>
    let page ← readPage index zeroPage
    evict
    modify fun s ↦ { s with queue := s.queue ++ [index], pages := (index, page) :: s.pages }
    match index with
    | 0 => pure ()
    | before + 1 =>
      match (← get).pages.lookup before with
      | some previous => recordLineStart (before + 1) previous
      | none => pure ()

/-- The page with an index, which becomes resident. Zero bytes would stand for a page that is not
there. -/
def page (index : Nat) : StateM Paged Page := do
  if (← get).capacity = 0 then
    admitSingle index
    return ((← get).single.map Prod.snd).getD zeroPage
  else
    admitQueued index
    return ((← get).pages.lookup index).getD zeroPage

/-- A page as it is resident. -/
def resident? (s : Paged) (index : Nat) : Option Page :=
  match s.single with
  | some (resident, page) => if resident = index then some page else s.pages.lookup index
  | none => s.pages.lookup index

/-! ### The line index -/

/-- The last page up to a given one for which the line index is known. -/
def lastKnown (s : Paged) : Nat → Nat
  | 0 => 0
  | index + 1 => if (s.linesBefore? (index + 1)).isSome then index + 1 else s.lastKnown index

/-- Fills the `n` entries of the line index after a known one. Pages that are not resident are read
into one and the same buffer. -/
def fillLines : Nat → Nat → (scratch : Page) → StateM Paged Unit
  | 0, _, _ => pure ()
  | n + 1, index, scratch => do
    let s ← get
    let (page, scratch) ← match s.resident? index with
      | some page => pure (page, scratch)
      | none => do
        let page ← readPage index scratch
        pure (page, page)
    let count := (s.linesBefore? index).getD 0 + newlines page
    modify fun s ↦ { s with lines := s.lines.setIfInBounds (index + 1) (some count) }
    fillLines n (index + 1) scratch

/-- The number of newlines before a page. -/
def linesBefore (index : Nat) : StateM Paged Nat := do
  let s ← get
  match s.linesBefore? index with
  | some count => pure count
  | none =>
    let known := s.lastKnown index
    fillLines (index - known) known zeroPage
    return ((← get).linesBefore? index).getD 0

/-! ### Access -/

/-- The byte at a position, or `endByte` at or past the end. -/
def byteAt (pos : Nat) : StateM Paged UInt8 := do
  if (← get).size ≤ pos then pure endByte
  else
    let page ← page (pos / pageSize)
    return page[pos % pageSize]?.getD endByte

/-- Copies the bytes between two positions, page by page, with at most `n` pages. -/
def copy : Nat → Nat → Nat → StateM Paged (List UInt8)
  | 0, _, _ => pure []
  | n + 1, pos, stop => do
    if stop ≤ pos then pure []
    else
      let offset := pos % pageSize
      let take := min (stop - pos) (pageSize - offset)
      let page ← page (pos / pageSize)
      let rest ← copy n (pos + take) stop
      return (page.extract offset (offset + take)).toList ++ rest

/-- The bytes between two positions, cut to the input. Each page copied adds a byte, so their number
bounds the pages. -/
def subbytes (start stop : Nat) : StateM Paged (List UInt8) := do
  let stop := min stop (← get).size
  copy (stop - start) start stop

/-- Whether a byte string occurs at a position; within one page only that page is looked at. -/
def matchesAt (pos : Nat) (bytes : List UInt8) : StateM Paged Bool := do
  let stop := pos + bytes.length
  if (← get).size < stop then pure false
  else
    let offset := pos % pageSize
    if offset + bytes.length ≤ pageSize then
      let page ← page (pos / pageSize)
      return (page.extract offset (offset + bytes.length)).toList == bytes
    else return (← subbytes pos stop) == bytes

/-- The number of the line that contains a position. -/
def lineNumber (pos : Nat) : StateM Paged Nat := do
  let pos := min pos (← get).size
  let page ← page (pos / pageSize)
  let within := newlinesBefore page (pos % pageSize)
  let before ← linesBefore (pos / pageSize)
  return (← get).startLine + before + within

instance : Buffer Paged where
  name := Paged.name
  startLine := Paged.startLine
  length := Paged.size
  byteAt := byteAt
  matchesAt := matchesAt
  subbytes := subbytes
  lineNumber := lineNumber

/-! ### Opening -/

/-- Opens a reader: its length is found once, and the first page is loaded. -/
def ofReader (name : String) (reader : Reader) (capacity : Nat) (startLine : Nat := 1) :
    Except String Paged := do
  let size ← reader.size
  let lines := (Array.replicate (size / pageSize + 1) none).setIfInBounds 0 (some 0)
  let source : Paged := { name, startLine, reader, size, capacity, lines }
  return (page 0 source).2

end Paged

end ParsingMachine
