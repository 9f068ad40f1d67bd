/-!
# Depth-first exploration

A worklist search of a directed graph whose vertices are numbers and whose edges are given by a
successor function. Each vertex is listed once, when it is first taken from the stack; its
successors are then put on the stack in their own order, the first on top. A vertex that was listed
before, also by an earlier exploration, cuts the search.

Every step takes one entry from the stack, and a vertex adds its successors at most once. The number
of steps is therefore bounded by the entries at the start and the edges of the graph together.

The listed vertices carry marks, so that a step takes constant time. The marks say nothing that the
order does not (`Listed.contains_eq`): a search is described by its order alone.
-/

namespace ParsingMachine.Graph

/-! ### Listed vertices -/

/-- Vertices in the order in which they were listed, with a mark for each vertex below a bound that
says whether it is among them. -/
structure Listed where
  /-- The listed vertices. -/
  order : Array Nat
  /-- For each of the first vertices, whether it is listed. -/
  marks : Array Bool
  /-- The marks agree with the order. -/
  marks_eq : ∀ x (h : x < marks.size), marks[x] = order.contains x

namespace Listed

/-- Whether a vertex is listed. -/
def contains (l : Listed) (x : Nat) : Bool :=
  if h : x < l.marks.size then l.marks[x] else l.order.contains x

theorem contains_eq (l : Listed) (x : Nat) : l.contains x = l.order.contains x := by
  unfold contains
  split
  · exact l.marks_eq x ‹_›
  · rfl

/-- Lists another vertex. -/
def push (l : Listed) (x : Nat) : Listed where
  order := l.order.push x
  marks := l.marks.setIfInBounds x true
  marks_eq y h := by
    have hy : y < l.marks.size := by simpa using h
    rw [Array.getElem_setIfInBounds hy, l.marks_eq y hy, Bool.eq_iff_iff]
    by_cases e : x = y <;> simp [e, eq_comm]

/-- The listed vertices with marks for the vertices below `n`. -/
def ofArray (n : Nat) (order : Array Nat) : Listed :=
  order.foldl push ⟨#[], Array.replicate n false, by simp⟩

@[simp] theorem order_push (l : Listed) (x : Nat) : (l.push x).order = l.order.push x := rfl

@[simp] theorem order_ofArray (n : Nat) (order : Array Nat) : (ofArray n order).order = order := by
  have key (xs : List Nat) (l : Listed) : (xs.foldl push l).order = l.order ++ xs.toArray := by
    induction xs generalizing l with
    | nil => simp
    | cons x xs ih => simp [ih]
  rw [ofArray, ← Array.foldl_toList, key]
  simp

end Listed

/-! ### The search -/

/-- Takes entries from the stack for a number of steps, listing each vertex that is not listed
yet. -/
def exploreSteps (succ : Nat → List Nat) : Nat → List Nat → Listed → Listed
  | 0, _, seen => seen
  | _ + 1, [], seen => seen
  | n + 1, x :: stack, seen =>
    if seen.contains x then exploreSteps succ n stack seen
    else exploreSteps succ n (succ x ++ stack) (seen.push x)

/-- The number of edges that leave the first `n` vertices. -/
def edgeCount (succ : Nat → List Nat) : Nat → Nat
  | 0 => 0
  | n + 1 => edgeCount succ n + (succ n).length

/-- Appends to `seen` every vertex reachable from the roots, in the order of a depth-first search.
Only the first `n` vertices have successors. -/
def explore (succ : Nat → List Nat) (n : Nat) (roots : List Nat) (seen : Array Nat) : Array Nat :=
  (exploreSteps succ (roots.length + edgeCount succ n) roots (.ofArray n seen)).order

end ParsingMachine.Graph
