/-!
# Stacks with a height

A stack that can be cut back to a height noted before. The height is kept beside the items, so
noting it takes no time.
-/

namespace ParsingMachine

/-- A stack, newest item first. -/
structure Stack (α : Type) where
  /-- The items. -/
  items : List α
  /-- Their number. -/
  height : Nat := items.length
  /-- The height is the number of items. -/
  height_eq : height = items.length := by rfl

namespace Stack

variable {α : Type}

/-- The stack without items. -/
def empty : Stack α where
  items := []

instance : Inhabited (Stack α) := ⟨empty⟩

/-- Puts an item on top. -/
def push (s : Stack α) (a : α) : Stack α where
  items := a :: s.items
  height := s.height + 1
  height_eq := by rw [s.height_eq, List.length_cons]

/-- The newest item and the stack without it. -/
def pop? (s : Stack α) : Option (α × Stack α) :=
  match h : s.items with
  | [] => none
  | a :: rest => some (a, ⟨rest, s.height - 1, by rw [s.height_eq, h]; rfl⟩)

/-- Drops the newest items down to a height; a lower stack stays as it is. -/
def cut (s : Stack α) (n : Nat) : Stack α where
  items := s.items.drop (s.height - n)
  height := min n s.height
  height_eq := by rw [List.length_drop, ← s.height_eq]; omega

theorem ext_items {s t : Stack α} (h : s.items = t.items) : s = t := by
  obtain ⟨items, height, hs⟩ := s
  obtain ⟨items', height', ht⟩ := t
  cases h
  cases hs.trans ht.symm
  rfl

@[simp] theorem items_empty : (empty : Stack α).items = [] := rfl

@[simp] theorem items_push (s : Stack α) (a : α) : (s.push a).items = a :: s.items := rfl

theorem pop?_of_items_nil {s : Stack α} (h : s.items = []) : s.pop? = none := by
  unfold pop?
  split
  · rfl
  · rename_i hitems
    cases h.symm.trans hitems

theorem pop?_of_items_cons {s : Stack α} {a : α} {rest : List α} (h : s.items = a :: rest) :
    ∃ t, s.pop? = some (a, t) ∧ t.items = rest := by
  unfold pop?
  split
  · rename_i hitems
    cases h.symm.trans hitems
  · rename_i hitems
    cases h.symm.trans hitems
    exact ⟨_, rfl, rfl⟩

/-- Cutting to the height of a part that is still there gives that part. -/
theorem items_cut_of_append (s : Stack α) (extra kept : List α) (h : s.items = extra ++ kept) :
    (s.cut kept.length).items = kept := by
  change s.items.drop (s.height - kept.length) = kept
  rw [s.height_eq, h]
  simp

end Stack

end ParsingMachine
