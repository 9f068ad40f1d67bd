import Mathlib.Logic.Relation
import ParsingMachine.Graph.Explore

/-!
# Depth-first exploration is exact

An exploration appends to the vertices listed before, lists no vertex twice, and lists every root. A
vertex that it adds has all its successors listed, and every listed vertex has what the roots have
and edges preserve. So a search from nothing lists what can be reached, and nothing else.

The loop runs for a number of steps that is computed beforehand. That the number is enough is said
by a measure: the entries on the stack and the edges that leave vertices not listed yet
(`openEdges`). Taking an entry that is listed already shortens the stack; listing a vertex puts its
edges on the stack but closes them, and takes the entry away (`steps_push`). Every induction below
is one over the steps with this measure as a bound, and the case split is that of the loop.

What one search does is a structure (`Explores`), with one lemma for a loop that ends and one for
each of the two rounds. The field `invariant` speaks of all properties that edges preserve: with
reachability from the roots as the property it gives the second half of `mem_explore`, and callers
use it with properties of their own.

Two more facts are needed of the order in which vertices are listed: the top of the stack comes
next, and a vertex is followed by its first successor unless that was listed before. Neither follows
from `Explores`, which says nothing about order, so they have inductions of their own.

## Main statements

* `explores_explore`: an exploration lists its roots and all that can be reached, each vertex once.
* `mem_explore`: a search from nothing lists exactly what can be reached.
* `rounds_explore`: an exploration is a sequence of rounds that ends with an empty stack, so it is
  never cut off.
* `follows_explore`: a new vertex is followed by its first successor, unless that is listed before.
-/

namespace ParsingMachine.Graph

variable {succ : Nat → List Nat}

/-- A vertex has no more successors than there are edges. -/
theorem length_le_edgeCount (succ : Nat → List Nat) {x n : Nat} (hx : x < n) :
    (succ x).length ≤ edgeCount succ n := by
  induction n with
  | zero => cases hx
  | succ n ih =>
    rw [edgeCount]
    rcases Nat.lt_succ_iff_lt_or_eq.mp hx with hx | rfl
    · exact Nat.le_trans (ih hx) (Nat.le_add_right _ _)
    · exact Nat.le_add_left _ _

/-! ### Edges still to be followed -/

/-- The number of edges that leave those of the first `n` vertices that are not listed. -/
def openEdges (succ : Nat → List Nat) (listed : Array Nat) : Nat → Nat
  | 0 => 0
  | n + 1 => openEdges succ listed n + if n ∈ listed then 0 else (succ n).length

/-- No more edges are open than there are edges. -/
theorem openEdges_le (listed : Array Nat) (n : Nat) :
    openEdges succ listed n ≤ edgeCount succ n := by
  induction n with
  | zero => exact Nat.le_refl 0
  | succ n ih =>
    rw [openEdges, edgeCount]
    split <;> omega

/-- Listing a vertex leaves its edges no longer open. -/
theorem openEdges_push (succ : Nat → List Nat) {listed : Array Nat} {x : Nat} (hx : x ∉ listed)
    (n : Nat) :
    openEdges succ (listed.push x) n + (if x < n then (succ x).length else 0) =
      openEdges succ listed n := by
  induction n with
  | zero => simp [openEdges]
  | succ n ih =>
    rw [openEdges, openEdges]
    by_cases hn : n = x
    · subst hn
      have hlt : ¬n < n := Nat.lt_irrefl n
      rw [if_neg hlt] at ih
      simp only [Array.mem_push, or_true, if_true, if_neg hx, Nat.lt_succ_self]
      omega
    · have hmem : n ∈ listed.push x ↔ n ∈ listed := by simp [hn]
      have hlt : x < n + 1 ↔ x < n := by omega
      simp only [hmem, hlt]
      omega

/-! ### One search -/

/-- What a search from a stack adds to the listed vertices. -/
structure Explores (succ : Nat → List Nat) (stack : List Nat) (before after : Array Nat) :
    Prop where
  /-- The vertices listed before stay where they are. -/
  append : ∃ added, after = before ++ added
  /-- What is on the stack is listed. -/
  mem : ∀ x ∈ stack, x ∈ after
  /-- New vertices have their successors listed. -/
  closed : ∀ x ∈ after, x ∈ before ∨ ∀ y ∈ succ x, y ∈ after
  /-- No vertex is listed twice. -/
  nodup : before.toList.Nodup → after.toList.Nodup
  /-- What edges preserve is passed on. -/
  invariant : ∀ P : Nat → Prop, (∀ x ∈ before, P x) → (∀ x ∈ stack, P x) →
    (∀ x, P x → ∀ y ∈ succ x, P y) → ∀ x ∈ after, P x

namespace Explores

variable {before after : Array Nat} {stack : List Nat} {x : Nat}

theorem refl (before : Array Nat) : Explores succ [] before before where
  append := ⟨#[], Array.append_empty.symm⟩
  mem _ h := nomatch h
  closed _ h := .inl h
  nodup := id
  invariant _ h _ _ := h

/-- What was listed before stays listed. -/
theorem mem_of_mem (h : Explores succ stack before after) (hx : x ∈ before) : x ∈ after := by
  obtain ⟨added, rfl⟩ := h.append
  exact Array.mem_append_left _ hx

/-- An entry that is listed already leaves the stack. -/
theorem listed (h : Explores succ stack before after) (hx : x ∈ before) :
    Explores succ (x :: stack) before after where
  append := h.append
  mem y hy := by
    rcases List.mem_cons.mp hy with rfl | hy
    · exact h.mem_of_mem hx
    · exact h.mem y hy
  closed := h.closed
  nodup := h.nodup
  invariant P hbefore hstack :=
    h.invariant P hbefore fun y hy ↦ hstack y (List.mem_cons_of_mem _ hy)

/-- A new entry is listed, and its successors take its place. -/
theorem push (h : Explores succ (succ x ++ stack) (before.push x) after) (hx : x ∉ before) :
    Explores succ (x :: stack) before after where
  append := by
    obtain ⟨added, hadded⟩ := h.append
    exact ⟨#[x] ++ added, by rw [hadded]; simp⟩
  mem y hy := by
    rcases List.mem_cons.mp hy with rfl | hy
    · exact h.mem_of_mem Array.mem_push_self
    · exact h.mem y (List.mem_append_right _ hy)
  closed y hy := by
    rcases h.closed y hy with hy | hy
    · rcases Array.mem_push.mp hy with hy | rfl
      · exact .inl hy
      · exact .inr fun z hz ↦ h.mem z (List.mem_append_left _ hz)
    · exact .inr hy
  nodup hnodup := by
    refine h.nodup ?_
    rw [Array.toList_push]
    refine List.nodup_append.mpr ⟨hnodup, by simp, fun a ha b hb ↦ ?_⟩
    rw [List.mem_singleton.mp hb]
    rintro rfl
    exact hx (Array.mem_toList_iff.mp ha)
  invariant P hbefore hstack hsucc := by
    have hP : P x := hstack x List.mem_cons_self
    refine h.invariant P (fun y hy ↦ ?_) (fun y hy ↦ ?_) hsucc
    · rcases Array.mem_push.mp hy with hy | rfl
      · exact hbefore y hy
      · exact hP
    · rcases List.mem_append.mp hy with hy | hy
      · exact hsucc x hP y hy
      · exact hstack y (List.mem_cons_of_mem _ hy)

end Explores

/-- Listing another vertex and following its edges takes no more steps. -/
theorem steps_push {n steps : Nat} (hsucc : ∀ x, n ≤ x → succ x = []) {x : Nat} {stack : List Nat}
    {seen : Listed} (hx : x ∉ seen.order)
    (hsteps : (x :: stack).length + openEdges succ seen.order n ≤ steps + 1) :
    (succ x ++ stack).length + openEdges succ (seen.push x).order n ≤ steps := by
  have hopen := openEdges_push succ hx n
  -- a vertex beyond the bound has no edges to open
  have hlength : (if x < n then (succ x).length else 0) = (succ x).length := by
    split
    · rfl
    · rw [hsucc x (by omega)]
      rfl
  rw [List.length_cons] at hsteps
  rw [List.length_append, Listed.order_push]
  omega

/-- Each step takes an entry from the stack or lists a vertex and so closes its edges. -/
theorem explores_exploreSteps {n : Nat} (hsucc : ∀ x, n ≤ x → succ x = []) (steps : Nat)
    (stack : List Nat) (seen : Listed)
    (hsteps : stack.length + openEdges succ seen.order n ≤ steps) :
    Explores succ stack seen.order (exploreSteps succ steps stack seen).order := by
  induction steps generalizing stack seen with
  | zero =>
    obtain rfl : stack = [] := List.length_eq_zero_iff.mp (by omega)
    exact .refl _
  | succ steps ih =>
    cases stack with
    | nil => exact .refl _
    | cons x stack =>
      rw [exploreSteps, Listed.contains_eq]
      split
      · rename_i hx
        rw [List.length_cons] at hsteps
        exact (ih stack seen (by omega)).listed (by simpa using hx)
      · rename_i hx
        have hx' : x ∉ seen.order := by simpa using hx
        exact .push (ih (succ x ++ stack) (seen.push x) (steps_push hsucc hx' hsteps)) hx'

/-! ### The rounds of a search -/

/-- One round of a search: an entry is taken from the stack and, unless it is listed already, listed
with its successors put in its place. There is no round with an empty stack. -/
inductive Round (succ : Nat → List Nat) : List Nat × Array Nat → List Nat × Array Nat → Prop
  | listed {x : Nat} {stack : List Nat} {seen : Array Nat} (hx : x ∈ seen) :
    Round succ (x :: stack, seen) (stack, seen)
  | push {x : Nat} {stack : List Nat} {seen : Array Nat} (hx : x ∉ seen) :
    Round succ (x :: stack, seen) (succ x ++ stack, seen.push x)

/-- With enough steps a search goes on until its stack is empty. -/
theorem rounds_exploreSteps {n : Nat} (hsucc : ∀ x, n ≤ x → succ x = []) (steps : Nat)
    (stack : List Nat) (seen : Listed)
    (hsteps : stack.length + openEdges succ seen.order n ≤ steps) :
    Relation.ReflTransGen (Round succ) (stack, seen.order)
      ([], (exploreSteps succ steps stack seen).order) := by
  induction steps generalizing stack seen with
  | zero =>
    obtain rfl : stack = [] := List.length_eq_zero_iff.mp (by omega)
    exact .refl
  | succ steps ih =>
    cases stack with
    | nil => exact .refl
    | cons x stack =>
      rw [exploreSteps, Listed.contains_eq]
      split
      · rename_i hx
        rw [List.length_cons] at hsteps
        exact .head (.listed (by simpa using hx)) (ih stack seen (by omega))
      · rename_i hx
        have hx' : x ∉ seen.order := by simpa using hx
        exact .head (.push hx')
          (ih (succ x ++ stack) (seen.push x) (steps_push hsucc hx' hsteps))

/-! ### The order of a search -/

/-- What is on top of the stack is listed before or comes next. -/
theorem first_exploreSteps {n steps : Nat} (hsucc : ∀ x, n ≤ x → succ x = []) {x : Nat}
    {stack : List Nat} {seen : Listed}
    (hsteps : (x :: stack).length + openEdges succ seen.order n ≤ steps) :
    ∃ k ≤ seen.order.size, (exploreSteps succ steps (x :: stack) seen).order[k]? = some x := by
  cases steps with
  | zero => simp at hsteps
  | succ steps =>
    by_cases hx : x ∈ seen.order
    · obtain ⟨k, hk⟩ := Array.mem_iff_getElem?.mp hx
      obtain ⟨hlt, -⟩ := Array.getElem?_eq_some_iff.mp hk
      obtain ⟨added, hadded⟩ := (explores_exploreSteps hsucc _ (x :: stack) seen hsteps).append
      exact ⟨k, Nat.le_of_lt hlt, by rw [hadded, Array.getElem?_append_left hlt, hk]⟩
    · have hcontains : seen.contains x = false := by
        rw [Listed.contains_eq]
        simpa using hx
      obtain ⟨added, hadded⟩ := (explores_exploreSteps hsucc _ (succ x ++ stack) (seen.push x)
        (steps_push hsucc hx hsteps)).append
      refine ⟨seen.order.size, Nat.le_refl _, ?_⟩
      rw [exploreSteps, hcontains, if_neg Bool.false_ne_true, hadded, Listed.order_push,
        Array.getElem?_append_left (by simp)]
      simp

/-- A vertex is followed by its first successor, unless that is listed before. -/
theorem follows_exploreSteps {n : Nat} (hsucc : ∀ x, n ≤ x → succ x = []) (steps : Nat)
    (stack : List Nat) (seen : Listed)
    (hsteps : stack.length + openEdges succ seen.order n ≤ steps) {k x y : Nat} {rest : List Nat}
    (hk : seen.order.size ≤ k) (hx : (exploreSteps succ steps stack seen).order[k]? = some x)
    (hy : succ x = y :: rest) :
    ∃ j ≤ k + 1, (exploreSteps succ steps stack seen).order[j]? = some y := by
  induction steps generalizing stack seen with
  | zero =>
    have hlt := (Array.getElem?_eq_some_iff.mp hx).1
    exact absurd hk (Nat.not_le_of_lt hlt)
  | succ steps ih =>
    cases stack with
    | nil =>
      have hlt := (Array.getElem?_eq_some_iff.mp hx).1
      exact absurd hk (Nat.not_le_of_lt hlt)
    | cons z stack =>
      rw [exploreSteps, Listed.contains_eq] at hx ⊢
      split at hx
      · rename_i hz
        rw [if_pos hz]
        rw [List.length_cons] at hsteps
        exact ih stack seen (by omega) hk hx
      · rename_i hz
        rw [if_neg hz]
        have hz' : z ∉ seen.order := by simpa using hz
        have hsteps' := steps_push hsucc hz' hsteps
        rcases Nat.eq_or_lt_of_le hk with rfl | hk
        · -- the vertex that is listed now, with its successors on the stack
          obtain ⟨added, hadded⟩ := (explores_exploreSteps hsucc _ _ _ hsteps').append
          have hself : z = x := by
            rw [hadded, Listed.order_push, Array.getElem?_append_left (by simp)] at hx
            simpa using hx
          subst hself
          rw [hy] at hsteps' ⊢
          obtain ⟨j, hj, hget⟩ := first_exploreSteps hsucc hsteps'
          refine ⟨j, ?_, hget⟩
          simpa using hj
        · exact ih _ (seen.push z) hsteps' (by simpa using Nat.succ_le_of_lt hk) hx

/-- An exploration lists everything that can be reached, and each vertex once. -/
theorem explores_explore {n : Nat} (hsucc : ∀ x, n ≤ x → succ x = []) (roots : List Nat)
    (seen : Array Nat) : Explores succ roots seen (explore succ n roots seen) := by
  have h := explores_exploreSteps hsucc (roots.length + edgeCount succ n) roots (.ofArray n seen)
    (Nat.add_le_add_left (openEdges_le _ n) _)
  rwa [Listed.order_ofArray] at h

/-- An exploration comes to its end: its stack is empty. -/
theorem rounds_explore {n : Nat} (hsucc : ∀ x, n ≤ x → succ x = []) (roots : List Nat)
    (seen : Array Nat) :
    Relation.ReflTransGen (Round succ) (roots, seen) ([], explore succ n roots seen) := by
  have h := rounds_exploreSteps hsucc (roots.length + edgeCount succ n) roots (.ofArray n seen)
    (Nat.add_le_add_left (openEdges_le _ n) _)
  rwa [Listed.order_ofArray] at h

/-- A search lists what can be reached, and nothing else. -/
theorem mem_explore {n : Nat} (hsucc : ∀ x, n ≤ x → succ x = []) (roots : List Nat) {x : Nat} :
    x ∈ explore succ n roots #[] ↔
      ∃ root ∈ roots, Relation.ReflTransGen (fun y z ↦ z ∈ succ y) root x := by
  have hfound := explores_explore hsucc roots #[]
  constructor
  · refine hfound.invariant
      (fun x ↦ ∃ root ∈ roots, Relation.ReflTransGen (fun y z ↦ z ∈ succ y) root x)
      (fun y hy ↦ ?_) ?_ ?_ x
    · exact absurd hy (Array.not_mem_empty y)
    · exact fun y hy ↦ ⟨y, hy, .refl⟩
    · rintro y ⟨root, hroot, hreach⟩ z hz
      exact ⟨root, hroot, hreach.tail hz⟩
  · rintro ⟨root, hroot, hreach⟩
    induction hreach with
    | refl => exact hfound.mem root hroot
    | @tail y z _ hz ih =>
      rcases hfound.closed y ih with hy | hy
      · exact absurd hy (Array.not_mem_empty y)
      · exact hy z hz

/-- A single root is listed before or comes next. -/
theorem first_explore {n : Nat} (hsucc : ∀ x, n ≤ x → succ x = []) (root : Nat)
    (seen : Array Nat) : ∃ k ≤ seen.size, (explore succ n [root] seen)[k]? = some root := by
  have hsteps : [root].length + openEdges succ (Listed.ofArray n seen).order n ≤
      [root].length + edgeCount succ n :=
    Nat.add_le_add_left (openEdges_le _ n) _
  have h := first_exploreSteps hsucc hsteps
  rwa [Listed.order_ofArray] at h

/-- A new vertex is followed by its first successor, unless that is listed before. -/
theorem follows_explore {n : Nat} (hsucc : ∀ x, n ≤ x → succ x = []) {roots : List Nat}
    {seen : Array Nat} {k x y : Nat} {rest : List Nat} (hk : seen.size ≤ k)
    (hx : (explore succ n roots seen)[k]? = some x) (hy : succ x = y :: rest) :
    ∃ j ≤ k + 1, (explore succ n roots seen)[j]? = some y :=
  follows_exploreSteps hsucc _ roots (.ofArray n seen) (Nat.add_le_add_left (openEdges_le _ n) _)
    (by rwa [Listed.order_ofArray]) hx hy

end ParsingMachine.Graph
