import Mathlib.Data.List.MinMax
import Mathlib.Data.Multiset.Filter

/-!
# Priority queues

What `std::priority_queue` promises for an order `less`: `top` is one of the elements than which
none is greater, and `pop` removes it. Which of several equal ones that is, is left open.
-/

namespace Moxia.Lib

/-- A correct max-queue for `less`, seen as the multiset of its elements. -/
structure PriorityQueue (α : Type) (less : α → α → Prop) where
  Queue : Type
  empty : Queue
  push : Queue → α → Queue
  top : Queue → Option α
  pop : Queue → Queue
  elems : Queue → Multiset α
  elems_empty : elems empty = 0
  elems_push : ∀ q x, elems (push q x) = x ::ₘ elems q
  exists_top : ∀ q, elems q ≠ 0 → ∃ x, top q = some x
  top_greatest : ∀ q x, top q = some x → ∀ y ∈ elems q, ¬ less x y
  elems_pop : ∀ q x, top q = some x → elems q = x ::ₘ elems (pop q)

namespace PriorityQueue

variable {α : Type} {less : α → α → Prop}

theorem top_mem (Q : PriorityQueue α less) {q : Q.Queue} {x : α} (h : Q.top q = some x) : x ∈
    Q.elems q := by
  rw [Q.elems_pop q x h]
  exact Multiset.mem_cons_self x _

/-- The queue that keeps a list and searches it for the least key. -/
def ofKey [DecidableEq α] (key : α → Nat) : PriorityQueue α (fun x y => key x > key y) where
  Queue := List α
  empty := []
  push q x := x :: q
  top q := q.argmin key
  pop q := match q.argmin key with
    | some x => q.erase x
    | none => q
  elems q := q
  elems_empty := rfl
  elems_push _ _ := rfl
  exists_top q h := by
    rw [← Option.ne_none_iff_exists', ne_eq, List.argmin_eq_none]
    rintro rfl
    exact h rfl
  top_greatest q x h y hy := by
    have := List.not_lt_of_mem_argmin hy h
    omega
  elems_pop q x h := by
    have hmem : x ∈ q := List.argmin_mem h
    rw [h]
    exact Multiset.coe_eq_coe.2 (List.perm_cons_erase hmem)

end PriorityQueue

end Moxia.Lib
