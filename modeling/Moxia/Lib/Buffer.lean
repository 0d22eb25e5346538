import Mathlib.Data.Vector.Basic
import Mathlib.Tactic.Common

/-!
# Copying in and out of fixed arrays

`memcpy` and `memmove` on an array of `n` elements, as checked operations: `none` where the source
reads or writes past the end of the array.
-/

namespace Moxia.Lib

variable {α : Type*} {n : Nat}

/-- The `len` elements of `b` from `off` on. -/
def slice (b : Vector α n) (off len : Nat) : Option (List α) :=
  if off + len ≤ n then some ((b.toList.drop off).take len) else none

/-- `b` with `xs` copied over its front. -/
def copyFront (b : Vector α n) (xs : List α) : Option (Vector α n) :=
  if h : xs.length ≤ n then
    some ⟨(xs ++ b.toList.drop xs.length).toArray, by simp; omega⟩
  else none

theorem slice_eq (b : Vector α n) {off len : Nat} (h : off + len ≤ n) :
    slice b off len = some ((b.toList.drop off).take len) := if_pos h

theorem copyFront_eq (b : Vector α n) (xs : List α) (h : xs.length ≤ n) :
    ∃ b', copyFront b xs = some b' ∧ b'.toList.take xs.length = xs := by
  refine ⟨_, dif_pos h, ?_⟩
  simp [Vector.toList]

theorem take_split (b : Vector α n) {k len : Nat} (hk : k ≤ len) :
    b.toList.take len = (b.toList.drop 0).take k ++ (b.toList.drop k).take (len - k) := by
  rw [List.drop_zero, ← List.take_add, Nat.add_sub_cancel' hk]

end Moxia.Lib
