import Mathlib.Tactic.Common

/-!
# Painting rectangles

A picture is a function from coordinates to colours. `paint` writes the pixels of a rectangle one by
one, row by row; what it leaves behind does not depend on that order (`paint_apply`).
-/

namespace Moxia.Lib

abbrev Picture (α : Type*) := Nat → Nat → α

namespace Picture

variable {α : Type*} (p : Picture α) (x y w h : Nat) (color : Nat → Nat → α)

def write (c : α) : Picture α := fun x' y' => if x' = x ∧ y' = y then c else p x' y'

/-- `for dx < w: write(x + dx, y, color(dx))` -/
def paintRow (w : Nat) (color : Nat → α) : Picture α :=
  (List.range w).foldl (fun p dx => p.write (x + dx) y (color dx)) p

/-- `for dy < h: for dx < w: write(x + dx, y + dy, color(dx, dy))` -/
def paint : Picture α :=
  (List.range h).foldl (fun p dy => p.paintRow x (y + dy) w fun dx => color dx dy) p

theorem paintRow_apply (color : Nat → α) (x' y' : Nat) : p.paintRow x y w color x' y' =
    if (x ≤ x' ∧ x' < x + w) ∧ y' = y then color (x' - x) else p x' y' := by
  induction w with
  | zero => rw [if_neg (by omega)]; rfl
  | succ w ih =>
    have hlast : p.paintRow x y (w + 1) color = (p.paintRow x y w color).write (x + w) y
      (color w) := by
      rw [paintRow, List.range_succ, List.foldl_append]
      rfl
    rw [hlast, write, ih]
    by_cases hx : x' = x + w ∧ y' = y
    · obtain ⟨rfl, rfl⟩ := hx
      rw [if_pos ⟨rfl, rfl⟩, if_pos (by omega), Nat.add_sub_cancel_left]
    · rw [if_neg hx]
      congr 1
      exact propext (by omega)

/-- Pixels within the rectangle have their new colours, all others the old ones. -/
theorem paint_apply (x' y' : Nat) : p.paint x y w h color x' y' =
    if (x ≤ x' ∧ x' < x + w) ∧ y ≤ y' ∧ y' < y + h then color (x' - x) (y' - y) else p x' y' := by
  induction h with
  | zero => rw [if_neg (by omega)]; rfl
  | succ h ih =>
    have hlast : p.paint x y w (h + 1) color =
        (p.paint x y w h color).paintRow x (y + h) w fun dx => color dx h := by
      rw [paint, List.range_succ, List.foldl_append]
      rfl
    rw [hlast, paintRow_apply, ih]
    by_cases hx : (x ≤ x' ∧ x' < x + w) ∧ y' = y + h
    · obtain ⟨hx, rfl⟩ := hx
      rw [if_pos ⟨hx, rfl⟩, if_pos ⟨hx, by omega⟩, Nat.add_sub_cancel_left]
    · rw [if_neg hx]
      congr 1
      exact propext (by omega)

variable {p x y w h color}

theorem paint_of_mem {x' y' : Nat} (hx : x ≤ x' ∧ x' < x + w) (hy : y ≤ y' ∧ y' < y + h) :
    p.paint x y w h color x' y' = color (x' - x) (y' - y) := by
  rw [paint_apply, if_pos ⟨hx, hy⟩]

theorem paint_of_not_mem {x' y' : Nat} (hxy : (x' < x ∨ x + w ≤ x') ∨ y' < y ∨ y + h ≤ y') :
    p.paint x y w h color x' y' = p x' y' := by
  rw [paint_apply, if_neg (by omega)]

end Picture

end Moxia.Lib
