import Mathlib.Data.List.Count
import Mathlib.Logic.Function.Basic
import Mathlib.Tactic.Common

/-!
# Queues with levels

One queue for each level, over any type of elements. The abstract content of such queues is a
placement `f`: the level an element waits at, if it waits. `q.Holds f` says that the queues
represent `f`: an element placed at a level stands there exactly once, and no element stands
anywhere else. Every queue operation is an update of the placement.
-/

namespace Moxia.Lib

abbrev LevelQueues (α : Type*) := Nat → List α

namespace LevelQueues

variable {α : Type*} {q : LevelQueues α} {f : α → Option Nat}

/-- The highest level below `n` with a non-empty queue. -/
def highest (q : LevelQueues α) : Nat → Option Nat
  | 0 => none
  | n + 1 => if (q n).isEmpty then highest q n else some n

theorem highest_eq_some_iff {n lv : Nat} :
    highest q n = some lv ↔ lv < n ∧ q lv ≠ [] ∧ ∀ k, lv < k → k < n → q k = [] := by
  induction n with
  | zero => simp [highest]
  | succ n ih =>
    rw [highest]
    split
    · rename_i hemp
      rw [List.isEmpty_iff] at hemp
      rw [ih]
      constructor
      · rintro ⟨hlt, hne, habove⟩
        refine ⟨by omega, hne, fun k hk hkn => ?_⟩
        rcases Nat.lt_succ_iff_lt_or_eq.1 hkn with hkn | rfl
        exacts [habove k hk hkn, hemp]
      · rintro ⟨hlt, hne, habove⟩
        have : lv ≠ n := fun h => hne (h ▸ hemp)
        exact ⟨by omega, hne, fun k hk hkn => habove k hk (by omega)⟩
    · rename_i hemp
      rw [List.isEmpty_iff] at hemp
      constructor
      · rintro ⟨⟩
        exact ⟨by omega, hemp, fun k hk hkn => by omega⟩
      · rintro ⟨hlt, -, habove⟩
        rcases Nat.lt_succ_iff_lt_or_eq.1 hlt with hlt | rfl
        exacts [absurd (habove n hlt (by omega)) hemp, rfl]

theorem highest_isSome {n lv : Nat} (hlt : lv < n) (hne : q lv ≠ []) :
    ∃ k, highest q n = some k := by
  induction n with
  | zero => omega
  | succ n ih =>
    rw [highest]
    split
    · rename_i hemp
      rw [List.isEmpty_iff] at hemp
      have : lv ≠ n := fun h => hne (h ▸ hemp)
      exact ih (by omega)
    · exact ⟨n, rfl⟩

/-- The queues hold every element exactly where `f` places it. -/
def Holds [DecidableEq α] (q : LevelQueues α) (f : α → Option Nat) : Prop :=
  ∀ x lv, (q lv).count x = if f x = some lv then 1 else 0

namespace Holds

variable [DecidableEq α]

theorem mem_iff (h : q.Holds f) {x : α} {lv : Nat} : x ∈ q lv ↔ f x = some lv := by
  rw [← List.count_pos_iff, h x lv]
  split <;> simp [*]

theorem congr {f' : α → Option Nat} (h : q.Holds f) (hf : ∀ x, f' x = f x) : q.Holds f' := by
  intro x lv
  rw [h x lv, hf x]

/-- Adding an element that waits nowhere, at either end of a queue. -/
theorem push (h : q.Holds f) {x : α} (lv : Nat) (hx : f x = none) {l : List α}
    (hl : l.Perm (x :: q lv)) : Holds (Function.update q lv l) (Function.update f x (some lv)) := by
  intro y lv'
  have hy := h y lv'
  by_cases hlv : lv' = lv
  · subst hlv
    rw [Function.update_self, hl.count_eq, List.count_cons, hy]
    by_cases hyx : y = x
    · subst hyx
      simp [hx]
    · simp [hyx, Ne.symm hyx]
  · rw [Function.update_of_ne hlv, hy]
    by_cases hyx : y = x
    · subst hyx
      simp [hx, Ne.symm hlv]
    · simp [hyx]

/-- Removing all occurrences of an element from the queue of its level. -/
theorem erase (h : q.Holds f) {x : α} {lv : Nat} (hx : f x = some lv) {l : List α}
    (hl : ∀ y, l.count y = if y = x then 0 else (q lv).count y) :
    Holds (Function.update q lv l) (Function.update f x none) := by
  intro y lv'
  have hy := h y lv'
  by_cases hlv : lv' = lv
  · subst hlv
    rw [Function.update_self, hl]
    by_cases hyx : y = x
    · simp [hyx]
    · simp [hyx, hy]
  · rw [Function.update_of_ne hlv, hy]
    by_cases hyx : y = x
    · subst hyx
      simp [hx, Ne.symm hlv]
    · simp [hyx]

theorem erase_filter (h : q.Holds f) {x : α} {lv : Nat} (hx : f x = some lv) :
    Holds (Function.update q lv ((q lv).filter (· ≠ x))) (Function.update f x none) := by
  refine h.erase hx fun y => ?_
  by_cases hyx : y = x
  · subst hyx
    rw [if_pos rfl, List.count_eq_zero]
    simp
  · rw [if_neg hyx, List.count_filter (by simp [hyx])]

theorem head_eq (h : q.Holds f) {x : α} {rest : List α} {lv : Nat} (hq : q lv = x :: rest) :
    f x = some lv :=
  h.mem_iff.1 (by rw [hq]; exact List.mem_cons_self)

theorem popFront (h : q.Holds f) {x : α} {rest : List α} {lv : Nat} (hq : q lv = x :: rest) :
    Holds (Function.update q lv rest) (Function.update f x none) := by
  have hx := h.head_eq hq
  refine h.erase hx fun y => ?_
  have hy := h y lv
  by_cases hyx : y = x
  · subst hyx
    rw [hq, List.count_cons_self, if_pos hx] at hy
    rw [if_pos rfl]
    omega
  · rw [if_neg hyx, hq, List.count_cons_of_ne (Ne.symm hyx)]

theorem perm (h : q.Holds f) (lv : Nat) {l : List α} (hl : l.Perm (q lv)) :
    Holds (Function.update q lv l) f := by
  intro y lv'
  by_cases hlv : lv' = lv
  · subst hlv
    rw [Function.update_self, hl.count_eq, h y lv']
  · rw [Function.update_of_ne hlv, h y lv']

end Holds

/-! ### The front of a queue -/

section Front

variable {k : Nat} {c : α} {rest : List α}

theorem front_erase [DecidableEq α] {x : α} (hq : q k = c :: rest) (hne : x ≠ c) (lv : Nat) :
    ∃ rest', Function.update q lv ((q lv).filter (· ≠ x)) k = c :: rest' := by
  by_cases hlv : k = lv
  · refine ⟨rest.filter (· ≠ x), ?_⟩
    rw [hlv, Function.update_self, ← hlv, hq, List.filter_cons_of_pos (by simpa using Ne.symm hne)]
  · exact ⟨rest, by rw [Function.update_of_ne hlv, hq]⟩

theorem front_pushBack (hq : q k = c :: rest) (lv : Nat) (x : α) :
    ∃ rest', Function.update q lv (q lv ++ [x]) k = c :: rest' := by
  by_cases hlv : k = lv
  · exact ⟨rest ++ [x], by rw [hlv, Function.update_self, ← hlv, hq, List.cons_append]⟩
  · exact ⟨rest, by rw [Function.update_of_ne hlv, hq]⟩

theorem erase_nil [DecidableEq α] (hq : q k = []) (lv : Nat) (x : α) :
    Function.update q lv ((q lv).filter (· ≠ x)) k = [] := by
  by_cases hlv : k = lv
  · rw [hlv, Function.update_self, ← hlv, hq, List.filter_nil]
  · rw [Function.update_of_ne hlv, hq]

end Front

end LevelQueues

end Moxia.Lib
