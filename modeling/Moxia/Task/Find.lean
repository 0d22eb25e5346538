import Moxia.Task.Manager
import Mathlib.Data.List.Nodup

/-!
# Looking tasks up

How `find` and the placement of the running tasks change under the writes of `task.cpp`. The list of
tasks itself is not looked at again outside this file.
-/

namespace Moxia.TaskManager

variable {tm : TaskManager} {i j lv : Nat} {t : Task}

/-- The level at which the queues should hold the task: its level, if it is running. -/
def placement (tm : TaskManager) (id : Nat) : Option Nat :=
  (tm.find id).bind fun t => if t.running then some t.level else none

/-- The task is still owned by `tasks_`. -/
def Live (tm : TaskManager) (id : Nat) : Prop := ∃ t, tm.find id = some t

theorem find_id (h : tm.find i = some t) : t.id = i := by
  simpa using List.find?_some h

theorem find_mem (h : tm.find i = some t) : t ∈ tm.tasks := List.mem_of_find?_eq_some h

theorem find_of_mem (hnd : (tm.tasks.map (·.id)).Nodup) (h : t ∈ tm.tasks) :
    tm.find t.id = some t := by
  rw [find, List.find?_eq_some_iff_append]
  obtain ⟨as, bs, hab⟩ := List.append_of_mem h
  refine ⟨by simp, as, bs, hab, fun x hx => ?_⟩
  rw [hab, List.map_append, List.map_cons, List.nodup_append] at hnd
  have := hnd.2.2 x.id (List.mem_map_of_mem hx) t.id List.mem_cons_self
  simpa using this

theorem exists_find (h : t ∈ tm.tasks) : ∃ t', tm.find t.id = some t' := by
  have : (tm.tasks.find? fun t' => t'.id = t.id).isSome := by
    rw [List.find?_isSome]
    exact ⟨t, h, by simp⟩
  exact Option.isSome_iff_exists.1 this

theorem find_congr {tm' : TaskManager} (h : tm'.tasks = tm.tasks) : tm'.find i = tm.find i := by
  simp [find, h]

theorem find_modify {f : Task → Task} (hf : ∀ t, (f t).id = t.id) :
    (tm.modify i f).find j = if j = i then (tm.find j).map f else tm.find j := by
  have hpred : ((fun t : Task => decide (t.id = j)) ∘ fun t => if t.id = i then f t else t) =
      fun t => decide (t.id = j) := by
    funext t
    simp only [Function.comp]
    split <;> simp [hf]
  simp only [find, modify, List.find?_map, hpred]
  split
  · rename_i hji
    subst hji
    cases hfind : tm.tasks.find? fun t => t.id = j with
    | none => rfl
    | some t =>
      have : t.id = j := by simpa using List.find?_some hfind
      simp [this]
  · rename_i hji
    cases hfind : tm.tasks.find? fun t => t.id = j with
    | none => rfl
    | some t =>
      have : t.id = j := by simpa using List.find?_some hfind
      simp [this, hji]

theorem find_modify_self {f : Task → Task} (hf : ∀ t, (f t).id = t.id) (h : tm.find i = some t) :
    (tm.modify i f).find i = some (f t) := by
  rw [find_modify hf, if_pos rfl, h, Option.map_some]

theorem find_newTask_of_ne (h : j ≠ tm.latestId + 1) : tm.newTask.find j = tm.find j := by
  simp [find, newTask, List.find?_append, h.symm]

theorem find_newTask_self (h : tm.find (tm.latestId + 1) = none) :
    tm.newTask.find (tm.latestId + 1) = some { id := tm.latestId + 1 } := by
  rw [find] at h
  simp [find, newTask, List.find?_append, h]

theorem find_filter_ne :
    find { tm with tasks := tm.tasks.filter fun t => t.id ≠ i } j = if j = i then none else
      tm.find j := by
  simp only [find, List.find?_filter]
  split
  · rename_i hji
    rw [List.find?_eq_none]
    rintro t -
    simp [hji]
  · rename_i hji
    congr 1
    funext t
    by_cases h : t.id = j <;> simp [h, hji]

theorem ids_modify {f : Task → Task} (hf : ∀ t, (f t).id = t.id) :
    (tm.modify i f).tasks.map (·.id) = tm.tasks.map (·.id) := by
  simp only [modify, List.map_map]
  refine List.map_congr_left fun t _ => ?_
  simp only [Function.comp]
  split <;> simp [hf]

theorem mem_modify {f : Task → Task} (h : t ∈ (tm.modify i f).tasks) :
    ∃ t₀ ∈ tm.tasks, t = if t₀.id = i then f t₀ else t₀ := by
  simp only [modify, List.mem_map] at h
  obtain ⟨t₀, ht₀, rfl⟩ := h
  exact ⟨t₀, ht₀, rfl⟩

/-! ### Placements -/

theorem placement_congr {tm' : TaskManager} (h : tm'.tasks = tm.tasks) :
    tm'.placement i = tm.placement i := by
  simp [placement, find_congr h]

theorem placement_of_find (h : tm.find i = some t) :
    tm.placement i = if t.running then some t.level else none := by
  simp [placement, h]

theorem find_of_placement (hp : tm.placement i = some lv) :
    ∃ t, tm.find i = some t ∧ t.running = true ∧ t.level = lv := by
  cases ht : tm.find i with
  | none => simp [placement, ht] at hp
  | some t =>
    rw [placement_of_find ht] at hp
    split at hp
    · rename_i hr
      exact ⟨t, rfl, hr, by simpa using hp⟩
    · cases hp

theorem placement_modify {f : Task → Task} (hf : ∀ t, (f t).id = t.id) (h : tm.find i = some t) :
    (tm.modify i f).placement =
      Function.update tm.placement i (if (f t).running then some (f t).level else none) := by
  funext j
  by_cases hji : j = i
  · subst hji
    rw [Function.update_self, placement_of_find (find_modify_self hf h)]
  · rw [Function.update_of_ne hji, placement, find_modify hf, if_neg hji, placement]

theorem placement_filter_ne :
    placement { tm with tasks := tm.tasks.filter fun t => t.id ≠ i } =
      Function.update tm.placement i none := by
  funext j
  rw [placement, find_filter_ne]
  by_cases hji : j = i
  · subst hji
    simp
  · rw [if_neg hji, Function.update_of_ne hji, placement]

end Moxia.TaskManager
