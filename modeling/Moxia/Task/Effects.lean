import Moxia.Task.Find

/-!
# What the operations write

Every operation of `task.cpp` rewrites one task, and leaves the other tasks and both maps alone
(`Touches`); `Finish` also takes the current task away, and clears its entry in `finish_waiter_`.
The context that is loaded is the one saved in the new current task.
-/

namespace Moxia.TaskManager

variable {tm tm' : TaskManager} {i c : Nat} {t : Task} {f : Task → Task}

/-- Only the task `i` is rewritten, by `f`. -/
structure Touches (tm tm' : TaskManager) (i : Nat) (f : Task → Task) : Prop where
  find : ∀ j, tm'.find j = if j = i then (tm.find j).map f else tm.find j
  latestId : tm'.latestId = tm.latestId
  finishTasks : tm'.finishTasks = tm.finishTasks
  finishWaiter : tm'.finishWaiter = tm.finishWaiter

namespace Touches

theorem of_ne (h : Touches tm tm' i f) {j : Nat} (hj : j ≠ i) : tm'.find j = tm.find j := by
  rw [h.find, if_neg hj]

theorem self (h : Touches tm tm' i f) (ht : tm.find i = some t) : tm'.find i = some (f t) := by
  rw [h.find, if_pos rfl, ht, Option.map_some]

theorem live_iff (h : Touches tm tm' i f) {j : Nat} : tm'.Live j ↔ tm.Live j := by
  rw [Live, Live, h.find]
  split
  · simp [Option.map_eq_some_iff]
  · rfl

theorem modify (hf : ∀ t, (f t).id = t.id) : Touches tm (tm.modify i f) i f :=
  ⟨fun _ => find_modify hf, rfl, rfl, rfl⟩

theorem refl (ht : tm.find i = some t) (hf : f t = t) : Touches tm tm i f := by
  refine ⟨fun j => ?_, rfl, rfl, rfl⟩
  split
  · rename_i hj
    rw [hj, ht, Option.map_some, hf]
  · rfl

theorem trans {tm'' : TaskManager} {g : Task → Task} (h : Touches tm tm' i f)
    (h' : Touches tm' tm'' i g) :
    Touches tm tm'' i (g ∘ f) := by
  refine ⟨fun j => ?_, h'.latestId.trans h.latestId, h'.finishTasks.trans h.finishTasks,
    h'.finishWaiter.trans h.finishWaiter⟩
  rw [h'.find, h.find]
  split
  · rw [Option.map_map]
  · rfl

theorem of_eq {tm'' : TaskManager} (h : Touches tm tm' i f) (ht : tm''.tasks = tm'.tasks)
    (hl : tm''.latestId = tm'.latestId) (hf : tm''.finishTasks = tm'.finishTasks)
    (hw : tm''.finishWaiter = tm'.finishWaiter) : Touches tm tm'' i f :=
  ⟨fun j => (find_congr ht).trans (h.find j), hl.trans h.latestId, hf.trans h.finishTasks,
    hw.trans h.finishWaiter⟩

end Touches

theorem chooseLevel_frame (tm : TaskManager) :
    tm.chooseLevel.tasks = tm.tasks ∧ tm.chooseLevel.latestId = tm.latestId ∧
    tm.chooseLevel.finishTasks = tm.finishTasks ∧ tm.chooseLevel.finishWaiter =
      tm.finishWaiter := by
  rw [chooseLevel]
  split <;> exact ⟨rfl, rfl, rfl, rfl⟩

/-- `RotateCurrentRunQueue` only moves pointers around; it returns the task that was current. -/
theorem rotate_frame {sleep : Bool} (h : tm.rotateCurrentRunQueue sleep = some (tm', c)) :
    tm.currentTask = some c ∧ tm'.tasks = tm.tasks ∧ tm'.latestId = tm.latestId ∧
      tm'.finishTasks = tm.finishTasks ∧ tm'.finishWaiter = tm.finishWaiter := by
  rw [rotateCurrentRunQueue] at h
  split at h
  · cases h
  · rename_i front rest hq
    generalize (if sleep then rest else rest ++ [front]) = queue at h
    cases h
    refine ⟨by simp [currentTask, hq], ?_⟩
    obtain ⟨ht, hl, hf, hw⟩ := chooseLevel_frame (if queue.isEmpty
      then { tm.setQueue tm.currentLevel queue with levelChanged := true } else
        tm.setQueue tm.currentLevel queue)
    refine ⟨ht.trans ?_, hl.trans ?_, hf.trans ?_, hw.trans ?_⟩ <;> split <;> rfl

theorem touches_changeLevelRunning {level : Int} (ht : tm.find i = some t)
    (h : tm.changeLevelRunning t level = some tm') : ∃ lv, Touches tm tm' i fun t =>
    t.setLevel lv := by
  have hid := find_id ht
  rw [changeLevelRunning] at h
  split at h
  · cases h
    exact ⟨t.level, .refl ht rfl⟩
  split at h
  · cases h
  split at h
  · cases h
  have hmod : Touches tm (tm.modify i fun t => t.setLevel level.toNat) i fun t =>
    t.setLevel level.toNat :=
    .modify fun _ => rfl
  rw [hid] at h
  refine ⟨level.toNat, ?_⟩
  split at h
  all_goals
    cases h
    split
    all_goals exact hmod.of_eq rfl rfl rfl rfl

theorem touches_wakeup {level : Int} (h : tm.wakeup i level = some tm') :
    tm.Live i ∧ ∃ lv, Touches tm tm' i fun t => (t.setLevel lv).setRunning true := by
  rw [wakeup] at h
  obtain ⟨t, ht, h⟩ := Option.bind_eq_some_iff.1 h
  refine ⟨⟨t, ht⟩, ?_⟩
  split at h
  · rename_i hr
    obtain ⟨lv, htouch⟩ := touches_changeLevelRunning ht h
    refine ⟨lv, ⟨fun j => ?_, htouch.latestId, htouch.finishTasks, htouch.finishWaiter⟩⟩
    rw [htouch.find]
    split
    · rename_i hj
      rw [hj, ht, Option.map_some, Option.map_some]
      congr 1
      rw [Task.setRunning, Task.setLevel, ← hr]
    · rfl
  split at h
  · cases h
  cases h
  set n := if level < 0 then t.level else level.toNat
  have hmod : Touches tm (tm.modify i fun t => (t.setLevel n).setRunning true) i
      fun t => (t.setLevel n).setRunning true := .modify fun _ => rfl
  refine ⟨n, ?_⟩
  split
  all_goals exact hmod.of_eq rfl rfl rfl rfl

theorem touches_sendMessageTo {msg : Message} (h : tm.sendMessageTo i msg = some tm') :
    tm.Live i ∧ ∃ lv, Touches tm tm' i fun t =>
      ((t.pushMessage msg).setLevel lv).setRunning true := by
  rw [sendMessageTo] at h
  obtain ⟨t, ht, h⟩ := Option.bind_eq_some_iff.1 h
  obtain ⟨-, lv, hw⟩ := touches_wakeup h
  have hmod : Touches tm (tm.modify i (·.pushMessage msg)) i (·.pushMessage msg) :=
    .modify fun _ => rfl
  exact ⟨⟨t, ht⟩, lv, hmod.trans hw⟩

theorem touches_receiveMessage {r : Option Message} (h : tm.receiveMessage i = some (r, tm')) :
    ∃ t, tm.find i = some t ∧ ((r = none ∧ t.msgs = [] ∧ tm' = tm) ∨
      (∃ m, r = some m ∧ t.msgs = m :: t.msgs.tail ∧ Touches tm tm' i (·.popMessage) ∧
        tm'.running = tm.running ∧
        tm'.currentLevel = tm.currentLevel)) := by
  rw [receiveMessage] at h
  obtain ⟨t, ht, h⟩ := Option.bind_eq_some_iff.1 h
  refine ⟨t, ht, ?_⟩
  split at h
  · rename_i hm
    cases h
    exact .inl ⟨rfl, hm, rfl⟩
  · rename_i m rest hm
    cases h
    exact .inr ⟨m, rfl, by rw [hm, List.tail_cons], .modify fun _ => rfl, rfl, rfl⟩

/-- `Sleep` of a task that is not running does nothing; only `Sleep` of the current task loads
another context. -/
theorem touches_sleep {cpu cpu' : TaskContext} (h : tm.sleep i cpu = some (tm', cpu')) :
    ∃ t, tm.find i = some t ∧
    ((t.running = false ∧ tm' = tm ∧ cpu' = cpu) ∨
      (tm.currentTask = some i ∧ Touches tm tm' i (fun t => (t.setRunning false).setContext cpu) ∧
        ∃ c next, tm'.currentTask = some c ∧ tm.find c = some next ∧ cpu' = next.context) ∨
      (tm.currentTask ≠ some i ∧ Touches tm tm' i (·.setRunning false) ∧ cpu' = cpu)) := by
  rw [sleep] at h
  obtain ⟨t, ht, h⟩ := Option.bind_eq_some_iff.1 h
  refine ⟨t, ht, ?_⟩
  have hmod : Touches tm (tm.modify i (·.setRunning false)) i (·.setRunning false) :=
    .modify fun _ => rfl
  split at h
  · rename_i hr
    cases h
    exact .inl ⟨by simpa using hr, rfl, rfl⟩
  dsimp only at h
  split at h
  · cases h
  rename_i front rest hq
  have hcur : tm.currentTask = some front := by
    have : tm.running tm.currentLevel = front :: rest := hq
    rw [currentTask, this, List.head?_cons]
  split at h
  · rename_i hi
    obtain ⟨⟨tm₁, c⟩, hrot, h⟩ := Option.bind_eq_some_iff.1 h
    obtain ⟨c', hc', h⟩ := Option.bind_eq_some_iff.1 h
    obtain ⟨next, hnext, h⟩ := Option.bind_eq_some_iff.1 h
    cases h
    obtain ⟨hc, htasks, hlatest, hft, hfw⟩ := rotate_frame hrot
    have hci : c = i := by
      have : tm.currentTask = some c := hc
      rw [hcur, ← hi] at this
      exact (Option.some.inj this).symm
    subst hci
    have hrotated : Touches tm tm₁ c (·.setRunning false) := hmod.of_eq htasks hlatest hft hfw
    refine .inr (.inl ⟨by rw [hcur, hi], ?_, c', ?_⟩)
    · have hsave : Touches tm₁ (tm₁.modify c (·.setContext cpu)) c (·.setContext cpu) :=
        .modify fun _ => rfl
      exact hrotated.trans hsave
    · have hfind : ∃ t, tm.find c' = some t ∧ t.context = next.context := by
        rw [hrotated.find] at hnext
        split at hnext
        · obtain ⟨t, ht, rfl⟩ := Option.map_eq_some_iff.1 hnext
          exact ⟨t, ht, rfl⟩
        · exact ⟨next, hnext, rfl⟩
      obtain ⟨t', ht', hctx⟩ := hfind
      exact ⟨t', hc', ht', hctx.symm⟩
  · rename_i hi
    cases h
    refine .inr (.inr ⟨fun hc => hi ?_, hmod.of_eq rfl rfl rfl rfl, rfl⟩)
    exact (Option.some.inj (hcur.symm.trans hc)).symm

theorem touches_switchTask {cpu cpu' : TaskContext} (h : tm.switchTask cpu = some (tm', cpu')) :
    ∃ c c', tm.currentTask = some c ∧ Touches tm tm' c (·.setContext cpu) ∧
      tm'.currentTask = some c' ∧
      (c' = c ∧ cpu' = cpu ∨ ∃ next, tm'.find c' = some next ∧ cpu' = next.context) := by
  rw [switchTask] at h
  obtain ⟨c, hc, h⟩ := Option.bind_eq_some_iff.1 h
  obtain ⟨⟨tm₁, c₁⟩, hrot, h⟩ := Option.bind_eq_some_iff.1 h
  obtain ⟨c', hc', h⟩ := Option.bind_eq_some_iff.1 h
  obtain ⟨hc₁, htasks, hlatest, hft, hfw⟩ := rotate_frame hrot
  have hcc : c₁ = c := (Option.some.inj (hc.symm.trans hc₁)).symm
  have hmod : Touches tm (tm.modify c (·.setContext cpu)) c (·.setContext cpu) :=
    .modify fun _ => rfl
  have htouch : Touches tm tm₁ c (·.setContext cpu) := hmod.of_eq htasks hlatest hft hfw
  split at h
  · obtain ⟨next, hnext, h⟩ := Option.bind_eq_some_iff.1 h
    cases h
    exact ⟨c, c', hc, htouch, hc', .inr ⟨next, hnext, rfl⟩⟩
  · rename_i hsame
    cases h
    exact ⟨c, c', hc, htouch, hc', .inl ⟨by rw [not_not] at hsame; rw [hsame, hcc], rfl⟩⟩

/-- `Finish` takes the current task away, wakes the task that waits for it, and loads the next one's
context. -/
theorem finish_effect {exitCode : Int} {cpu : TaskContext}
    (h : tm.finish exitCode = some (tm', cpu)) :
    ∃ c lv, tm.currentTask = some c ∧
      (∀ j, tm'.find j = if j = c then none
        else if tm.finishWaiter c = some j then (tm.find j).map fun t =>
          (t.setLevel lv).setRunning true
        else tm.find j) ∧
      tm'.latestId = tm.latestId ∧ tm'.finishTasks = Function.update tm.finishTasks c
        (some exitCode) ∧
      tm'.finishWaiter = Function.update tm.finishWaiter c none ∧
      ∃ c' next, tm'.currentTask = some c' ∧ tm'.find c' = some next ∧ cpu = next.context := by
  rw [finish] at h
  obtain ⟨⟨tm₁, c⟩, hrot, h⟩ := Option.bind_eq_some_iff.1 h
  obtain ⟨tm₂, hw, h⟩ := Option.bind_eq_some_iff.1 h
  obtain ⟨c', hc', h⟩ := Option.bind_eq_some_iff.1 h
  obtain ⟨next, hnext, h⟩ := Option.bind_eq_some_iff.1 h
  cases h
  obtain ⟨hc, htasks, hlatest, hft, hfw⟩ := rotate_frame hrot
  have hfind : ∀ j, find { tm₁ with tasks := tm₁.tasks.filter fun t => t.id ≠ c } j =
      if j = c then none else tm.find j := fun j => by rw [find_filter_ne, find_congr htasks]
  rw [wakeFinishWaiter] at hw
  split at hw
  · rename_i w hwaiter
    have hwaiter : tm.finishWaiter c = some w := by
      rw [← hfw]
      exact hwaiter
    obtain ⟨-, lv, htouch⟩ := touches_wakeup hw
    refine ⟨c, lv, hc, fun j => ?_, htouch.latestId.trans hlatest, ?_, ?_, c', next,
      hc', hnext, rfl⟩
    · have hthis := htouch.find j
      rw [hthis]
      show (if j = w then (find { tm₁ with tasks := tm₁.tasks.filter fun t => t.id ≠ c } j).map _
        else find { tm₁ with tasks := tm₁.tasks.filter fun t => t.id ≠ c } j) = _
      rw [hfind, hwaiter]
      by_cases hjc : j = c
      · rw [if_pos hjc, if_pos hjc, Option.map_none, ite_self]
      · rw [if_neg hjc, if_neg hjc]
        simp only [Option.some_inj, eq_comm]
    · rw [htouch.finishTasks, ← hft]
    · rw [htouch.finishWaiter, ← hfw]
  · rename_i hwaiter
    have hwaiter : tm.finishWaiter c = none := by
      rw [← hfw]
      exact hwaiter
    cases hw
    refine ⟨c, 0, hc, fun j => ?_, hlatest, by rw [← hft], ?_, c', next, hc', hnext, rfl⟩
    · rw [hwaiter, if_neg (c := none = some j) (by simp)]
      exact hfind j
    · rw [← hwaiter, Function.update_eq_self]
      exact hfw

theorem find_newTask (hfresh : tm.find (tm.latestId + 1) = none) (j : Nat) :
    tm.newTask.find j = if j = tm.latestId + 1 then some { id := tm.latestId + 1 } else
      tm.find j := by
  split
  · rename_i hj
    rw [hj, find_newTask_self hfresh]
  · rename_i hj
    exact find_newTask_of_ne hj

end Moxia.TaskManager
