import Moxia.Task.Effects

/-!
# Live tasks and their messages

`tm.inbox id` is the message queue of the task a pointer points to, if it is still owned. All that
the operations of `task.cpp` do to the inboxes is stated here, whatever state the queues are in:
only `SendMessage` and `ReceiveMessage` change one, and only `Finish` takes one away, that of the
current task.
-/

namespace Moxia.TaskManager

variable {tm tm' : TaskManager} {i j c : Nat} {t : Task}

/-- The messages of a live task. -/
def inbox (tm : TaskManager) (id : Nat) : Option (List Message) := (tm.find id).map (·.msgs)

theorem inbox_of_find (h : tm.find i = some t) : tm.inbox i = some t.msgs := by
  rw [inbox, h, Option.map_some]

theorem live_iff_inbox : tm.Live i ↔ ∃ msgs, tm.inbox i = some msgs := by
  simp [Live, inbox, Option.map_eq_some_iff]

theorem inbox_congr {tm tm' : TaskManager} (h : tm'.tasks = tm.tasks) : tm'.inbox = tm.inbox := by
  funext i
  rw [inbox, find_congr h, inbox]

theorem Touches.inbox_msgs {f : Task → Task} {g : List Message → List Message}
    (h : Touches tm tm' i f)
    (hm : ∀ t, (f t).msgs = g t.msgs) :
    tm'.inbox = Function.update tm.inbox i ((tm.inbox i).map g) := by
  funext j
  rw [inbox, h.find]
  by_cases hji : j = i
  · subst hji
    rw [if_pos rfl, Function.update_self, inbox, Option.map_map, Option.map_map]
    congr 1
    funext t
    exact hm t
  · rw [if_neg hji, Function.update_of_ne hji, inbox]

theorem Touches.inbox {f : Task → Task} (h : Touches tm tm' i f) (hm : ∀ t, (f t).msgs = t.msgs) :
    tm'.inbox = tm.inbox := by
  rw [h.inbox_msgs (g := id) hm, Option.map_id_apply, Function.update_eq_self]

theorem inbox_modify {f : Task → Task} (hf : ∀ t, (f t).id = t.id) (hm : ∀ t, (f t).msgs = t.msgs) :
    (tm.modify i f).inbox = tm.inbox :=
  (Touches.modify hf).inbox hm

theorem inbox_newTask {msgs : List Message} (h : tm.inbox i = some msgs) :
    tm.newTask.inbox i = some msgs := by
  obtain ⟨t, ht, hm⟩ := Option.map_eq_some_iff.1 h
  have ht' : tm.newTask.find i = some t := by
    rw [find] at ht
    rw [find, newTask, List.find?_append, ht]
    rfl
  rw [inbox_of_find ht', hm]

theorem inbox_wakeup {level : Int} (h : tm.wakeup i level = some tm') : tm'.inbox = tm.inbox := by
  obtain ⟨-, lv, ht⟩ := touches_wakeup h
  exact ht.inbox fun _ => rfl

theorem inbox_sendMessageTo {msg : Message} (h : tm.sendMessageTo i msg = some tm') :
    tm'.inbox = Function.update tm.inbox i ((tm.inbox i).map (· ++ [msg])) := by
  obtain ⟨-, lv, ht⟩ := touches_sendMessageTo h
  exact ht.inbox_msgs fun _ => rfl

/-- `Wakeup` at the task's own level always gets through, and puts no other task into a queue. -/
theorem wakeup_of_find (ht : tm.find i = some t) : ∃ tm', tm.wakeup i (-1) = some tm' ∧
    (tm'.running = tm.running ∨
      tm'.running = Function.update tm.running t.level (tm.running t.level ++ [i])) := by
  by_cases hr : t.running = true
  · exact ⟨tm, by simp [wakeup, ht, hr, changeLevelRunning], .inl rfl⟩
  · refine ⟨if t.level > tm.currentLevel then
        { (tm.modify i fun s => (s.setLevel t.level).setRunning true).setQueue t.level
          (tm.running t.level ++ [i]) with levelChanged := true }
      else (tm.modify i fun s => (s.setLevel t.level).setRunning true).setQueue t.level
          (tm.running t.level ++ [i]), ?_, .inr ?_⟩
    · rw [wakeup, ht, Option.bind_eq_bind, Option.bind_some, if_neg hr, if_neg (by decide)]
      rfl
    · rw [apply_ite TaskManager.running]
      exact ite_self _

theorem sendMessageTo_of_live (h : tm.Live i) (msg : Message) :
    ∃ tm', tm.sendMessageTo i msg = some tm' ∧ ∀ lv, ∀ x ∈ tm'.running lv,
      x ∈ tm.running lv ∨ x = i := by
  obtain ⟨t, ht⟩ := h
  have ht₁ : (tm.modify i (·.pushMessage msg)).find i = some (t.pushMessage msg) :=
    find_modify_self (fun _ => rfl) ht
  obtain ⟨tm', hw, hrun⟩ := wakeup_of_find ht₁
  refine ⟨tm', by rw [sendMessageTo, ht, Option.bind_eq_bind, Option.bind_some,
    hw], fun lv x hx => ?_⟩
  rcases hrun with hrun | hrun
  · rw [hrun] at hx
    exact .inl hx
  · rw [hrun, Function.update_apply] at hx
    split at hx
    · rename_i hlv
      subst hlv
      exact (List.mem_append.1 hx).imp id List.mem_singleton.1
    · exact .inl hx

theorem inbox_receiveMessage {r : Option Message} (h : tm.receiveMessage i = some (r, tm')) :
    (r = none ∧ tm.inbox i = some [] ∧ tm' = tm) ∨
    (∃ m rest, r = some m ∧ tm.inbox i = some (m :: rest) ∧
      tm'.inbox = Function.update tm.inbox i (some rest) ∧ tm'.running = tm.running ∧
      tm'.currentLevel = tm.currentLevel) := by
  obtain ⟨t, ht, ⟨rfl, hm, rfl⟩ | ⟨m, rfl, hm, htouch, hrest⟩⟩ := touches_receiveMessage h
  · exact .inl ⟨rfl, by rw [inbox_of_find ht, hm], rfl⟩
  · refine .inr ⟨m, t.msgs.tail, rfl, by rw [inbox_of_find ht, ← hm], ?_, hrest⟩
    rw [htouch.inbox_msgs (g := List.tail) fun _ => rfl, inbox_of_find ht, Option.map_some]

theorem inbox_sleep {cpu cpu' : TaskContext} (h : tm.sleep i cpu = some (tm', cpu')) :
    tm'.inbox = tm.inbox := by
  obtain ⟨t, -, ⟨-, rfl, -⟩ | ⟨-, ht, -⟩ | ⟨-, ht, -⟩⟩ := touches_sleep h
  · rfl
  · exact ht.inbox fun _ => rfl
  · exact ht.inbox fun _ => rfl

theorem inbox_switchTask {cpu cpu' : TaskContext} (h : tm.switchTask cpu = some (tm', cpu')) :
    tm'.inbox = tm.inbox := by
  obtain ⟨c, c', -, ht, -⟩ := touches_switchTask h
  exact ht.inbox fun _ => rfl

theorem inbox_finish {exitCode : Int} {cpu : TaskContext}
    (h : tm.finish exitCode = some (tm', cpu)) :
    ∃ c, tm.currentTask = some c ∧ tm'.inbox = Function.update tm.inbox c none := by
  obtain ⟨c, lv, hc, hfind, -⟩ := finish_effect h
  refine ⟨c, hc, funext fun j => ?_⟩
  rw [inbox, hfind]
  by_cases hjc : j = c
  · rw [if_pos hjc, hjc, Function.update_self, Option.map_none]
  · rw [if_neg hjc, Function.update_of_ne hjc, inbox]
    split
    · rw [Option.map_map]
      rfl
    · rfl

theorem inbox_waitFinish {taskId : Nat} {r : Option Int} {cpu cpu' : TaskContext}
    (h : tm.waitFinish i taskId cpu = some (r, tm', cpu')) : tm'.inbox = tm.inbox := by
  rw [waitFinish] at h
  split at h
  · cases h
    exact inbox_congr rfl
  · obtain ⟨⟨tm₁, cpu₁⟩, hs, h⟩ := Option.map_eq_some_iff.1 h
    cases h
    exact (inbox_sleep hs).trans (inbox_congr rfl)

end Moxia.TaskManager
