import Moxia.Task.Wakeups
import Mathlib.Data.Nat.Basic

/-!
# Tasks take turns

While no task of a higher level is ready, the tasks of a level take turns. `ahead` says how many of
them a task has to wait for: it never grows, and with each time that the executing task is replaced
it becomes less (`served_in_turn`). A wakeup for a higher level takes effect when the task is
replaced next, which is one more turn.
-/

namespace Moxia

open Lib

namespace TaskManager

variable {tm tm' : TaskManager} {i j c lv : Nat}

/-- Task `i` is ready at a level above which nobody is. -/
structure Ready (tm : TaskManager) (i lv : Nat) : Prop where
  mem : i ∈ tm.running lv
  top : ∀ k, lv < k → tm.running k = []

/-- How many tasks are to be replaced before it is the turn of task `i`. -/
def ahead (tm : TaskManager) (i lv : Nat) : Nat :=
  (tm.running lv).idxOf i + if tm.currentLevel = lv then 0 else 1

theorem ahead_congr (hq : tm'.running = tm.running) (hl : tm'.currentLevel = tm.currentLevel) :
    tm'.ahead i lv = tm.ahead i lv := by
  rw [ahead, ahead, hq, hl]

theorem idxOf_filter_le {l : List Nat} (p : Nat → Bool) (hi : p i = true) :
    (l.filter p).idxOf i ≤ l.idxOf i := by
  induction l with
  | nil => exact Nat.le_refl _
  | cons x l ih =>
    by_cases hx : x = i
    · rw [hx, List.idxOf_cons_self, List.filter_cons_of_pos hi, List.idxOf_cons_self]
    · rw [List.idxOf_cons_ne _ hx]
      by_cases hp : p x = true
      · rw [List.filter_cons_of_pos hp, List.idxOf_cons_ne _ hx]
        exact Nat.succ_le_succ ih
      · rw [List.filter_cons_of_neg hp]
        exact Nat.le_succ_of_le ih

/-! ## The executing task is replaced -/

/-- Another task goes out of the front of its queue, for good or to the end. -/
theorem rotate_ahead {sleep : Bool} (hhigh : tm.levelChanged = false → ∀ k, tm.currentLevel < k →
    tm.running k = [])
    (hlv : lv ≤ kMaxLevel) (hr : tm.Ready i lv) (hcur : tm.currentTask ≠ some i)
    (hrot : tm.rotateCurrentRunQueue sleep = some (tm', c)) :
    tm'.Ready i lv ∧ tm'.ahead i lv + 1 ≤ tm.ahead i lv := by
  obtain ⟨rest, hq⟩ : ∃ rest, tm.running tm.currentLevel = c :: rest := by
    rw [rotateCurrentRunQueue] at hrot
    split at hrot
    · cases hrot
    · rename_i front rest hq
      cases hrot
      exact ⟨rest, hq⟩
  have hic : c ≠ i := by
    rintro rfl
    exact hcur (by rw [currentTask, hq, List.head?_cons])
  set q :=
    Function.update tm.running tm.currentLevel (if sleep then rest else rest ++ [c]) with hqdef
  -- task `i` has not been moved, but it may have come forward
  have hmove : i ∈ q lv ∧ (q lv).idxOf i + (if tm.currentLevel = lv then 1 else 0) =
    (tm.running lv).idxOf i := by
    by_cases hl : tm.currentLevel = lv
    · have hmem := hr.mem
      rw [← hl, hq, List.mem_cons] at hmem
      have hmem := hmem.resolve_left (Ne.symm hic)
      have hidx : (if sleep then rest else rest ++ [c]).idxOf i = rest.idxOf i := by
        split
        · rfl
        · exact List.idxOf_append_of_mem hmem
      rw [hqdef, ← hl, Function.update_self, if_pos rfl, hidx, hq, List.idxOf_cons_ne _ hic]
      refine ⟨?_, rfl⟩
      split
      · exact hmem
      · exact List.mem_append_left _ hmem
    · rw [hqdef, Function.update_of_ne (Ne.symm hl), if_neg hl]
      exact ⟨hr.mem, rfl⟩
  have htop : ∀ k, lv < k → q k = [] := by
    intro k hk
    have hne : k ≠ tm.currentLevel := by
      rintro rfl
      exact List.cons_ne_nil _ _ (hq.symm.trans (hr.top _ hk))
    rw [hqdef, Function.update_of_ne hne, hr.top k hk]
  obtain ⟨tm₁, hrot₁, hrotated⟩ :=
    rotate_spec hq sleep hhigh hqdef ⟨lv, hlv, List.ne_nil_of_mem hmove.1⟩
  cases hrot.symm.trans hrot₁
  -- the level of `i` is the highest one in use
  have hlevel : tm'.currentLevel = lv := by
    rcases Nat.lt_trichotomy tm'.currentLevel lv with hlt | heq | hgt
    · exact absurd (hrotated.highest lv hlt hlv) (List.ne_nil_of_mem hmove.1)
    · exact heq
    · exact absurd (htop _ hgt) hrotated.current
  refine ⟨⟨hrotated.running ▸ hmove.1, fun k hk => hrotated.running ▸ htop k hk⟩, ?_⟩
  rw [ahead, ahead, hrotated.running, if_pos hlevel, ← hmove.2]
  split <;> omega

theorem sleep_ahead {cpu cpu' : TaskContext} {t : Task} (h : SchedInv tm) (hr : tm.Ready i lv)
    (hc : tm.currentTask = some c)
    (ht : tm.find c = some t) (hrun : t.running = true) (hci : c ≠ i)
    (hs : tm.sleep c cpu = some (tm', cpu')) :
    tm'.ahead i lv + 1 ≤ tm.ahead i lv := by
  obtain ⟨front, rest, -, hq, hfront, -⟩ := h.exists_current
  cases hc.symm.trans hfront
  rw [sleep, ht, Option.bind_eq_bind, Option.bind_some, if_neg (by simp [hrun])] at hs
  have hq' : (tm.modify c (·.setRunning false)).running
    (tm.modify c (·.setRunning false)).currentLevel = c :: rest := hq
  simp only [hq', if_true] at hs
  obtain ⟨⟨tm₁, c₁⟩, hrot, hs⟩ := Option.bind_eq_some_iff.1 hs
  obtain ⟨_, -, hs⟩ := Option.bind_eq_some_iff.1 hs
  obtain ⟨_, -, hs⟩ := Option.bind_eq_some_iff.1 hs
  cases hs
  have hcur : (tm.modify c (·.setRunning false)).currentTask ≠ some i := fun heq =>
    hci (Option.some.inj (hc.symm.trans heq))
  have hahead : _ ∧ tm₁.ahead i lv + 1 ≤ (tm.modify c (·.setRunning false)).ahead i lv :=
    rotate_ahead h.highest (h.level_of_mem hr.mem) ⟨hr.mem, hr.top⟩ hcur hrot
  exact hahead.2

theorem switchTask_ahead {cpu cpu' : TaskContext} (h : SchedInv tm) (hr : tm.Ready i lv)
    (hcur : tm.currentTask ≠ some i)
    (hs : tm.switchTask cpu = some (tm', cpu')) : tm'.ahead i lv + 1 ≤ tm.ahead i lv := by
  obtain ⟨c, -, hs⟩ := Option.bind_eq_some_iff.1 hs
  obtain ⟨⟨tm₁, c₁⟩, hrot, hs⟩ := Option.bind_eq_some_iff.1 hs
  obtain ⟨_, -, hs⟩ := Option.bind_eq_some_iff.1 hs
  have hahead : _ ∧ tm₁.ahead i lv + 1 ≤ (tm.modify c (·.setContext cpu)).ahead i lv :=
    rotate_ahead h.highest (h.level_of_mem hr.mem) ⟨hr.mem, hr.top⟩ hcur hrot
  split at hs
  · obtain ⟨_, -, hs⟩ := Option.bind_eq_some_iff.1 hs
    cases hs
    exact hahead.2
  · cases hs
    exact hahead.2

/-! ## A task is woken -/

theorem idxOf_erase_le {q : LevelQueues Nat} (hji : j ≠ i) (k lv : Nat) :
    (Function.update q k ((q k).filter (· ≠ j)) lv).idxOf i ≤ (q lv).idxOf i := by
  by_cases hl : lv = k
  · rw [hl, Function.update_self]
    exact idxOf_filter_le _ (by simpa using Ne.symm hji)
  · rw [Function.update_of_ne hl]

theorem idxOf_pushBack {q : LevelQueues Nat} (k : Nat) (hi : i ∈ q lv) :
    (Function.update q k (q k ++ [j]) lv).idxOf i = (q lv).idxOf i := by
  by_cases hl : lv = k
  · rw [hl, Function.update_self, List.idxOf_append_of_mem (hl ▸ hi)]
  · rw [Function.update_of_ne hl]

theorem changeLevelRunning_ahead {t : Task} {level : Int} (h : SchedInv tm)
    (ht : tm.find j = some t) (hrun : t.running = true)
    (hr : tm.Ready i lv) (hr' : tm'.Ready i lv) (hcur : tm.currentTask ≠ some i)
    (hc : tm.changeLevelRunning t level = some tm') : tm'.ahead i lv ≤ tm.ahead i lv := by
  have hid := find_id ht
  have hplaced : ∀ k, j ∈ tm.running k → k = t.level := fun k hk =>
    Option.some.inj ((h.holds.mem_iff.1 hk).symm.trans ((placement_of_find ht).trans (if_pos hrun)))
  obtain ⟨c, rest, -, hq, hfront, -⟩ := h.exists_current
  have hci : c ≠ i := fun heq => hcur (heq ▸ hfront)
  rw [changeLevelRunning] at hc
  split at hc
  · cases hc
    exact Nat.le_refl _
  rename_i hkeep
  split at hc
  · cases hc
  set n := level.toNat with hn
  have hnt : n ≠ t.level := by omega
  simp only [hq, hid] at hc
  split at hc
  · -- another task than the executing one
    set q := Function.update tm.running t.level ((tm.running t.level).filter (· ≠ j)) with hqdef
    have hrunning : tm'.running = Function.update q n (q n ++ [j]) ∧ tm'.currentLevel =
      tm.currentLevel := by
      split at hc <;> cases hc <;> exact ⟨rfl, rfl⟩
    have hji : j ≠ i := by
      -- it is not `i`, which stays at its level
      rintro rfl
      have hl : lv = t.level := hplaced lv hr.mem
      have hmem := hr'.mem
      rw [hrunning.1, hl, Function.update_of_ne (Ne.symm hnt), hqdef, Function.update_self,
        List.mem_filter] at hmem
      exact of_decide_eq_true hmem.2 rfl
    have hmem : i ∈ q lv := by
      by_cases hl : lv = t.level
      · rw [hqdef, hl, Function.update_self, List.mem_filter]
        exact ⟨hl ▸ hr.mem, decide_eq_true (Ne.symm hji)⟩
      · rw [hqdef, Function.update_of_ne hl]
        exact hr.mem
    rw [ahead, ahead, hrunning.1, hrunning.2, idxOf_pushBack n hmem]
    exact Nat.add_le_add_right (idxOf_erase_le hji t.level lv) _
  · -- the executing task takes its place at the front with it
    rename_i hjc
    rw [not_not] at hjc
    have hlevel : n ≠ tm.currentLevel := by
      have hmem : j ∈ tm.running tm.currentLevel := by
        rw [hq, hjc]
        exact List.mem_cons_self
      rw [hplaced _ hmem]
      exact hnt
    have hrunning : tm'.running =
        Function.update (Function.update tm.running tm.currentLevel rest) n
        (c :: Function.update tm.running tm.currentLevel rest n) ∧ tm'.currentLevel = n := by
      rw [hjc] at hc
      split at hc <;> cases hc <;> exact ⟨rfl, rfl⟩
    rw [ahead, ahead, hrunning.1, hrunning.2]
    by_cases hnl : n = lv
    · rw [← hnl, Function.update_self, Function.update_of_ne hlevel, List.idxOf_cons_ne _ hci,
        if_pos rfl, if_neg (Ne.symm hlevel)]
    · rw [Function.update_of_ne (Ne.symm hnl), if_neg hnl]
      by_cases hl : tm.currentLevel = lv
      · rw [if_pos hl, ← hl, Function.update_self, hq, List.idxOf_cons_ne _ hci]
      · rw [if_neg hl, Function.update_of_ne (Ne.symm hl)]

/-- A task that is awake may change its level; the others go to the end of a queue. -/
theorem wakeup_cases {level : Int} (h : tm.wakeup j level = some tm') :
    (∃ t, tm.find j = some t ∧ t.running = true ∧ tm.changeLevelRunning t level = some tm') ∨
      ∃ n, tm'.running = Function.update tm.running n (tm.running n ++ [j]) ∧ tm'.currentLevel =
        tm.currentLevel := by
  obtain ⟨t, ht, h⟩ := Option.bind_eq_some_iff.1 h
  split at h
  · exact .inl ⟨t, ht, ‹_›, h⟩
  split at h
  · cases h
  cases h
  refine .inr ⟨if level < 0 then t.level else level.toNat, ?_⟩
  generalize (if level < 0 then t.level else level.toNat) = n
  split <;> exact ⟨rfl, rfl⟩

theorem wakeup_ahead {level : Int} (h : SchedInv tm) (hr : tm.Ready i lv) (hr' : tm'.Ready i lv)
    (hcur : tm.currentTask ≠ some i)
    (hw : tm.wakeup j level = some tm') : tm'.ahead i lv ≤ tm.ahead i lv := by
  rcases wakeup_cases hw with ⟨t, ht, hrun, hc⟩ | ⟨n, hrunning, hlevel⟩
  · exact changeLevelRunning_ahead h ht hrun hr hr' hcur hc
  · rw [ahead, ahead, hrunning, hlevel, idxOf_pushBack n hr.mem]

theorem wakeup_own_ahead (hr : tm.Ready i lv) (hw : tm.wakeup j (-1) = some tm') :
    tm'.ahead i lv ≤ tm.ahead i lv := by
  rcases wakeup_cases hw with ⟨t, -, -, hc⟩ | ⟨n, hrunning, hlevel⟩
  · rw [changeLevelRunning, if_pos (.inl (by decide))] at hc
    cases hc
    exact Nat.le_refl _
  · rw [ahead, ahead, hrunning, hlevel, idxOf_pushBack n hr.mem]

theorem wakeFinishWaiter_ahead (hr : tm.Ready i lv) (hw : tm.wakeFinishWaiter j = some tm') :
    tm'.ahead i lv ≤ tm.ahead i lv := by
  rw [wakeFinishWaiter] at hw
  split at hw
  · have hle : _ ≤ ({ tm with finishWaiter := Function.update tm.finishWaiter j none } :
      TaskManager).ahead i lv :=
      wakeup_own_ahead ⟨hr.mem, hr.top⟩ hw
    exact hle
  · cases hw
    exact Nat.le_refl _

/-- Who waits for the executing task is woken after this one has gone. -/
theorem finish_ahead {exitCode : Int} {cpu : TaskContext} (h : SchedInv tm) (hr : tm.Ready i lv)
    (hcur : tm.currentTask ≠ some i)
    (hf : tm.finish exitCode = some (tm', cpu)) : tm'.ahead i lv + 1 ≤ tm.ahead i lv := by
  obtain ⟨⟨tm₁, c⟩, hrot, hf⟩ := Option.bind_eq_some_iff.1 hf
  obtain ⟨tm₂, hw, hf⟩ := Option.bind_eq_some_iff.1 hf
  obtain ⟨_, -, hf⟩ := Option.bind_eq_some_iff.1 hf
  obtain ⟨_, -, hf⟩ := Option.bind_eq_some_iff.1 hf
  cases hf
  obtain ⟨hr₁, hahead⟩ := rotate_ahead h.highest (h.level_of_mem hr.mem) hr hcur hrot
  have hle : tm'.ahead i lv ≤ ({ tm₁ with
      tasks := tm₁.tasks.filter fun t => t.id ≠ c
      finishTasks := Function.update tm₁.finishTasks c (some exitCode) } : TaskManager).ahead i
        lv :=
    wakeFinishWaiter_ahead ⟨hr₁.mem, hr₁.top⟩ hw
  exact Nat.le_trans (Nat.add_le_add_right hle 1) hahead

end TaskManager

namespace Wakeups.System

open TaskManager

variable {st st' : System} {i lv n : Nat}

/-- The event replaces the executing task. -/
def Yields (st : System) : Event → Prop
  | .switchTask _ | .finish _ => True
  | .receive _ => ∃ c t, st.tm.currentTask = some c ∧ st.tm.find c = some t ∧ t.msgs = []
  | .waitFinish taskId _ => st.tm.finishTasks taskId = none
  | .newTask | .wakeup _ _ | .sendMessage _ _ => False

/-- Task `i` is ready at level `lv` all the time, nobody above is, and it is not its turn; the
executing task is replaced `n` times. -/
inductive Waits (i lv : Nat) : System → Nat → System → Prop
  | refl {st : System} (h : st.tm.Ready i lv) : Waits i lv st 0 st
  | stay {st st₁ st' : System} {n : Nat} {e : Event} (h : Waits i lv st n st₁)
    (hcur : st₁.tm.currentTask ≠ some i)
    (hstep : Step st₁ e st') (hr : st'.tm.Ready i lv) : Waits i lv st n st'
  | yield {st st₁ st' : System} {n : Nat} {e : Event} (h : Waits i lv st n st₁)
    (hcur : st₁.tm.currentTask ≠ some i)
    (hstep : Step st₁ e st') (hy : st₁.Yields e) (hr : st'.tm.Ready i lv) :
    Waits i lv st (n + 1) st'

theorem step_ahead {e : Event} (h : WaitInv st) (hr : st.tm.Ready i lv) (hr' : st'.tm.Ready i lv)
    (hcur : st.tm.currentTask ≠ some i) (hstep : Step st e st') :
    st'.tm.ahead i lv ≤ st.tm.ahead i lv ∧
      (st.Yields e → st'.tm.ahead i lv + 1 ≤ st.tm.ahead i lv) := by
  obtain ⟨hok, hstep⟩ := hstep
  -- it is enough to look at the events that replace the executing task by themselves
  have hyields (hahead : st'.tm.ahead i lv + 1 ≤ st.tm.ahead i lv) :
      st'.tm.ahead i lv ≤ st.tm.ahead i lv ∧
        (st.Yields e → st'.tm.ahead i lv + 1 ≤ st.tm.ahead i lv) :=
    ⟨Nat.le_of_succ_le hahead, fun _ => hahead⟩
  have hsleep {c : Nat} {tm tm' : TaskManager} {cpu cpu' : TaskContext} (htm : SchedInv tm)
      (hq : tm.running = st.tm.running)
      (hl : tm.currentLevel = st.tm.currentLevel) (hc : st.tm.currentTask = some c)
        (hs : tm.sleep c cpu = some (tm', cpu')) :
      tm'.ahead i lv + 1 ≤ st.tm.ahead i lv := by
    have hc' : tm.currentTask = some c := by rwa [currentTask, hq, hl]
    obtain ⟨_, _, t, -, hfront, ht, hrun, -⟩ := htm.exists_current
    cases hc'.symm.trans hfront
    rw [← ahead_congr hq hl]
    exact sleep_ahead htm ⟨hq ▸ hr.mem, hq ▸ hr.top⟩ hc' ht hrun (fun heq => hcur (heq ▸ hc)) hs
  cases e with
  | newTask =>
    cases hstep
    exact ⟨Nat.le_refl _, False.elim⟩
  | wakeup task level =>
    obtain ⟨⟨_, tm'⟩, hw, rfl⟩ := Option.map_eq_some_iff.1 hstep
    refine ⟨?_, False.elim⟩
    rw [wakeupById] at hw
    split at hw
    · cases hw
      exact Nat.le_refl _
    · obtain ⟨_, hw, heq⟩ := Option.map_eq_some_iff.1 hw
      cases heq
      exact wakeup_ahead h.sched hr hr' hcur hw
  | sendMessage task msg =>
    obtain ⟨⟨_, tm'⟩, hw, rfl⟩ := Option.map_eq_some_iff.1 hstep
    refine ⟨?_, False.elim⟩
    rw [TaskManager.sendMessage] at hw
    split at hw
    · cases hw
      exact Nat.le_refl _
    · obtain ⟨_, hw, heq⟩ := Option.map_eq_some_iff.1 hw
      cases heq
      obtain ⟨_, -, hw⟩ := Option.bind_eq_some_iff.1 hw
      have hle : _ ≤ (st.tm.modify task (·.pushMessage msg)).ahead i lv :=
        wakeup_own_ahead ⟨hr.mem, hr.top⟩ hw
      exact hle
  | switchTask cpu =>
    obtain ⟨⟨tm', cpu'⟩, hs, rfl⟩ := Option.map_eq_some_iff.1 hstep
    exact hyields (switchTask_ahead h.sched hr hcur hs)
  | receive cpu =>
    obtain ⟨c, hc, hstep⟩ := Option.bind_eq_some_iff.1 hstep
    rw [System.receive] at hstep
    obtain ⟨⟨r, tm₁⟩, hrecv, hstep⟩ := Option.bind_eq_some_iff.1 hstep
    obtain ⟨t, ht, ⟨rfl, hnil, rfl⟩ | ⟨m, rfl, hmsgs, -, hq, hl⟩⟩ := touches_receiveMessage hrecv
    · obtain ⟨⟨tm', cpu'⟩, hs, rfl⟩ := Option.map_eq_some_iff.1 hstep
      exact hyields (hsleep h.sched rfl rfl hc hs)
    · cases hstep
      refine ⟨Nat.le_of_eq (ahead_congr hq hl), ?_⟩
      rintro ⟨c', t', hc', ht', hnil⟩
      cases hc.symm.trans hc'
      cases ht.symm.trans ht'
      rw [hnil] at hmsgs
      cases hmsgs
  | waitFinish taskId cpu =>
    obtain ⟨c, hc, hstep⟩ := Option.bind_eq_some_iff.1 hstep
    rw [System.waitFinish] at hstep
    obtain ⟨⟨r, tm₁, cpu₁⟩, hw, heq⟩ := Option.map_eq_some_iff.1 hstep
    rw [TaskManager.waitFinish] at hw
    split at hw
    · rename_i code hcode
      cases hw
      cases heq
      refine ⟨Nat.le_refl _, fun hnone => ?_⟩
      cases hcode.symm.trans hnone
    · obtain ⟨⟨tm', cpu'⟩, hs, heq'⟩ := Option.map_eq_some_iff.1 hw
      cases heq'
      cases heq
      have hsched : SchedInv { st.tm with
          finishWaiter := Function.update st.tm.finishWaiter taskId (some c) } := h.sched.maps _ _
      exact hyields (hsleep hsched rfl rfl hc hs)
  | finish exitCode =>
    obtain ⟨c, hc, hstep⟩ := Option.bind_eq_some_iff.1 hstep
    obtain ⟨⟨tm', cpu'⟩, hf, rfl⟩ := Option.map_eq_some_iff.1 hstep
    exact hyields (finish_ahead h.sched hr hcur hf)

theorem Waits.ready (hw : Waits i lv st n st') : st'.tm.Ready i lv := by
  cases hw <;> assumption

theorem Waits.start (hw : Waits i lv st n st') : st.tm.Ready i lv := by
  induction hw with
  | refl h => exact h
  | stay _ _ _ _ ih | yield _ _ _ _ _ ih => exact ih

theorem Waits.ahead (h : WaitInv st) (hw : Waits i lv st n st') :
    WaitInv st' ∧ n + st'.tm.ahead i lv ≤ st.tm.ahead i lv := by
  induction hw with
  | refl => exact ⟨h, Nat.le_of_eq (Nat.zero_add _)⟩
  | stay hw hcur hstep hr ih =>
    have hle := (step_ahead ih.1 hw.ready hr hcur hstep).1
    exact ⟨ih.1.run (.single hstep), by omega⟩
  | yield hw hcur hstep hy hr ih =>
    have hlt := (step_ahead ih.1 hw.ready hr hcur hstep).2 hy
    exact ⟨ih.1.run (.single hstep), by omega⟩

end Wakeups.System

open Wakeups

/-- In every run, a task that is ready, while no task of a higher level is, has its turn when the
executing task has been replaced as often as there are tasks before it in the queue, or once more
where a lower level is the current one: never more often than there are tasks at its level. -/
theorem served_in_turn (cr3 stackEnd taskIdle : UInt64) {es : List System.Event} {st st' : System}
    {i lv n : Nat}
    (hrun : Run System.Step { tm := .new cr3 stackEnd taskIdle } es st)
    (hw : System.Waits i lv st n st') :
    n ≤ st.tm.ahead i lv ∧ st.tm.ahead i lv ≤ (st.tm.running lv).length ∧
      (n = st.tm.ahead i lv → st'.tm.currentTask = some i) := by
  have hinv := (System.WaitInv.init cr3 stackEnd taskIdle).run hrun
  obtain ⟨-, hahead⟩ := hw.ahead hinv
  have hready : st.tm.Ready i lv := hw.start
  refine ⟨by omega, ?_, fun hn => ?_⟩
  · have hlt := List.idxOf_lt_length_of_mem hready.mem
    rw [TaskManager.ahead]
    split <;> omega
  · have hzero : st'.tm.ahead i lv = 0 := by omega
    rw [TaskManager.ahead] at hzero
    split at hzero
    · rename_i hlevel
      have hidx : (st'.tm.running lv).idxOf i = 0 := hzero
      have hmem := hw.ready.mem
      rw [TaskManager.currentTask, hlevel, List.head?_eq_getElem?]
      rw [← hidx]
      exact List.getElem?_idxOf hmem
    · cases hzero

/-- Two tasks are ready, the boot task sleeps, and the timer has the second one run after the
first. -/
theorem served_in_turn_two : ∃ st st', Run System.Step { tm := .new 0 0 0 }
    [.newTask, .wakeup 3 (-1), .newTask, .wakeup 4 (-1), .receive {}] st ∧
      System.Waits 4 1 st 1 st' ∧
      1 ≤ st.tm.ahead 4 1 ∧ st'.tm.currentTask = some 4 := by
  have hexec : ((Run.exec System.Allowed System.step { tm := .new 0 0 0 }
      [.newTask, .wakeup 3 (-1), .newTask, .wakeup 4 (-1), .receive {}]).any fun st =>
        4 ∈ st.tm.running 1 ∧ st.tm.running 2 = [] ∧ st.tm.running 3 = [] ∧ st.tm.currentTask =
          some 3 ∧ st.tm.ahead 4 1 = 1 ∧
        (st.step (.switchTask {})).any fun st' => 4 ∈ st'.tm.running 1 ∧ st'.tm.running 2 = [] ∧
          st'.tm.running 3 = []) = true := by
    decide
  obtain ⟨st, hrun, hmem, htwo, hthree, hcur, hahead, hstep⟩ := Run.exists_of_exec hexec
  obtain ⟨st', hstep, hafter⟩ := (Option.any_eq_true _ _).1 hstep
  obtain ⟨hmem', htwo', hthree'⟩ := of_decide_eq_true hafter
  have hinv := (System.WaitInv.init 0 0 0).run hrun
  have hswitch : System.Step st (.switchTask {}) st' := ⟨trivial, hstep⟩
  have htop {tm : TaskManager} (h : tm.SchedInv) (h₂ : tm.running 2 = []) (h₃ : tm.running 3 = [])
      (k : Nat) (hk : 1 < k) :
      tm.running k = [] := by
    by_contra hne
    have hle : k ≤ 3 := h.level_of_ne_nil hne
    obtain rfl | rfl : k = 2 ∨ k = 3 := by omega
    exacts [hne h₂, hne h₃]
  have hcur' : st.tm.currentTask ≠ some 4 := by
    rw [hcur]
    decide
  have hw : System.Waits 4 1 st 1 st' :=
    .yield (.refl ⟨hmem, htop hinv.sched htwo hthree⟩) hcur' hswitch trivial
    ⟨hmem', htop (hinv.run (.single hswitch)).sched htwo' hthree'⟩
  obtain ⟨hle, -, hturn⟩ := served_in_turn 0 0 0 hrun hw
  exact ⟨st, st', hrun, hw, hle, hturn hahead.symm⟩

end Moxia
