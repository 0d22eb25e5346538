import Moxia.Task.Effects
import Moxia.Task.RunQueue

/-!
# Runs of the scheduler

The constructor establishes `SchedInv`, and every operation on live tasks keeps it, so that it holds
in every state the task manager can reach. `RunQueueOk` is what this says about the queues
themselves.
-/

namespace Moxia

open Lib

namespace TaskManager

variable {tm tm' : TaskManager}

/-- The operations of the task manager, with the CPU context at the call where one is saved. -/
inductive Op
  | newTask
  | wakeup (task : Nat) (level : Int)
  | sleep (task : Nat) (cpu : TaskContext)
  | sendMessage (task : Nat) (msg : Message)
  | switchTask (cpu : TaskContext)
  | finish (exitCode : Int)

def step (tm : TaskManager) : Op → Option TaskManager
  | .newTask => some tm.newTask
  | .wakeup task level => tm.wakeup task level
  | .sleep task cpu => (tm.sleep task cpu).map (·.1)
  | .sendMessage task msg => tm.sendMessageTo task msg
  | .switchTask cpu => (tm.switchTask cpu).map (·.1)
  | .finish exitCode => (tm.finish exitCode).map (·.1)

/-- What the callers promise: live tasks, levels that exist, and an idle task that never blocks. -/
def Allowed (tm : TaskManager) : Op → Prop
  | .newTask | .switchTask _ => True
  | .wakeup task level => tm.Live task ∧ -1 ≤ level ∧ level ≤ kMaxLevel
  | .sleep task _ => tm.Live task ∧ task ≠ idleId
  | .sendMessage task _ => tm.Live task
  | .finish _ => tm.currentTask ≠ some idleId

instance (tm : TaskManager) (id : Nat) : Decidable (tm.Live id) :=
  decidable_of_iff (tm.find id).isSome Option.isSome_iff_exists

instance (tm : TaskManager) : ∀ op, Decidable (tm.Allowed op)
  | .newTask | .switchTask _ => inferInstanceAs (Decidable True)
  | .wakeup _ _ | .sleep _ _ => inferInstanceAs (Decidable (_ ∧ _))
  | .sendMessage task _ => inferInstanceAs (Decidable (tm.Live task))
  | .finish _ => inferInstanceAs (Decidable (_ ≠ _))

/-- The operations that may replace the current task. -/
def Reschedules (tm : TaskManager) : Op → Prop
  | .switchTask _ | .finish _ => True
  | .sleep task _ => tm.currentTask = some task
  | .newTask | .wakeup _ _ | .sendMessage _ _ => False

def IsSwitch : Op → Prop
  | .switchTask _ => True
  | _ => False

/-- One operation, as its callers use it. -/
def Step : TaskManager → Op → TaskManager → Prop :=
  Guarded Allowed fun tm op tm' => tm.step op = some tm'

/-- The current task is the front of the highest queue that is not empty. -/
def CurrentIsTop (tm : TaskManager) : Prop :=
  ∃ lv, tm.running lv ≠ [] ∧ (∀ k, lv < k → tm.running k = []) ∧ tm.currentTask =
    (tm.running lv).head?

/-- The queues hold the running tasks, each once and at its level, and the current level is the
highest non-empty one unless a change is pending. -/
structure RunQueueOk (tm : TaskManager) : Prop where
  running_once : ∀ t ∈ tm.tasks, t.running = true →
    ∀ lv, (tm.running lv).count t.id = if lv = t.level then 1 else 0
  sleeping_out : ∀ t ∈ tm.tasks, t.running = false → ∀ lv, t.id ∉ tm.running lv
  only_live : ∀ lv, ∀ id ∈ tm.running lv, tm.Live id
  current : tm.running tm.currentLevel ≠ []
  highest : tm.levelChanged = false → ∀ lv, tm.currentLevel < lv → tm.running lv = []

theorem SchedInv.runQueueOk (h : SchedInv tm) : RunQueueOk tm where
  running_once t ht hr lv := by
    rw [h.holds t.id lv, h.placement_of_mem ht, if_pos hr]
    simp [eq_comm]
  sleeping_out t ht hr lv hmem := by
    have hp := h.holds.mem_iff.1 hmem
    rw [h.placement_of_mem ht, hr] at hp
    cases hp
  only_live lv id hmem := by
    obtain ⟨t, ht, -, -⟩ := find_of_placement (h.holds.mem_iff.1 hmem)
    exact ⟨t, ht⟩
  current := h.current
  highest := h.highest

theorem SchedInv.currentIsTop (h : SchedInv tm) (hch : tm.levelChanged = false) : tm.CurrentIsTop :=
  ⟨tm.currentLevel, h.current, h.highest hch, rfl⟩

theorem schedInv_new (cr3 stackEnd taskIdle : UInt64) : SchedInv (new cr3 stackEnd taskIdle) := by
  obtain ⟨boot, idle, htasks, ⟨hbid, hblv, hbrun⟩, hiid, hilv, hirun⟩ : ∃ boot idle : Task,
      (new cr3 stackEnd taskIdle).tasks = [boot, idle] ∧
        (boot.id = 1 ∧ boot.level = kMaxLevel ∧ boot.running = true) ∧
        idle.id = idleId ∧ idle.level = 0 ∧ idle.running = true :=
    ⟨_, _, rfl, ⟨rfl, rfl, rfl⟩, rfl, rfl, rfl⟩
  have hrunning : (new cr3 stackEnd taskIdle).running =
      Function.update (Function.update (fun _ => []) kMaxLevel [1]) 0 [idleId] := rfl
  have hplace : ∀ x, (new cr3 stackEnd taskIdle).placement x =
      Function.update (Function.update (fun _ => none) 1 (some kMaxLevel)) idleId (some 0) x := by
    intro x
    rw [placement, find, htasks]
    by_cases hx₁ : x = 1
    · subst hx₁
      simp [hbid, hblv, hbrun, idleId]
    by_cases hx₂ : x = idleId
    · subst hx₂
      simp [hbid, hiid, hilv, hirun, idleId]
    · simp [hbid, hiid, Ne.symm hx₁, Ne.symm hx₂, hx₁, hx₂]
  refine { nodup := ?_, id_le := ?_, level_le := ?_, holds := ?_, idle := ⟨_, rfl, rfl⟩,
           current := ?_, highest := fun _ lv hlv => ?_ }
  · simp [htasks, hbid, hiid, idleId]
  · have hlast : (new cr3 stackEnd taskIdle).latestId = 2 := rfl
    simp [htasks, hbid, hiid, idleId, hlast]
  · simp [htasks, hblv, hilv]
  · have hempty : LevelQueues.Holds (fun _ => ([] : List Nat)) fun _ => none := fun x lv => by simp
    have hboot := hempty.push kMaxLevel (x := 1) rfl (List.Perm.refl _)
    have hidle :=
      hboot.push 0 (x := idleId) (by simp [idleId]) (l := [idleId]) (by simp [kMaxLevel])
    rw [hrunning]
    exact hidle.congr hplace
  · rw [hrunning]
    exact List.cons_ne_nil _ _
  · have hlv' : kMaxLevel < lv := hlv
    rw [hrunning, Function.update_of_ne (by omega), Function.update_of_ne (by omega)]

/-- None of the operations makes a task wait. -/
structure RunInv (tm : TaskManager) : Prop extends SchedInv tm where
  noWaiter : ∀ id, tm.finishWaiter id = none

theorem RunInv.of_touches {i : Nat} {f : Task → Task} (h : RunInv tm) (hinv : SchedInv tm')
    (ht : Touches tm tm' i f) : RunInv tm' :=
  ⟨hinv, fun id => by rw [ht.finishWaiter]; exact h.noWaiter id⟩

/-- One operation: it never gets stuck, and it keeps the invariant. -/
theorem RunInv.step (h : RunInv tm) {op : Op} (hop : tm.Allowed op) :
    ∃ tm', tm.step op = some tm' ∧ RunInv tm' ∧
      (¬ tm.Reschedules op → tm'.currentTask = tm.currentTask) ∧
      (IsSwitch op → tm'.levelChanged = false) := by
  cases op with
  | newTask => exact ⟨_, rfl, ⟨h.newTask, h.noWaiter⟩, fun _ => rfl, False.elim⟩
  | wakeup task level =>
    obtain ⟨⟨t, ht⟩, -, hle⟩ := hop
    obtain ⟨tm', hrun, hinv, hcur⟩ := h.wakeup ht hle
    obtain ⟨-, lv, htouch⟩ := touches_wakeup hrun
    exact ⟨tm', hrun, h.of_touches hinv htouch, fun _ => hcur, False.elim⟩
  | sleep task cpu =>
    obtain ⟨⟨t, ht⟩, hidle⟩ := hop
    obtain ⟨tm', cpu', hrun, hinv, hcur⟩ := h.sleep ht hidle cpu
    refine ⟨tm', by simp [TaskManager.step, hrun], ?_, hcur, False.elim⟩
    obtain ⟨t, -, ⟨-, rfl, -⟩ | ⟨-, htouch, -⟩ | ⟨-, htouch, -⟩⟩ := touches_sleep hrun
    · exact h
    · exact h.of_touches hinv htouch
    · exact h.of_touches hinv htouch
  | sendMessage task msg =>
    obtain ⟨t, ht⟩ := hop
    obtain ⟨tm', hrun, hinv, hcur⟩ := h.sendMessageTo ht msg
    obtain ⟨-, lv, htouch⟩ := touches_sendMessageTo hrun
    exact ⟨tm', hrun, h.of_touches hinv htouch, fun _ => hcur, False.elim⟩
  | switchTask cpu =>
    obtain ⟨tm', cpu', hrun, hinv, hch⟩ := h.switchTask cpu
    obtain ⟨c, c', -, htouch, -⟩ := touches_switchTask hrun
    exact ⟨tm', by
      simp [TaskManager.step, hrun], h.of_touches hinv htouch, fun hne =>
      absurd trivial hne, fun _ => hch⟩
  | finish exitCode =>
    have hwaiter : ∀ c w, tm.currentTask = some c → tm.finishWaiter c = some w →
      tm.Live w ∧ w ≠ c := by
      intro c w _ hw
      rw [h.noWaiter c] at hw
      cases hw
    obtain ⟨tm', cpu', hrun, hinv⟩ := h.finish hop hwaiter exitCode
    obtain ⟨c, lv, -, -, -, -, hfw, -⟩ := finish_effect hrun
    refine ⟨tm', by simp [TaskManager.step, hrun], ⟨hinv, fun id =>
      ?_⟩, fun hne => absurd trivial hne, False.elim⟩
    rw [hfw, Function.update_apply, h.noWaiter id, ite_self]

theorem runInv_new (cr3 stackEnd taskIdle : UInt64) : RunInv (new cr3 stackEnd taskIdle) :=
  ⟨schedInv_new cr3 stackEnd taskIdle, fun _ => rfl⟩

theorem RunInv.run (h : RunInv tm) {ops : List Op} (hrun : Run Step tm ops tm') : RunInv tm' := by
  refine hrun.inv (I := RunInv) (fun s op s' hs hstep => ?_) h
  obtain ⟨hop, hstep⟩ := hstep
  obtain ⟨s'', hs'', hinv, -⟩ := hs.step hop
  rw [hstep] at hs''
  cases hs''
  exact hinv

end TaskManager

open TaskManager

/-- In every state reached from the constructor the queues are in order, and every operation goes
through, changes the current task only where it may, and leaves the queues in order again. -/
theorem runQueue_invariant (cr3 stackEnd taskIdle : UInt64) {ops : List Op} {tm : TaskManager}
    (hrun : Run Step (new cr3 stackEnd taskIdle) ops tm) :
    RunQueueOk tm ∧ ∀ op, tm.Allowed op → ∃ tm', tm.step op = some tm' ∧ RunQueueOk tm' ∧
      (¬ tm.Reschedules op → tm'.currentTask = tm.currentTask) ∧
      (IsSwitch op → tm'.CurrentIsTop) := by
  have hinv := (runInv_new cr3 stackEnd taskIdle).run hrun
  refine ⟨hinv.runQueueOk, fun op hop => ?_⟩
  obtain ⟨tm', hstep, hinv', hcur, hch⟩ := hinv.step hop
  exact ⟨tm', hstep, hinv'.runQueueOk, hcur, fun hsw => hinv'.currentIsTop (hch hsw)⟩

/-- A terminal task is created and woken, and the boot task blocks: the terminal task can be
preempted. -/
theorem runQueue_invariant_terminal : ∃ tm,
    Run Step (new 0 0 0) [.newTask, .wakeup 3 (-1), .sleep 1 {}] tm ∧ tm.currentTask = some 3 ∧
      ∃ tm', tm.step (.switchTask {}) = some tm' ∧ tm'.CurrentIsTop := by
  have hexec : (Run.exec Allowed step (new 0 0 0) [.newTask, .wakeup 3 (-1), .sleep 1 {}]).bind
      currentTask = some 3 := by decide
  obtain ⟨tm, htm, hcur⟩ := Option.bind_eq_some_iff.1 hexec
  have hrun := Run.of_exec htm
  obtain ⟨-, hops⟩ := runQueue_invariant 0 0 0 hrun
  obtain ⟨tm', hstep, -, -, htop⟩ := hops (.switchTask {}) trivial
  exact ⟨tm, hrun, hcur, tm', hstep, htop trivial⟩

end Moxia
