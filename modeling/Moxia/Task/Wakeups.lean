import Moxia.Task.Scheduler

/-!
# Receiving and waiting

The tasks take turns at the sections they execute with interrupts disabled: a turn of a receive loop
is `ReceiveMessage` and, if there is no message, `Sleep`; a turn of the loop in `WaitFinish` looks
for the exit code and, if there is none, registers the caller and puts it to sleep. A task may be
woken by a message, by `Finish` or by `Wakeup`, and then takes its turn again. `WaitInv` says what
the two maps and the running flags have to do with the loops the tasks are in; every turn keeps it,
so that no wakeup is lost (`no_lost_wakeup`).
-/

namespace Moxia

open Lib

namespace Wakeups

/-- The loop a task is in. -/
inductive Mode
  | none
  | receive
  | waitFinish (taskId : Nat)
deriving DecidableEq

/-- The tasks and their loops; `exited` records the exit codes passed to `Finish`, `returned` those
`WaitFinish` has returned. -/
structure System where
  tm : TaskManager
  mode : Nat → Mode := fun _ => .none
  exited : Nat → Option Int := fun _ => none
  returned : Nat → Option Int := fun _ => none

namespace System

inductive Event
  | newTask
  | wakeup (task : Nat) (level : Int)
  | sendMessage (task : Nat) (msg : Message)
  | switchTask (cpu : TaskContext)
  | receive (cpu : TaskContext)
  | waitFinish (taskId : Nat) (cpu : TaskContext)
  | finish (exitCode : Int)

def setMode (st : System) (task : Nat) (mode : Mode) : System :=
  { st with mode := Function.update st.mode task mode }

@[simp] theorem setMode_self (st : System) (c : Nat) (m : Mode) : (st.setMode c m).mode c = m :=
  Function.update_self ..

theorem setMode_of_ne {c w : Nat} (h : w ≠ c) (st : System) (m : Mode) :
    (st.setMode c m).mode w = st.mode w :=
  Function.update_of_ne h ..

/-- A turn of a receive loop. -/
def receive (st : System) (c : Nat) (cpu : TaskContext) : Option System :=
  (st.tm.receiveMessage c).bind fun
    | (some _, tm) => some ({ st with tm := tm }.setMode c .none)
    | (none, tm) => (tm.sleep c cpu).map fun (tm, _) => { st with tm := tm }.setMode c .receive

/-- A turn of the loop in `WaitFinish`. -/
def waitFinish (st : System) (c taskId : Nat) (cpu : TaskContext) : Option System :=
  (st.tm.waitFinish c taskId cpu).map fun
    | (some exitCode, tm, _) =>
      { st with tm := tm, returned := Function.update st.returned taskId (some exitCode) }.setMode c
        .none
    | (none, tm, _) => { st with tm := tm }.setMode c (.waitFinish taskId)

def finish (st : System) (c : Nat) (exitCode : Int) : Option System :=
  (st.tm.finish exitCode).map fun (tm, _) =>
    { st with tm := tm, exited := Function.update st.exited c (some exitCode) }

def step (st : System) : Event → Option System
  | .newTask => some { st with tm := st.tm.newTask }
  | .wakeup task level => (st.tm.wakeupById task level).map fun (_, tm) => { st with tm := tm }
  | .sendMessage task msg => (st.tm.sendMessage task msg).map fun (_, tm) => { st with tm := tm }
  | .switchTask cpu => (st.tm.switchTask cpu).map fun (tm, _) => { st with tm := tm }
  | .receive cpu => st.tm.currentTask.bind fun c => st.receive c cpu
  | .waitFinish taskId cpu => st.tm.currentTask.bind fun c => st.waitFinish c taskId cpu
  | .finish exitCode => st.tm.currentTask.bind fun c => st.finish c exitCode

/-- The executing task, which is not the idle task, is in a loop that `P` allows. -/
def Executes (st : System) (P : Mode → Prop) : Prop :=
  ∃ c, st.tm.currentTask = some c ∧ c ≠ TaskManager.idleId ∧ P (st.mode c)

/-- A task that is in a loop goes on with it; each task is waited for once. -/
def Allowed (st : System) : Event → Prop
  | .newTask | .sendMessage _ _ | .switchTask _ => True
  | .wakeup _ level => level ≤ kMaxLevel
  | .receive _ => st.Executes fun m => m = .none ∨ m = .receive
  | .waitFinish taskId _ => st.Executes fun m => m = .waitFinish taskId ∨
      (m = .none ∧ st.returned taskId = none ∧ ∀ t ∈ st.tm.tasks, st.mode t.id ≠ .waitFinish taskId)
  | .finish _ => st.Executes fun m => m = .none

instance (st : System) (P : Mode → Prop) [DecidablePred P] : Decidable (st.Executes P) :=
  decidable_of_iff (∃ c ∈ st.tm.currentTask, c ≠ TaskManager.idleId ∧ P (st.mode c)) Iff.rfl

instance (st : System) : ∀ e, Decidable (st.Allowed e)
  | .newTask | .sendMessage _ _ | .switchTask _ => inferInstanceAs (Decidable True)
  | .wakeup _ _ => inferInstanceAs (Decidable (_ ≤ _))
  | .receive _ => inferInstanceAs (Decidable (st.Executes fun m => m = .none ∨ m = .receive))
  | .waitFinish taskId _ =>
      inferInstanceAs (Decidable (st.Executes fun m => m = .waitFinish taskId ∨
      (m = .none ∧ st.returned taskId = none ∧ ∀ t ∈ st.tm.tasks,
        st.mode t.id ≠ .waitFinish taskId)))
  | .finish _ => inferInstanceAs (Decidable (st.Executes fun m => m = .none))

def Step : System → Event → System → Prop := Guarded Allowed fun st e st' => st.step e = some st'

/-! ### The invariant -/

structure WaitInv (st : System) : Prop where
  sched : TaskManager.SchedInv st.tm
  live : ∀ w, st.mode w ≠ .none → st.tm.Live w
  receive : ∀ w t, st.mode w = .receive → st.tm.find w = some t → t.running = false → t.msgs = []
  waiting : ∀ w id t, st.mode w = .waitFinish id → st.tm.find w = some t → t.running = false →
    st.tm.finishTasks id = none ∧ st.tm.finishWaiter id = some w
  waiter : ∀ id w, st.tm.finishWaiter id = some w → st.mode w = .waitFinish id
  unique : ∀ w w' id, st.mode w = .waitFinish id → st.mode w' = .waitFinish id → w = w'
  /-- An exit code is kept until it is returned. -/
  pending : ∀ id code, st.exited id = some code → st.returned id = none →
    st.tm.finishTasks id = some code ∧ st.tm.finishWaiter id = none
  finished : ∀ id code, st.tm.finishTasks id = some code → st.exited id = some code ∧
    st.returned id = none
  returned : ∀ id code, st.returned id = some code → st.exited id = some code ∧
    st.tm.finishTasks id = none ∧
    st.tm.finishWaiter id = none ∧ ∀ w, st.mode w ≠ .waitFinish id
  gone : ∀ id code, st.exited id = some code → ¬ st.tm.Live id ∧ id ≤ st.tm.latestId

/-- `c` waits for `id`, or is in no loop and nobody has waited for `id`. -/
def MayWait (st : System) (c id : Nat) : Prop :=
  st.mode c = .waitFinish id ∨
    (st.mode c = .none ∧ st.returned id = none ∧ ∀ w, st.mode w ≠ .waitFinish id)

theorem MayWait.eq {st : System} {c id id' : Nat} (hm : MayWait st c id)
    (hmode : st.mode c = .waitFinish id') :
    id' = id := by
  rcases hm with hm | ⟨hm, -⟩
  · rw [hm] at hmode
    exact (Mode.waitFinish.inj hmode).symm
  · rw [hm] at hmode
    cases hmode

namespace WaitInv

open TaskManager

variable {st st' : System} {tm' : TaskManager} {i c : Nat} {f : Task → Task}

/-- A task is rewritten: those who are asleep afterwards are what has to be looked at. -/
theorem of_touches (h : WaitInv st) (hs : SchedInv tm') (ht : Touches st.tm tm' i f)
    (hreceive : ∀ w t, st.mode w = .receive → tm'.find w = some t → t.running = false → t.msgs = [])
    (hwaiting : ∀ w id t, st.mode w = .waitFinish id → tm'.find w = some t → t.running = false →
      st.tm.finishTasks id = none ∧ st.tm.finishWaiter id = some w) :
    WaitInv { st with tm := tm' } := by
  refine { sched := hs, live := fun w hw => ht.live_iff.2 (h.live w hw), receive := hreceive,
           waiting := ?_, waiter := ?_,
           unique := h.unique, pending := ?_, finished := ?_, returned := ?_, gone := ?_ }
  all_goals
    simp only [ht.finishTasks, ht.finishWaiter, ht.latestId, ht.live_iff]
  · exact hwaiting
  · exact h.waiter
  · exact h.pending
  · exact h.finished
  · exact h.returned
  · exact h.gone

theorem touch (h : WaitInv st) (hs : SchedInv tm') (ht : Touches st.tm tm' i f)
    (hf : ∀ t, st.tm.find i = some t → (f t).running = false → t.running = false ∧
    (f t).msgs = t.msgs) :
    WaitInv { st with tm := tm' } := by
  have hback : ∀ w t, tm'.find w = some t → t.running = false →
      ∃ t₀, st.tm.find w = some t₀ ∧ t₀.running = false ∧ t.msgs = t₀.msgs := by
    intro w t hw hr
    rw [ht.find] at hw
    split at hw
    · rename_i hwi
      obtain ⟨t₀, ht₀, rfl⟩ := Option.map_eq_some_iff.1 hw
      exact ⟨t₀, ht₀, hf t₀ (hwi ▸ ht₀) hr⟩
    · exact ⟨t, hw, hr, rfl⟩
  refine h.of_touches hs ht (fun w t hm hw hr => ?_) fun w id t hm hw hr => ?_
  · obtain ⟨t₀, ht₀, hr₀, hmsgs⟩ := hback w t hw hr
    rw [hmsgs]
    exact h.receive w t₀ hm ht₀ hr₀
  · obtain ⟨t₀, ht₀, hr₀, -⟩ := hback w t hw hr
    exact h.waiting w id t₀ hm ht₀ hr₀

theorem newTask (h : WaitInv st) : WaitInv { st with tm := st.tm.newTask } := by
  have hfind := find_newTask h.sched.find_fresh
  have hfresh : st.mode (st.tm.latestId + 1) = .none := by
    by_contra hm
    obtain ⟨t, ht⟩ := h.live _ hm
    rw [h.sched.find_fresh] at ht
    cases ht
  have hold : ∀ {w}, st.mode w ≠ .none → st.tm.newTask.find w = st.tm.find w := fun hm => by
    rw [hfind, if_neg]
    rintro rfl
    exact hm hfresh
  refine { h with sched := h.sched.newTask, live := fun w hm => ?_, receive := fun w t hm hw => ?_,
                  waiting := fun w id t hm hw => ?_, gone := fun id code he => ?_ }
  · show ∃ t, st.tm.newTask.find w = some t
    rw [hold hm]
    exact h.live w hm
  · exact h.receive w t hm (by rw [← hold (by rw [hm]; exact Mode.noConfusion)]; exact hw)
  · exact h.waiting w id t hm (by rw [← hold (by rw [hm]; exact Mode.noConfusion)]; exact hw)
  · obtain ⟨hlive, hle⟩ := h.gone id code he
    refine ⟨?_, Nat.le_succ_of_le hle⟩
    rintro ⟨t, ht⟩
    rw [hfind, if_neg (by omega)] at ht
    exact hlive ⟨t, ht⟩

theorem current (h : WaitInv st) (hc : st.tm.currentTask = some c) :
    (∃ t, st.tm.find c = some t ∧ t.running = true) ∧ st.exited c = none ∧
      st.returned c = none := by
  obtain ⟨c', rest, t, -, hc', ht, hr, -⟩ := h.sched.exists_current
  obtain rfl := Option.some.inj (hc.symm.trans hc')
  have hexit : st.exited c = none := by
    by_contra hne
    obtain ⟨code, hcode⟩ := Option.ne_none_iff_exists'.1 hne
    exact (h.gone c code hcode).1 ⟨t, ht⟩
  refine ⟨⟨t, ht, hr⟩, hexit, ?_⟩
  by_contra hne
  obtain ⟨code, hcode⟩ := Option.ne_none_iff_exists'.1 hne
  rw [(h.returned c code hcode).1] at hexit
  cases hexit

theorem setMode (h : WaitInv st) (hc : st.tm.currentTask = some c)
    (hm : ∀ id, st.mode c ≠ .waitFinish id)
    {m : Mode} (hm' : ∀ id, m ≠ .waitFinish id) : WaitInv (st.setMode c m) := by
  obtain ⟨⟨tc, htc, hrc⟩, -⟩ := h.current hc
  have hwait : ∀ {w id}, (st.setMode c m).mode w = .waitFinish id → st.mode w = .waitFinish id := by
    intro w id hw
    by_cases hwc : w = c
    · subst hwc
      rw [setMode_self] at hw
      exact absurd hw (hm' id)
    · rwa [setMode_of_ne hwc] at hw
  refine { h with live := fun w hw => ?_, receive := fun w t hw ht hr => ?_,
                  waiting := fun w id t hw => ?_,
                  waiter := fun id w hw => ?_, unique := fun w w' id hw hw' => ?_,
                  returned := fun id code hr => ?_ }
  · by_cases hwc : w = c
    · exact ⟨tc, hwc ▸ htc⟩
    · exact h.live w (by rwa [setMode_of_ne hwc] at hw)
  · by_cases hwc : w = c
    · have heq : some t = some tc := ht.symm.trans (hwc ▸ htc)
      rw [Option.some.inj heq, hrc] at hr
      cases hr
    · exact h.receive w t (by rwa [setMode_of_ne hwc] at hw) ht hr
  · exact h.waiting w id t (hwait hw)
  · have hold := h.waiter id w hw
    rw [setMode_of_ne, hold]
    rintro rfl
    exact hm id hold
  · exact h.unique w w' id (hwait hw) (hwait hw')
  · obtain ⟨he, hf, hw, hnone⟩ := h.returned id code hr
    exact ⟨he, hf, hw, fun w hw => hnone w (hwait hw)⟩

/-- The executing task is the only one that waits for `id`. -/
theorem only (h : WaitInv st) {id : Nat} (hm : MayWait st c id) {w : Nat}
    (hw : st.mode w = .waitFinish id) : w = c := by
  rcases hm with hm | ⟨-, -, hnone⟩
  · exact h.unique w c id hw hm
  · exact absurd hw (hnone w)

theorem setWaiter (h : WaitInv st) (hc : st.tm.currentTask = some c) {id : Nat}
    (hm : MayWait st c id) (hf : st.tm.finishTasks id = none) :
    WaitInv ({ st with tm :=
      { st.tm with finishWaiter := Function.update st.tm.finishWaiter id (some c) } }.setMode c
      (.waitFinish id)) := by
  obtain ⟨⟨tc, htc, hrc⟩, -⟩ := h.current hc
  have hret : st.returned id = none := by
    rcases hm with hm | ⟨-, hret, -⟩
    · by_contra hne
      obtain ⟨code, hcode⟩ := Option.ne_none_iff_exists'.1 hne
      exact (h.returned id code hcode).2.2.2 c hm
    · exact hret
  have honly : ∀ w, st.mode w = .waitFinish id → w = c := fun w => h.only hm
  have hne : ∀ {w id'}, w ≠ c → st.mode w = .waitFinish id' → id' ≠ id := fun hwc hw heq =>
    hwc (honly _ (heq ▸ hw))
  set st' :=
    { st with tm :=
      { st.tm with finishWaiter := Function.update st.tm.finishWaiter id (some c) } }.setMode c
    (.waitFinish id) with hst'
  have hself : st'.mode c = .waitFinish id := setMode_self ..
  have hreg : st'.tm.finishWaiter id = some c := Function.update_self ..
  have hwaiter : ∀ {id'}, id' ≠ id → st'.tm.finishWaiter id' = st.tm.finishWaiter id' :=
    fun hid => Function.update_of_ne hid ..
  -- the others are in the loops they were in, none of them waiting for `id`
  have hmode : ∀ {w}, w ≠ c → st'.mode w = st.mode w := fun hwc => setMode_of_ne hwc ..
  have hwait : ∀ {w id'}, st'.mode w = .waitFinish id' → (w = c ∧ id' = id) ∨
    (w ≠ c ∧ st.mode w = .waitFinish id') := by
    intro w id' hw
    by_cases hwc : w = c
    · rw [hwc, hself] at hw
      exact .inl ⟨hwc, (Mode.waitFinish.inj hw).symm⟩
    · exact .inr ⟨hwc, by rwa [hmode hwc] at hw⟩
  refine { sched := ?_, live := fun w hw => ?_, receive := fun w t hw ht hr => ?_,
           waiting := fun w id' t hw ht hr => ?_,
           waiter := fun id' w hw => ?_, unique := fun w w' id' hw hw' => ?_,
           pending := fun id' code he hr => ?_,
           finished := h.finished, returned := fun id' code hr => ?_, gone := h.gone }
  · exact h.sched.maps _ _
  · by_cases hwc : w = c
    · exact ⟨tc, hwc ▸ htc⟩
    · exact h.live w (by rwa [hmode hwc] at hw)
  · have hwc : w ≠ c := by
      rintro rfl
      rw [hself] at hw
      cases hw
    exact h.receive w t (by rwa [hmode hwc] at hw) ht hr
  · rcases hwait hw with ⟨rfl, rfl⟩ | ⟨hwc, hold⟩
    · exact ⟨hf, hreg⟩
    · obtain ⟨hft, hfw⟩ := h.waiting w id' t hold ht hr
      exact ⟨hft, (hwaiter (hne hwc hold)).trans hfw⟩
  · by_cases hid : id' = id
    · subst hid
      rw [← Option.some.inj (hreg.symm.trans hw), hself]
    · have hold := h.waiter id' w ((hwaiter hid).symm.trans hw)
      have hwc : w ≠ c := by
        rintro rfl
        exact hid (hm.eq hold)
      rw [hmode hwc, hold]
  · rcases hwait hw with ⟨rfl, rfl⟩ | ⟨hwc, hold⟩
    · rcases hwait hw' with ⟨rfl, -⟩ | ⟨-, hold'⟩
      · rfl
      · exact (honly w' hold').symm
    · rcases hwait hw' with ⟨rfl, rfl⟩ | ⟨-, hold'⟩
      · exact honly w hold
      · exact h.unique w w' id' hold hold'
  · obtain ⟨hft, hfw⟩ := h.pending id' code he hr
    have hid : id' ≠ id := by
      rintro rfl
      rw [hf] at hft
      cases hft
    exact ⟨hft, (hwaiter hid).trans hfw⟩
  · obtain ⟨he, hft, hfw, hnone⟩ := h.returned id' code hr
    have hid : id' ≠ id := by
      rintro rfl
      have : st.returned id' = some code := hr
      rw [hret] at this
      cases this
    refine ⟨he, hft, (hwaiter hid).trans hfw, fun w hw => ?_⟩
    rcases hwait hw with ⟨-, rfl⟩ | ⟨-, hold⟩
    · exact hid rfl
    · exact hnone w hold

theorem collect (h : WaitInv st) {id : Nat} {code : Int} (hm : MayWait st c id)
    (hf : st.tm.finishTasks id = some code) :
    WaitInv ({ st with
      tm := { st.tm with finishTasks := Function.update st.tm.finishTasks id none },
      returned := Function.update st.returned id (some code) }.setMode c .none) := by
  obtain ⟨he, hret⟩ := h.finished id code hf
  have hfw := (h.pending id code he hret).2
  set st' := { st with
    tm := { st.tm with finishTasks := Function.update st.tm.finishTasks id none },
    returned := Function.update st.returned id (some code) }.setMode c .none with hst'
  have hself : st'.mode c = .none := setMode_self ..
  have htaken : st'.tm.finishTasks id = none := Function.update_self ..
  have hcode : st'.returned id = some code := Function.update_self ..
  have hft : ∀ {id'}, id' ≠ id → st'.tm.finishTasks id' = st.tm.finishTasks id' :=
    fun hid => Function.update_of_ne hid ..
  have hrt : ∀ {id'}, id' ≠ id → st'.returned id' = st.returned id' :=
    fun hid => Function.update_of_ne hid ..
  have hmode : ∀ {w m}, st'.mode w = m → m ≠ .none → w ≠ c ∧ st.mode w = m := by
    intro w m hw hne
    have hwc : w ≠ c := by
      rintro rfl
      exact hne (hw.symm.trans hself)
    exact ⟨hwc, by rwa [hst', setMode_of_ne hwc] at hw⟩
  -- nobody waits for `id` any more
  have hwait : ∀ {w id'}, st'.mode w = .waitFinish id' → st.mode w = .waitFinish id' ∧
    id' ≠ id := by
    intro w id' hw
    obtain ⟨hwc, hold⟩ := hmode hw Mode.noConfusion
    refine ⟨hold, ?_⟩
    rintro rfl
    exact hwc (h.only hm hold)
  refine { sched := ?_, live := fun w hw => h.live w ?_, receive := fun w t hw =>
    h.receive w t (hmode hw Mode.noConfusion).2,
           waiting := fun w id' t hw ht hr => ?_, waiter := fun id' w hw => ?_,
           unique := fun w w' id' hw hw' => h.unique w w' id' (hwait hw).1 (hwait hw').1,
           pending := fun id' code' he' hr => ?_, finished := fun id' code' hf' => ?_,
           returned := fun id' code' hr => ?_, gone := h.gone }
  · exact h.sched.maps _ _
  · rw [(hmode rfl hw).2]
    exact hw
  · obtain ⟨hold, hid⟩ := hwait hw
    obtain ⟨hf', hw'⟩ := h.waiting w id' t hold ht hr
    exact ⟨(hft hid).trans hf', hw'⟩
  · have hold := h.waiter id' w hw
    have hwc : w ≠ c := by
      rintro rfl
      obtain rfl := hm.eq hold
      have hw : st.tm.finishWaiter id' = some w := hw
      rw [hfw] at hw
      cases hw
    rw [hst', setMode_of_ne hwc]
    exact hold
  · have hid : id' ≠ id := by
      rintro rfl
      rw [hcode] at hr
      cases hr
    obtain ⟨hf', hw'⟩ := h.pending id' code' he' ((hrt hid).symm.trans hr)
    exact ⟨(hft hid).trans hf', hw'⟩
  · have hid : id' ≠ id := by
      rintro rfl
      rw [htaken] at hf'
      cases hf'
    obtain ⟨he', hr⟩ := h.finished id' code' ((hft hid).symm.trans hf')
    exact ⟨he', (hrt hid).trans hr⟩
  · by_cases hid : id' = id
    · subst hid
      obtain rfl := Option.some.inj (hcode.symm.trans hr)
      exact ⟨he, htaken, hfw, fun w hw => (hwait hw).2 rfl⟩
    · obtain ⟨he', hf', hw', hnone⟩ := h.returned id' code' ((hrt hid).symm.trans hr)
      exact ⟨he', (hft hid).trans hf', hw', fun w hw => hnone w (hwait hw).1⟩

theorem sleep (h : WaitInv st) (hc : st.tm.currentTask = some c) (hidle : c ≠ idleId)
    (hrecv : st.mode c = .receive → ∀ t, st.tm.find c = some t → t.msgs = [])
    (hwait : ∀ id, st.mode c = .waitFinish id → st.tm.finishTasks id = none ∧
    st.tm.finishWaiter id = some c)
    (cpu : TaskContext) : ∃ tm' cpu', st.tm.sleep c cpu = some (tm', cpu') ∧
    WaitInv { st with tm := tm' } := by
  obtain ⟨⟨tc, htc, hrc⟩, -⟩ := h.current hc
  obtain ⟨tm', cpu', hrun, hs, -⟩ := h.sched.sleep htc hidle cpu
  refine ⟨tm', cpu', hrun, ?_⟩
  obtain ⟨t, ht, ⟨hr, -⟩ | ⟨-, htouch, -⟩ | ⟨hne, -⟩⟩ := touches_sleep hrun
  · rw [ht] at htc
    rw [Option.some.inj htc, hrc] at hr
    cases hr
  swap
  · exact absurd hc hne
  have hother : ∀ {w t}, w ≠ c → tm'.find w = some t → st.tm.find w = some t := fun hwc hw => by
    rwa [htouch.of_ne hwc] at hw
  refine h.of_touches hs htouch (fun w t' hm hw hr => ?_) fun w id t' hm hw hr => ?_
  · by_cases hwc : w = c
    · subst hwc
      have heq : some t' = some _ := hw.symm.trans (htouch.self htc)
      rw [Option.some.inj heq]
      exact hrecv hm tc htc
    · exact h.receive w t' hm (hother hwc hw) hr
  · by_cases hwc : w = c
    · subst hwc
      exact hwait id hm
    · exact h.waiting w id t' hm (hother hwc hw) hr

/-! ### The turns -/

theorem receiveTurn (h : WaitInv st) (hc : st.tm.currentTask = some c) (hidle : c ≠ idleId)
    (hm : st.mode c = .none ∨ st.mode c = .receive) (cpu : TaskContext) :
    ∃ st', st.receive c cpu = some st' ∧ WaitInv st' := by
  obtain ⟨⟨tc, htc, hrc⟩, -⟩ := h.current hc
  have hnot : ∀ id, st.mode c ≠ .waitFinish id := by
    intro id heq
    rcases hm with hm | hm <;> rw [hm] at heq <;> cases heq
  obtain ⟨r, tm₁, hrun⟩ : ∃ r tm₁, st.tm.receiveMessage c = some (r, tm₁) := by
    rw [receiveMessage, htc, Option.bind_eq_bind, Option.bind_some]
    split <;> exact ⟨_, _, rfl⟩
  obtain ⟨t, ht, ⟨rfl, hnil, rfl⟩ | ⟨m, rfl, -, htouch, hrunning, hlevel⟩⟩ :=
    touches_receiveMessage hrun
  · -- no message
    have hentered := h.setMode hc hnot (m := .receive) fun _ => Mode.noConfusion
    have hempty : ∀ t', (st.setMode c .receive).tm.find c = some t' → t'.msgs = [] :=
      fun t' ht' => by
      have heq : some t' = some t := ht'.symm.trans ht
      rw [Option.some.inj heq, hnil]
    have hnone : ∀ id, (st.setMode c .receive).mode c ≠ .waitFinish id := fun id heq => by
      rw [setMode_self] at heq
      cases heq
    obtain ⟨tm', cpu', hsleep, hinv⟩ :=
      hentered.sleep hc hidle (fun _ => hempty) (fun id heq => absurd heq (hnone id)) cpu
    refine ⟨_, ?_, hinv⟩
    rw [System.receive, hrun, Option.bind_some]
    exact congrArg (Option.map _) hsleep
  · have hsched : SchedInv tm₁ := by
      have hmod : tm₁ = st.tm.modify c (·.popMessage) := by
        rw [receiveMessage, htc, Option.bind_eq_bind, Option.bind_some] at hrun
        split at hrun <;> cases hrun
        rfl
      subst hmod
      exact { toQueueInv := h.sched.toQueueInv.modify (fun _ => rfl) (fun _ => rfl) (fun _ => rfl)
              current := h.sched.current
              highest := h.sched.highest }
    have hpopped := h.touch hsched htouch fun t' ht' hr => by
      have heq : some t' = some tc := ht'.symm.trans htc
      rw [Option.some.inj heq] at hr
      exact absurd (hrc.symm.trans hr) (by decide)
    have hc₁ : tm₁.currentTask = some c := by
      rw [currentTask, hrunning, hlevel]
      exact hc
    refine ⟨_, ?_, hpopped.setMode hc₁ hnot (m := .none) fun _ => Mode.noConfusion⟩
    rw [System.receive, hrun, Option.bind_some]

theorem waitFinishTurn (h : WaitInv st) (hc : st.tm.currentTask = some c)
    (hidle : c ≠ idleId) {id : Nat}
    (hm : MayWait st c id) (cpu : TaskContext) :
    ∃ st', st.waitFinish c id cpu = some st' ∧ WaitInv st' ∧ st'.returned id = st.exited id := by
  rcases hf : st.tm.finishTasks id with _ | code
  · -- the task has not finished
    have hreg := h.setWaiter hc hm hf
    set st₁ :=
      { st with tm :=
        { st.tm with finishWaiter := Function.update st.tm.finishWaiter id (some c) } }.setMode c
      (.waitFinish id) with hst₁
    have hmode : st₁.mode c = .waitFinish id := setMode_self ..
    have hrecv : st₁.mode c = .receive → ∀ t, st₁.tm.find c = some t → t.msgs = [] := fun heq => by
      rw [hmode] at heq
      cases heq
    have hwait : ∀ id', st₁.mode c = .waitFinish id' →
        st₁.tm.finishTasks id' = none ∧ st₁.tm.finishWaiter id' = some c := fun id' heq => by
      rw [hmode] at heq
      obtain rfl := Mode.waitFinish.inj heq
      exact ⟨hf, Function.update_self ..⟩
    obtain ⟨tm', cpu', hsleep, hinv⟩ := hreg.sleep hc hidle hrecv hwait cpu
    refine ⟨_, ?_, hinv, ?_⟩
    · rw [System.waitFinish, TaskManager.waitFinish, hf]
      exact congrArg (Option.map _) (congrArg (Option.map _) hsleep)
    · show st.returned id = st.exited id
      rcases he : st.exited id with _ | code
      · by_contra hne
        obtain ⟨code, hcode⟩ := Option.ne_none_iff_exists'.1 hne
        rw [(h.returned id code hcode).1] at he
        cases he
      · rcases hr : st.returned id with _ | code'
        · rw [(h.pending id code he hr).1] at hf
          cases hf
        · rw [← he, (h.returned id code' hr).1]
  · -- the code is there
    obtain ⟨he, hret⟩ := h.finished id code hf
    refine ⟨_, ?_, h.collect hm hf, ?_⟩
    · rw [System.waitFinish, TaskManager.waitFinish, hf]
      rfl
    · show Function.update st.returned id (some code) id = _
      rw [Function.update_self, he]

theorem finishTurn (h : WaitInv st) (hc : st.tm.currentTask = some c) (hidle : c ≠ idleId)
    (hm : st.mode c = .none) (exitCode : Int) : ∃ st', st.finish c exitCode = some st' ∧
    WaitInv st' := by
  obtain ⟨⟨tc, htc, -⟩, -, hret⟩ := h.current hc
  have hwaiter : ∀ c' w, st.tm.currentTask = some c' → st.tm.finishWaiter c' = some w →
    st.tm.Live w ∧ w ≠ c' := by
    intro c' w hc' hw
    obtain rfl := Option.some.inj (hc.symm.trans hc')
    have hmode := h.waiter c w hw
    refine ⟨h.live w (by rw [hmode]; exact Mode.noConfusion), ?_⟩
    rintro rfl
    rw [hm] at hmode
    cases hmode
  obtain ⟨tm', cpu', hrun, hs⟩ :=
    h.sched.finish (fun heq => hidle (Option.some.inj (hc.symm.trans heq))) hwaiter
    exitCode
  refine ⟨_, congrArg (Option.map _) hrun, ?_⟩
  obtain ⟨c', lv, hc', hfind, hlatest, hft, hfw, -⟩ := finish_effect hrun
  obtain rfl := Option.some.inj (hc.symm.trans hc')
  -- who is asleep afterwards was so before, and did not wait for `c`
  have hback : ∀ w t, tm'.find w = some t → t.running = false →
      w ≠ c ∧ st.tm.finishWaiter c ≠ some w ∧ st.tm.find w = some t := by
    intro w t hw hr
    rw [hfind] at hw
    split at hw
    · cases hw
    split at hw
    · obtain ⟨t₀, -, rfl⟩ := Option.map_eq_some_iff.1 hw
      cases hr
    · exact ⟨‹_›, ‹_›, hw⟩
  have hlive : ∀ w, w ≠ c → (tm'.Live w ↔ st.tm.Live w) := by
    intro w hwc
    rw [Live, Live, hfind, if_neg hwc]
    split
    · simp [Option.map_eq_some_iff]
    · rfl
  have hexit : ∀ {id}, id ≠ c → Function.update st.exited c (some exitCode) id = st.exited id :=
    fun hid => Function.update_of_ne hid ..
  refine { sched := hs, live := fun w hw => ?_, receive := fun w t hw ht hr => ?_,
           waiting := fun w id t hw ht hr => ?_, waiter := fun id w hw => ?_, unique := h.unique,
           pending := fun id code he hr => ?_, finished := fun id code hf => ?_,
           returned := fun id code hr => ?_, gone := fun id code he => ?_ }
  · refine (hlive w ?_).2 (h.live w hw)
    rintro rfl
    exact hw hm
  · exact h.receive w t hw (hback w t ht hr).2.2 hr
  · obtain ⟨-, hne, hold⟩ := hback w t ht hr
    obtain ⟨hnone, hreg⟩ := h.waiting w id t hw hold hr
    have hid : id ≠ c := by
      rintro rfl
      exact hne hreg
    show tm'.finishTasks id = none ∧ tm'.finishWaiter id = some w
    rw [hft, hfw, Function.update_of_ne hid, Function.update_of_ne hid]
    exact ⟨hnone, hreg⟩
  · have hw : tm'.finishWaiter id = some w := hw
    rw [hfw, Function.update_apply] at hw
    split at hw
    · cases hw
    · exact h.waiter id w hw
  · show tm'.finishTasks id = some code ∧ tm'.finishWaiter id = none
    rw [hft, hfw]
    by_cases hid : id = c
    · subst hid
      have he : Function.update st.exited id (some exitCode) id = some code := he
      rw [Function.update_self] at he ⊢
      exact ⟨he, Function.update_self ..⟩
    · rw [Function.update_of_ne hid, Function.update_of_ne hid]
      exact h.pending id code ((hexit hid).symm.trans he) hr
  · have hf : tm'.finishTasks id = some code := hf
    rw [hft] at hf
    by_cases hid : id = c
    · subst hid
      rw [Function.update_self] at hf
      exact ⟨(Function.update_self ..).trans hf, hret⟩
    · rw [Function.update_of_ne hid] at hf
      obtain ⟨he, hr⟩ := h.finished id code hf
      exact ⟨(hexit hid).trans he, hr⟩
  · have hid : id ≠ c := by
      rintro rfl
      have hr : st.returned id = some code := hr
      rw [hret] at hr
      cases hr
    obtain ⟨he, hf, hw, hnone⟩ := h.returned id code hr
    refine ⟨(hexit hid).trans he, ?_, ?_, hnone⟩
    · show tm'.finishTasks id = none
      rw [hft, Function.update_of_ne hid, hf]
    · show tm'.finishWaiter id = none
      rw [hfw, Function.update_of_ne hid, hw]
  · show ¬ tm'.Live id ∧ id ≤ tm'.latestId
    rw [hlatest]
    by_cases hid : id = c
    · subst hid
      refine ⟨?_, ?_⟩
      · rintro ⟨t, ht⟩
        rw [hfind, if_pos rfl] at ht
        cases ht
      · have := h.sched.id_le tc (find_mem htc)
        rwa [find_id htc] at this
    · rw [hlive id hid]
      exact h.gone id code ((hexit hid).symm.trans he)

theorem waitFinishEvent (h : WaitInv st) {id : Nat} {cpu : TaskContext}
    (hok : st.Allowed (.waitFinish id cpu)) :
    ∃ st', st.step (.waitFinish id cpu) = some st' ∧ WaitInv st' ∧ st'.returned id =
      st.exited id := by
  obtain ⟨c, hc, hidle, hm⟩ := hok
  have hnone : (∀ t ∈ st.tm.tasks, st.mode t.id ≠ .waitFinish id) →
    ∀ w, st.mode w ≠ .waitFinish id := by
    intro hlive w hw
    obtain ⟨t, ht⟩ := h.live w (by rw [hw]; exact Mode.noConfusion)
    refine hlive t (find_mem ht) ?_
    rw [find_id ht, hw]
  obtain ⟨st', hrun, hrest⟩ := h.waitFinishTurn hc hidle
    (hm.imp_right fun ⟨hmode, hret, hlive⟩ => ⟨hmode, hret, hnone hlive⟩) cpu
  exact ⟨st', by rw [System.step, hc, Option.bind_some, hrun], hrest⟩

/-- Every allowed event goes through, and keeps the invariant. -/
theorem step (h : WaitInv st) {e : Event} (hok : st.Allowed e) :
    ∃ st', st.step e = some st' ∧ WaitInv st' := by
  cases e with
  | newTask => exact ⟨_, rfl, h.newTask⟩
  | wakeup task level =>
    rcases ht : st.tm.find task with _ | t
    · exact ⟨st, by rw [System.step, wakeupById, ht]; rfl, h⟩
    · obtain ⟨tm', hrun, hs, -⟩ := h.sched.wakeup ht hok
      obtain ⟨-, lv, htouch⟩ := touches_wakeup hrun
      refine ⟨{ st with tm := tm' }, by
        rw [System.step, wakeupById, ht, hrun]; rfl, h.touch hs htouch fun t _ hr => ?_⟩
      cases hr
  | sendMessage task msg =>
    rcases ht : st.tm.find task with _ | t
    · exact ⟨st, by rw [System.step, sendMessage, ht]; rfl, h⟩
    · obtain ⟨tm', hrun, hs, -⟩ := h.sched.sendMessageTo ht msg
      obtain ⟨-, lv, htouch⟩ := touches_sendMessageTo hrun
      refine ⟨{ st with tm := tm' }, by
        rw [System.step, sendMessage, ht, hrun]; rfl, h.touch hs htouch fun t _ hr => ?_⟩
      cases hr
  | switchTask cpu =>
    obtain ⟨tm', cpu', hrun, hs, -⟩ := h.sched.switchTask cpu
    obtain ⟨c, c', -, htouch, -⟩ := touches_switchTask hrun
    exact ⟨{ st with tm := tm' }, by
      rw [System.step, hrun]; rfl, h.touch hs htouch fun t _ hr => ⟨hr, rfl⟩⟩
  | receive cpu =>
    obtain ⟨c, hc, hidle, hm⟩ := hok
    obtain ⟨st', hrun, hinv⟩ := h.receiveTurn hc hidle hm cpu
    exact ⟨st', by rw [System.step, hc, Option.bind_some, hrun], hinv⟩
  | waitFinish taskId cpu =>
    obtain ⟨st', hrun, hinv, -⟩ := h.waitFinishEvent hok
    exact ⟨st', hrun, hinv⟩
  | finish exitCode =>
    obtain ⟨c, hc, hidle, hm⟩ := hok
    obtain ⟨st', hrun, hinv⟩ := h.finishTurn hc hidle hm exitCode
    exact ⟨st', by rw [System.step, hc, Option.bind_some, hrun], hinv⟩

theorem run {es : List Event} (h : WaitInv st) (hrun : Run Step st es st') : WaitInv st' := by
  refine hrun.inv (I := WaitInv) (fun s e s' hs hstep => ?_) h
  obtain ⟨hok, hstep⟩ := hstep
  obtain ⟨s'', hs'', hinv⟩ := hs.step hok
  rw [hstep] at hs''
  cases hs''
  exact hinv

theorem init (cr3 stackEnd taskIdle : UInt64) : WaitInv { tm := new cr3 stackEnd taskIdle } where
  sched := schedInv_new cr3 stackEnd taskIdle
  live _ hw := absurd rfl hw
  receive _ _ hm := by cases hm
  waiting _ _ _ hm := by cases hm
  waiter _ _ hw := by cases hw
  unique _ _ _ hm := by cases hm
  pending _ _ he := by cases he
  finished _ _ hf := by cases hf
  returned _ _ hr := by cases hr
  gone _ _ he := by cases he

end WaitInv

/-- No task sleeps that has something to do, and the exit codes get through. -/
structure NoLostWakeup (st : System) : Prop where
  receive : ∀ w t, st.mode w = .receive → st.tm.find w = some t → t.running = false → t.msgs = []
  waiting : ∀ w id t, st.mode w = .waitFinish id → st.tm.find w = some t → t.running = false →
    st.tm.finishTasks id = none ∧ st.tm.finishWaiter id = some w
  /-- A task that waits for a finished task is awake. -/
  woken : ∀ w id code t, st.mode w = .waitFinish id → st.exited id = some code →
    st.tm.find w = some t →
    t.running = true
  returned : ∀ id code, st.returned id = some code →
    st.exited id = some code ∧ st.tm.finishTasks id = none ∧ st.tm.finishWaiter id = none
  waiter : ∀ id w, st.tm.finishWaiter id = some w → st.tm.Live w

theorem WaitInv.noLostWakeup {st : System} (h : WaitInv st) : NoLostWakeup st where
  receive := h.receive
  waiting := h.waiting
  woken w id code t hm he ht := by
    by_contra hr
    obtain ⟨hf, -⟩ := h.waiting w id t hm ht (Bool.not_eq_true _ ▸ hr)
    rcases hret : st.returned id with _ | code'
    · rw [(h.pending id code he hret).1] at hf
      cases hf
    · exact (h.returned id code' hret).2.2.2 w hm
  returned id code hr := by
    obtain ⟨he, hf, hw, -⟩ := h.returned id code hr
    exact ⟨he, hf, hw⟩
  waiter id w hw := h.live w (by rw [h.waiter id w hw]; exact Mode.noConfusion)

end System

end Wakeups

open Wakeups

/-- In every order of the turns, no wakeup is lost. Every turn goes through, and one of `WaitFinish`
returns the exit code if there is one. -/
theorem no_lost_wakeup (cr3 stackEnd taskIdle : UInt64) {es : List System.Event} {st : System}
    (hrun : Run System.Step { tm := TaskManager.new cr3 stackEnd taskIdle } es st) :
    st.NoLostWakeup ∧ (∀ e, st.Allowed e → ∃ st', st.step e = some st') ∧
      ∀ id cpu st', st.Allowed (.waitFinish id cpu) → st.step (.waitFinish id cpu) = some st' →
        st'.returned id = st.exited id := by
  have hinv := (System.WaitInv.init cr3 stackEnd taskIdle).run hrun
  refine ⟨hinv.noLostWakeup, fun e hok => ?_, fun id cpu st' hok hstep => ?_⟩
  · obtain ⟨st', hstep, -⟩ := hinv.step hok
    exact ⟨st', hstep⟩
  · obtain ⟨st'', hstep', -, hret⟩ := hinv.waitFinishEvent hok
    rw [hstep] at hstep'
    cases hstep'
    exact hret

/-- Task 3 waits for task 4, is woken by a message, waits again, and gets the exit code. -/
theorem no_lost_wakeup_message : ∃ st, Run System.Step { tm := TaskManager.new 0 0 0 }
    [.newTask, .newTask, .wakeup 3 (-1), .receive {}, .wakeup 4 (-1), .waitFinish 4 {},
      .sendMessage 3 (.kKeyboardPush 0), .switchTask {}, .waitFinish 4 {}, .finish 7,
        .switchTask {},
      .waitFinish 4 {}] st ∧
    st.returned 4 = some 7 ∧ st.NoLostWakeup := by
  have hexec : ((Run.exec System.Allowed System.step { tm := TaskManager.new 0 0 0 }
      [.newTask, .newTask, .wakeup 3 (-1), .receive {}, .wakeup 4 (-1), .waitFinish 4 {},
        .sendMessage 3 (.kKeyboardPush 0), .switchTask {}, .waitFinish 4 {}, .finish 7,
          .switchTask {},
      .waitFinish 4 {}]).any
      fun st => st.returned 4 = some 7) = true := by decide
  obtain ⟨st, hrun, hret⟩ := Run.exists_of_exec hexec
  exact ⟨st, hrun, hret, (no_lost_wakeup 0 0 0 hrun).1⟩

end Moxia
