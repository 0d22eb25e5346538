import Moxia.Task.Scheduler

/-!
# Contexts

The processor runs one computation at a time; `SwitchTask`, `Sleep` and `Finish` save its context
into a task's `TaskContext` and load another one. `Machine` keeps track of whose context is where.
In every run each task's context stays its own (`context_integrity`): the kernel does what a machine
does that has a private context for each task (`Private`).
-/

namespace Moxia

open Lib

/-- A machine that has a private context for each task, and executes one of them. -/
structure Private (α : Type*) where
  executing : Nat
  context : Nat → Option α

namespace Private

variable {α : Type*}

/-- Only the executing task's context changes; another task goes on with its own. -/
inductive Step : Private α → Private α → Prop
  | progress (m : Private α) (x : α) :
      Step m { m with context := Function.update m.context m.executing (some x) }
  | resume (m : Private α) {j : Nat} (h : m.context j ≠ none) : Step m { m with executing := j }
  | create (m : Private α) {j : Nat} (x : α) (h : m.context j = none) :
    Step m { m with context := Function.update m.context j (some x) }
  | exit (m : Private α) {j : Nat} (h : m.context j ≠ none) (hne : j ≠ m.executing) :
    Step m { executing := j, context := Function.update m.context m.executing none }

end Private

namespace Contexts

/-- The task manager, the context on the processor, and whose contexts they are: `executing` is the
task whose computation the processor runs, `owner` says whose context lies in a `TaskContext`, and
`saved` is the one a computation was last interrupted with or built with. -/
structure Machine where
  tm : TaskManager
  cpu : TaskContext
  executing : Nat
  owner : Nat → Nat
  saved : Nat → Option TaskContext

namespace Machine

inductive Event
  | progress (cpu : TaskContext)
  | timer
  | sleep
  /-- The executing task puts another one to sleep. -/
  | sleepOther (task : Nat)
  | newTask (cr3 stackEnd f data : UInt64)
  | wakeup (task : Nat) (level : Int)
  | sendMessage (task : Nat) (msg : Message)
  | finish (exitCode : Int)

/-- The executing task's context is saved into the `TaskContext` of task `c`. -/
def save (k : Machine) (c : Nat) : Machine :=
  { k with owner := Function.update k.owner c k.executing,
           saved := Function.update k.saved k.executing (some k.cpu) }

/-- The context in the `TaskContext` of task `c` is loaded. -/
def load (k : Machine) (c : Nat) (cpu : TaskContext) : Machine :=
  { k with executing := k.owner c, cpu := cpu }

/-- The interrupt handler saves the context into the current task, and restores the next one's if it
is another. -/
def timer (k : Machine) : Option Machine := do
  let current ← k.tm.currentTask
  let (tm, cpu) ← k.tm.switchTask k.cpu
  let next ← tm.currentTask
  let k := { k.save current with tm := tm }
  some (if next ≠ current then k.load next cpu else { k with cpu := cpu })

/-- The executing task calls `Sleep` on itself; where it is not the current task, no context is
switched. -/
def sleep (k : Machine) : Option Machine := do
  let (tm, cpu) ← k.tm.sleep k.executing k.cpu
  if k.tm.currentTask = some k.executing then
    let next ← tm.currentTask
    some ({ k.save k.executing with tm := tm }.load next cpu)
  else some { k with tm := tm, cpu := cpu }

/-- `NewTask` and `InitContext`. -/
def newTask (k : Machine) (cr3 stackEnd f data : UInt64) : Machine :=
  let id := k.tm.latestId + 1
  let tm := k.tm.newTask.modify id (·.initContext cr3 stackEnd f data)
  { k with tm := tm, owner := Function.update k.owner id id,
           saved := Function.update k.saved id ((tm.find id).map (·.context)) }

def finish (k : Machine) (exitCode : Int) : Option Machine := do
  let (tm, cpu) ← k.tm.finish exitCode
  let next ← tm.currentTask
  some ({ k with tm := tm }.load next cpu)

def step (k : Machine) : Event → Option Machine
  | .progress cpu => some { k with cpu := cpu }
  | .timer => k.timer
  | .sleep => k.sleep
  | .sleepOther task => (k.tm.sleepById task k.cpu).map fun (_, tm, cpu) =>
      { k with tm := tm, cpu := cpu }
  | .newTask cr3 stackEnd f data => some (k.newTask cr3 stackEnd f data)
  | .wakeup task level => (k.tm.wakeupById task level).map fun (_, tm) => { k with tm := tm }
  | .sendMessage task msg => (k.tm.sendMessage task msg).map fun (_, tm) => { k with tm := tm }
  | .finish exitCode => k.finish exitCode

/-- The idle task neither sleeps, nor is it put to sleep, nor does it finish. -/
def Allowed (k : Machine) : Event → Prop
  | .sleep | .finish _ => k.executing ≠ TaskManager.idleId
  | .sleepOther task => task ≠ k.executing ∧ task ≠ TaskManager.idleId
  | .wakeup _ level => level ≤ kMaxLevel
  | _ => True

instance (k : Machine) : ∀ e, Decidable (k.Allowed e)
  | .sleep | .finish _ => inferInstanceAs (Decidable (_ ≠ _))
  | .sleepOther _ => inferInstanceAs (Decidable (_ ∧ _))
  | .wakeup _ _ => inferInstanceAs (Decidable (_ ≤ _))
  | .progress _ | .timer | .newTask .. | .sendMessage _ _ => inferInstanceAs (Decidable True)

def Step : Machine → Event → Machine → Prop := Guarded Allowed fun k e k' => k.step e = some k'

/-- The events that save the executing task's context. -/
def Saves : Event → Prop
  | .timer | .sleep => True
  | _ => False

/-- The events after which a task goes on with a context that was saved. -/
def Resumes : Event → Prop
  | .timer | .sleep | .finish _ => True
  | _ => False

/-- The boot task runs with the context `boot`; the idle task has the one that was built for it. -/
def init (cr3 stackEnd taskIdle : UInt64) (boot : TaskContext) : Machine where
  tm := .new cr3 stackEnd taskIdle
  cpu := boot
  executing := 1
  owner := id
  saved := fun j => ((TaskManager.new cr3 stackEnd taskIdle).find j).map (·.context)

/-- The private contexts: the executing task's is on the processor, the others' are in their
`TaskContext`s. -/
def view (k : Machine) : Private TaskContext where
  executing := k.executing
  context j := if j = k.executing then some k.cpu else (k.tm.find j).map (·.context)

/-! ### The invariant -/

/-- Every context is where it belongs. -/
structure CtxInv (k : Machine) : Prop where
  run : TaskManager.RunInv k.tm
  current : k.tm.currentTask = some k.executing
  owner : ∀ j, k.tm.Live j → k.owner j = j
  saved : ∀ j t, j ≠ k.executing → k.tm.find j = some t → k.saved j = some t.context

open TaskManager

variable {k k' : Machine} {tm' : TaskManager} {i : Nat} {f : Task → Task}

/-- What an event does: it keeps the invariant, saves and loads the right contexts, and is a step of
the machine with private contexts. -/
structure Good (k : Machine) (e : Event) (k' : Machine) : Prop where
  inv : CtxInv k'
  saves : Saves e → (k'.tm.find k.executing).map (·.context) = some k.cpu
  resumes : Resumes e → k'.saved k'.executing = some k'.cpu
  view : Private.Step k.view k'.view

namespace CtxInv

theorem executing (h : CtxInv k) : ∃ t, k.tm.find k.executing = some t ∧ t.running = true := by
  obtain ⟨c, rest, t, -, hc, ht, hr, -⟩ := h.run.exists_current
  obtain rfl := Option.some.inj (h.current.symm.trans hc)
  exact ⟨t, ht, hr⟩

theorem view_of_ne (k : Machine) {j : Nat} (hj : j ≠ k.executing) :
    k.view.context j = (k.tm.find j).map (·.context) := if_neg hj

theorem view_self (k : Machine) : k.view.context k.executing = some k.cpu := if_pos rfl

theorem touch (h : CtxInv k) (hs : SchedInv tm') (ht : Touches k.tm tm' i f)
    (hcur : tm'.currentTask = k.tm.currentTask)
    (hf : ∀ t, (f t).context = t.context) :
    CtxInv { k with tm := tm' } ∧ { k with tm := tm' }.view = k.view := by
  have hctx : ∀ j, (tm'.find j).map (·.context) = (k.tm.find j).map (·.context) := by
    intro j
    rw [ht.find]
    split
    · rw [Option.map_map]
      congr 1
      funext t
      exact hf t
    · rfl
  refine ⟨⟨h.run.of_touches hs ht, hcur.trans h.current, fun j hj => h.owner j (ht.live_iff.1 hj),
    fun j t hj hfind => ?_⟩,
    ?_⟩
  · have hc : (k.tm.find j).map (·.context) = some t.context := by
      rw [← hctx, show tm'.find j = some t from hfind, Option.map_some]
    obtain ⟨t₀, ht₀, heq⟩ := Option.map_eq_some_iff.1 hc
    rw [← heq]
    exact h.saved j t₀ hj ht₀
  · rw [view, view]
    congr 1
    funext j
    show (if j = k.executing then _ else _) = if j = k.executing then _ else _
    rw [hctx]

/-! ### The events -/

theorem progress (h : CtxInv k) (cpu : TaskContext) :
    Good k (.progress cpu) { k with cpu := cpu } where
  inv := ⟨h.run, h.current, h.owner, h.saved⟩
  saves := False.elim
  resumes := False.elim
  view := by
    have hview : { k with cpu := cpu }.view =
        { k.view with context := Function.update k.view.context k.view.executing (some cpu) } := by
      rw [view]
      congr 1
      funext j
      by_cases hj : j = k.executing
      · rw [if_pos hj, hj]
        exact (Function.update_self k.executing (some cpu) k.view.context).symm
      · rw [if_neg hj]
        exact ((Function.update_of_ne hj (some cpu) k.view.context).trans (view_of_ne k hj)).symm
    rw [hview]
    exact .progress _ _

/-- The executing task's context was saved, and another one's or the same one's loaded. -/
theorem switched (h : CtxInv k) {c : Nat} {cpu : TaskContext} (hs : RunInv tm')
    (hcur : tm'.currentTask = some c)
    (hfind : ∀ j, (tm'.find j).map (·.context) =
      if j = k.executing then some k.cpu else (k.tm.find j).map (·.context))
    (hlive : ∀ j, tm'.Live j ↔ k.tm.Live j) (hcpu : (tm'.find c).map (·.context) = some cpu)
    (e : Event) :
    Good k e ({ k.save k.executing with tm := tm' }.load c cpu) := by
  have hc : k.tm.Live c := by
    obtain ⟨t, ht, -⟩ := Option.map_eq_some_iff.1 hcpu
    exact (hlive c).1 ⟨t, ht⟩
  have hlivee : k.tm.Live k.executing := by
    obtain ⟨t, ht, -⟩ := h.executing
    exact ⟨t, ht⟩
  have howner : ∀ j, k.tm.Live j → Function.update k.owner k.executing k.executing j = j := by
    intro j hj
    rw [Function.update_apply]
    split
    · exact (‹j = _›).symm
    · exact h.owner j hj
  have hexec : ({ k.save k.executing with tm := tm' }.load c cpu).executing = c := howner c hc
  have hsaved : ∀ j x, (tm'.find j).map (·.context) = some x →
    Function.update k.saved k.executing (some k.cpu) j = some x := by
    intro j x hx
    rw [hfind] at hx
    rw [Function.update_apply]
    split at hx
    · rw [if_pos ‹_›, hx]
    · obtain ⟨t, ht, rfl⟩ := Option.map_eq_some_iff.1 hx
      rw [if_neg ‹_›]
      exact h.saved j t ‹_› ht
  refine ⟨⟨hs, ?_, fun j hj => howner j ((hlive j).1 hj), fun j t hj ht => hsaved j _ ?_⟩,
    fun _ => ?_, fun _ => ?_, ?_⟩
  · rw [hexec]
    exact hcur
  · rw [show tm'.find j = some t from ht, Option.map_some]
  · show (tm'.find k.executing).map (·.context) = some k.cpu
    rw [hfind, if_pos rfl]
  · rw [hexec]
    exact hsaved c cpu hcpu
  · have hview : ({ k.save k.executing with tm := tm' }.load c cpu).view =
      { k.view with executing := c } := by
      rw [view, hexec]
      congr 1
      funext j
      show (if j = c then some cpu else (tm'.find j).map (·.context)) =
        if j = k.executing then _ else _
      split
      · rename_i hj
        rw [hj, ← hcpu, hfind]
      · exact hfind j
    rw [hview]
    refine .resume _ ?_
    obtain ⟨t, ht⟩ := hc
    show (if c = k.executing then some k.cpu else (k.tm.find c).map (·.context)) ≠ none
    split
    · exact Option.some_ne_none _
    · rw [ht]
      exact Option.some_ne_none _

theorem timer (h : CtxInv k) : ∃ k', k.timer = some k' ∧ Good k .timer k' := by
  obtain ⟨t, ht, -⟩ := h.executing
  obtain ⟨tm', cpu, hrun, hs, -⟩ := h.run.switchTask k.cpu
  obtain ⟨c, c', hc, htouch, hc', hcpu⟩ := touches_switchTask hrun
  obtain rfl := Option.some.inj (h.current.symm.trans hc)
  have hfind : ∀ j, (tm'.find j).map (·.context) =
      if j = k.executing then some k.cpu else (k.tm.find j).map (·.context) := by
    intro j
    rw [htouch.find]
    split
    · rename_i hj
      rw [hj, ht]
      rfl
    · rfl
  have hloaded : (tm'.find c').map (·.context) = some cpu := by
    rcases hcpu with ⟨rfl, rfl⟩ | ⟨next, hnext, rfl⟩
    · rw [hfind, if_pos rfl]
    · rw [hnext, Option.map_some]
  have hgood :=
    h.switched (h.run.of_touches hs htouch) hc' hfind (fun j => htouch.live_iff) hloaded .timer
  refine ⟨_, ?_, hgood⟩
  simp only [Machine.timer, h.current, hrun, hc', Option.bind_eq_bind, Option.bind_some]
  congr 1
  split
  · rfl
  · rename_i hsame
    rw [not_not] at hsame
    rw [hsame, load]
    congr 1
    exact (Function.update_self k.executing k.executing k.owner).symm

theorem sleep (h : CtxInv k) (hidle : k.executing ≠ idleId) :
    ∃ k', k.sleep = some k' ∧ Good k .sleep k' := by
  obtain ⟨t, ht, hr⟩ := h.executing
  obtain ⟨tm', cpu, hrun, hs, -⟩ := h.run.sleep ht hidle k.cpu
  obtain ⟨t', ht', ⟨hr', -⟩ | ⟨-, htouch, c, next, hc, hnext, rfl⟩ | ⟨hne, -⟩⟩ := touches_sleep hrun
  · rw [ht] at ht'
    rw [← Option.some.inj ht', hr] at hr'
    cases hr'
  swap
  · exact absurd h.current hne
  -- the next task is another one: this one is not running any more
  have hcne : c ≠ k.executing := by
    rintro rfl
    obtain ⟨c', rest, tc, -, hc', htc, hrc, -⟩ := hs.exists_current
    obtain rfl := Option.some.inj (hc.symm.trans hc')
    rw [htouch.self ht] at htc
    rw [← Option.some.inj htc] at hrc
    cases hrc
  have hfind : ∀ j, (tm'.find j).map (·.context) =
      if j = k.executing then some k.cpu else (k.tm.find j).map (·.context) := by
    intro j
    rw [htouch.find]
    split
    · rename_i hj
      rw [hj, ht]
      rfl
    · rfl
  have hloaded : (tm'.find c).map (·.context) = some next.context := by
    rw [hfind, if_neg hcne, hnext, Option.map_some]
  have hgood :=
    h.switched (h.run.of_touches hs htouch) hc hfind (fun j => htouch.live_iff) hloaded .sleep
  refine ⟨_, ?_, hgood⟩
  simp only [Machine.sleep, hrun, h.current, hc, Option.bind_eq_bind, Option.bind_some, if_true]

theorem finish (h : CtxInv k) (hidle : k.executing ≠ idleId) (exitCode : Int) :
    ∃ k', k.finish exitCode = some k' ∧ Good k (.finish exitCode) k' := by
  have hop : k.tm.Allowed (.finish exitCode) :=
    fun heq => hidle (Option.some.inj (h.current.symm.trans heq))
  obtain ⟨tm', hstep, hs, -⟩ := h.run.step hop
  obtain ⟨⟨tm', cpu⟩, hrun, rfl⟩ := Option.map_eq_some_iff.1 hstep
  obtain ⟨e, lv, he, hfind, -, -, -, c, next, hc, hnext, rfl⟩ := finish_effect hrun
  obtain rfl := Option.some.inj (h.current.symm.trans he)
  have hfind : ∀ j, tm'.find j = if j = k.executing then none else k.tm.find j := by
    intro j
    rw [hfind, h.run.noWaiter, if_neg (c := none = some j) (by simp)]
  have hcne : c ≠ k.executing := by
    rintro rfl
    rw [hfind, if_pos rfl] at hnext
    cases hnext
  have hnext' : k.tm.find c = some next := by rwa [hfind, if_neg hcne] at hnext
  have hexec : ({ k with tm := tm' }.load c next.context).executing = c := h.owner c ⟨next, hnext'⟩
  refine ⟨{ k with tm := tm' }.load c next.context, ?_,
    ⟨⟨hs, ?_, fun j hj => ?_, fun j t hj ht => ?_⟩, False.elim,
    fun _ => ?_, ?_⟩⟩
  · simp only [Machine.finish, hrun, hc, Option.bind_eq_bind, Option.bind_some]
  · rw [hexec]
    exact hc
  · obtain ⟨t, ht⟩ := hj
    have ht : tm'.find j = some t := ht
    rw [hfind] at ht
    split at ht
    · cases ht
    · exact h.owner j ⟨t, ht⟩
  · have ht : tm'.find j = some t := ht
    rw [hfind] at ht
    split at ht
    · cases ht
    · exact h.saved j t ‹_› ht
  · rw [hexec]
    exact h.saved c next hcne hnext'
  · have hview : ({ k with tm := tm' }.load c next.context).view =
        { executing := c, context := Function.update k.view.context k.view.executing none } := by
      rw [view, hexec]
      congr 1
      funext j
      show (if j = c then some next.context else (tm'.find j).map (·.context)) = _
      by_cases hj : j = k.executing
      · rw [hj, if_neg (Ne.symm hcne), hfind, if_pos rfl]
        exact (Function.update_self k.executing none k.view.context).symm
      · have hold : Function.update k.view.context k.view.executing none j =
          (k.tm.find j).map (·.context) := by
          rw [Function.update_of_ne (show j ≠ k.view.executing from hj)]
          exact view_of_ne k hj
        rw [hold, hfind, if_neg hj]
        split
        · rename_i hjc
          rw [hjc, hnext', Option.map_some]
        · rfl
    rw [hview]
    refine .exit _ ?_ hcne
    rw [view_of_ne k hcne, hnext']
    exact Option.some_ne_none _

theorem newTask (h : CtxInv k) (cr3 stackEnd f data : UInt64) :
    Good k (.newTask cr3 stackEnd f data) (k.newTask cr3 stackEnd f data) := by
  set tm' := k.tm.newTask.modify (k.tm.latestId + 1) (·.initContext cr3 stackEnd f data) with htm'
  have hfresh := h.run.find_fresh
  have hnew := h.run.newTask
  have hs : RunInv tm' :=
    ⟨{ toQueueInv := hnew.toQueueInv.modify (fun _ => rfl) (fun _ => rfl) (fun _ => rfl)
       current := hnew.current
       highest := hnew.highest }, h.run.noWaiter⟩
  have hmod : Touches k.tm.newTask tm' (k.tm.latestId + 1) (·.initContext cr3 stackEnd f data) :=
    .modify fun _ => rfl
  have hold : ∀ {j}, j ≠ k.tm.latestId + 1 → tm'.find j = k.tm.find j := fun hj => by
    rw [hmod.of_ne hj, find_newTask_of_ne hj]
  have hexec : k.executing ≠ k.tm.latestId + 1 := by
    obtain ⟨t, ht, -⟩ := h.executing
    intro heq
    rw [heq, hfresh] at ht
    cases ht
  obtain ⟨t, ht⟩ : ∃ t, tm'.find (k.tm.latestId + 1) = some t :=
    ⟨_, hmod.self (find_newTask_self hfresh)⟩
  refine ⟨⟨hs, h.current, fun j hj => ?_, fun j t' hj hfind => ?_⟩, False.elim, False.elim, ?_⟩
  · show Function.update k.owner _ _ j = j
    rw [Function.update_apply]
    split
    · exact (‹j = _›).symm
    · rename_i hjn
      obtain ⟨t', ht'⟩ := hj
      exact h.owner j ⟨t', by rw [← hold hjn]; exact ht'⟩
  · have hfind : tm'.find j = some t' := hfind
    show Function.update k.saved _ ((tm'.find _).map (·.context)) j = _
    by_cases hjn : j = k.tm.latestId + 1
    · rw [hjn, Function.update_self, ← hjn, hfind, Option.map_some]
    · rw [Function.update_of_ne hjn]
      rw [hold hjn] at hfind
      exact h.saved j t' hj hfind
  · have hview : (k.newTask cr3 stackEnd f data).view =
        { k.view with context :=
            Function.update k.view.context (k.tm.latestId + 1) (some t.context) } := by
      rw [view]
      congr 1
      funext j
      show (if j = k.executing then some k.cpu else (tm'.find j).map (·.context)) = _
      by_cases hjn : j = k.tm.latestId + 1
      · rw [hjn, if_neg (Ne.symm hexec), ht, Option.map_some, Function.update_self]
      · rw [Function.update_of_ne hjn, hold hjn]
        rfl
    rw [hview]
    refine .create _ _ ?_
    rw [view_of_ne k (Ne.symm hexec), hfresh]
    rfl

theorem stay {e : Event} (hinv : CtxInv k') (hview : k'.view = k.view) (hs : ¬ Saves e)
    (hr : ¬ Resumes e) : Good k e k' := by
  refine ⟨hinv, fun h => absurd h hs, fun h => absurd h hr, ?_⟩
  rw [hview]
  refine .resume k.view (j := k.view.executing) ?_
  show k.view.context k.executing ≠ none
  rw [view_self]
  exact Option.some_ne_none _

theorem sleepOther {task : Nat} (h : CtxInv k) (hne : task ≠ k.executing) (hidle : task ≠ idleId) :
    ∃ k', k.step (.sleepOther task) = some k' ∧ Good k (.sleepOther task) k' := by
  rcases ht : k.tm.find task with _ | t
  · exact ⟨k, by rw [Machine.step, sleepById, ht]; rfl, stay h rfl id id⟩
  obtain ⟨tm', cpu', hrun, hs, hkeep⟩ := h.run.sleep ht hidle k.cpu
  have hcur : k.tm.currentTask ≠ some task :=
    fun heq => hne (Option.some.inj (heq.symm.trans h.current))
  have hstep : k.step (.sleepOther task) = some { k with tm := tm', cpu := cpu' } := by
    rw [Machine.step, sleepById, ht, hrun]
    rfl
  refine ⟨_, hstep, ?_⟩
  obtain ⟨-, -, ⟨-, rfl, rfl⟩ | ⟨heq, -⟩ | ⟨-, htouch, rfl⟩⟩ := touches_sleep hrun
  · exact stay h rfl id id
  · exact absurd heq hcur
  · obtain ⟨hinv, hview⟩ := h.touch hs htouch (hkeep hcur) fun _ => rfl
    exact stay hinv hview id id

/-- Every allowed event goes through. -/
theorem step (h : CtxInv k) {e : Event} (hok : k.Allowed e) :
    ∃ k', k.step e = some k' ∧ Good k e k' := by
  cases e with
  | progress cpu => exact ⟨_, rfl, h.progress cpu⟩
  | timer => exact h.timer
  | sleep => exact h.sleep hok
  | sleepOther task => exact h.sleepOther hok.1 hok.2
  | newTask cr3 stackEnd f data => exact ⟨_, rfl, h.newTask cr3 stackEnd f data⟩
  | wakeup task level =>
    rcases ht : k.tm.find task with _ | t
    · exact ⟨k, by rw [Machine.step, wakeupById, ht]; rfl, stay h rfl id id⟩
    · obtain ⟨tm', hrun, hs, hcur⟩ := h.run.wakeup ht hok
      obtain ⟨-, lv, htouch⟩ := touches_wakeup hrun
      obtain ⟨hinv, hview⟩ := h.touch hs htouch hcur fun _ => rfl
      exact ⟨_, by rw [Machine.step, wakeupById, ht, hrun]; rfl, stay hinv hview id id⟩
  | sendMessage task msg =>
    rcases ht : k.tm.find task with _ | t
    · exact ⟨k, by rw [Machine.step, sendMessage, ht]; rfl, stay h rfl id id⟩
    · obtain ⟨tm', hrun, hs, hcur⟩ := h.run.sendMessageTo ht msg
      obtain ⟨-, lv, htouch⟩ := touches_sendMessageTo hrun
      obtain ⟨hinv, hview⟩ := h.touch hs htouch hcur fun _ => rfl
      exact ⟨_, by rw [Machine.step, sendMessage, ht, hrun]; rfl, stay hinv hview id id⟩
  | finish exitCode => exact h.finish hok exitCode

theorem run_inv {es : List Event} (h : CtxInv k) (hrun : Run Step k es k') : CtxInv k' := by
  refine hrun.inv (I := CtxInv) (fun s e s' hs hstep => ?_) h
  obtain ⟨hok, hstep⟩ := hstep
  obtain ⟨s'', hs'', hgood⟩ := hs.step hok
  rw [hstep] at hs''
  cases hs''
  exact hgood.inv

theorem init (cr3 stackEnd taskIdle : UInt64) (boot : TaskContext) :
    CtxInv (Machine.init cr3 stackEnd taskIdle boot) where
  run := runInv_new cr3 stackEnd taskIdle
  current := rfl
  owner _ _ := rfl
  saved j t _ ht := by
    show ((TaskManager.new cr3 stackEnd taskIdle).find j).map (·.context) = _
    rw [show (TaskManager.new cr3 stackEnd taskIdle).find j = some t from ht, Option.map_some]

end CtxInv

end Machine

end Contexts

open Contexts

/-- In every run the executing task is the current one, and every event goes through: it saves the
executing task's context into that task, makes a task resume with the context last saved for it, and
is a step of a machine with private contexts. -/
theorem context_integrity (cr3 stackEnd taskIdle : UInt64) (boot : TaskContext)
    {es : List Machine.Event} {k : Machine}
    (hrun : Run Machine.Step (.init cr3 stackEnd taskIdle boot) es k) :
    k.tm.currentTask = some k.executing ∧ ∀ e, k.Allowed e → ∃ k', k.step e = some k' ∧
      (Machine.Saves e → (k'.tm.find k.executing).map (·.context) = some k.cpu) ∧
      (Machine.Resumes e → k'.saved k'.executing = some k'.cpu) ∧
      Private.Step k.view k'.view := by
  have hinv := (Machine.CtxInv.init cr3 stackEnd taskIdle boot).run_inv hrun
  refine ⟨hinv.current, fun e hok => ?_⟩
  obtain ⟨k', hstep, hgood⟩ := hinv.step hok
  exact ⟨k', hstep, hgood.saves, hgood.resumes, hgood.view⟩

/-- The boot task sleeps, and task 3 starts with the context built for it. -/
theorem context_integrity_boot : ∃ k k', Run Machine.Step (.init 0 0 0 {})
    [.newTask 0 0 5 7, .wakeup 3 (-1), .progress { rip := 9 }] k ∧ k.step .sleep = some k' ∧
      k'.executing = 3 ∧
      k'.cpu.rip = 5 ∧ (k'.tm.find 1).map (·.context.rip) = some 9 := by
  have hexec : ((Run.exec Machine.Allowed Machine.step (.init 0 0 0 {})
      [.newTask 0 0 5 7, .wakeup 3 (-1), .progress { rip := 9 }]).any fun k => k.executing = 1 ∧
        k.cpu.rip = 9 ∧
        (k.step .sleep).any fun k' => k'.executing = 3 ∧ k'.cpu.rip = 5) = true := by decide
  obtain ⟨k, hrun, hk, hrip, hsleep⟩ := Run.exists_of_exec hexec
  have hok : k.Allowed .sleep := by
    rw [Machine.Allowed, hk]
    decide
  obtain ⟨k', hstep, hsaves, -⟩ := (context_integrity 0 0 0 {} hrun).2 .sleep hok
  rw [hstep, Option.any_some, decide_eq_true_eq] at hsleep
  refine ⟨k, k', hrun, hstep, hsleep.1, hsleep.2, ?_⟩
  obtain ⟨t, ht, hctx⟩ := Option.map_eq_some_iff.1 (hsaves trivial)
  rw [hk] at ht
  rw [ht, Option.map_some, hctx, hrip]

end Moxia
