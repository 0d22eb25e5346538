import Moxia.Lib.LevelQueues
import Moxia.Memory.Manager

/-!
# Tasks and the task manager (`message.hpp`, `task.hpp`, `task.cpp`)

A `Task *` is modelled by the task's id: ids are never reused, so two pointers to live tasks are
equal exactly if the ids are, and a pointer whose id is no longer in `tasks` dangles. An operation
is `none` where the source follows a dangling pointer, reads the front of an empty deque or indexes
`running_` past `kMaxLevel`. The operations that save or load a CPU context take the context the CPU
has at the call and return the one it continues with.
-/

namespace Moxia

open Lib

/-- `struct Message`; the payload is the member of the union the type selects. -/
inductive Message
  | kTimerTimeout (timeout : Nat) (value : Int)
  | kKeyboardPush (keycode : Nat)
  /-- The first `len` bytes of the array count. -/
  | kPipe (data : Vector UInt8 16) (len : UInt8)

/-- `struct TaskContext`, in the order of its fields. -/
structure TaskContext where
  cr3 : UInt64 := 0
  rip : UInt64 := 0
  rflags : UInt64 := 0
  reserved1 : UInt64 := 0
  cs : UInt64 := 0
  ss : UInt64 := 0
  fs : UInt64 := 0
  gs : UInt64 := 0
  rax : UInt64 := 0
  rbx : UInt64 := 0
  rcx : UInt64 := 0
  rdx : UInt64 := 0
  rdi : UInt64 := 0
  rsi : UInt64 := 0
  rsp : UInt64 := 0
  rbp : UInt64 := 0
  r8 : UInt64 := 0
  r9 : UInt64 := 0
  r10 : UInt64 := 0
  r11 : UInt64 := 0
  r12 : UInt64 := 0
  r13 : UInt64 := 0
  r14 : UInt64 := 0
  r15 : UInt64 := 0
  fxsaveArea : Vector UInt8 512 := Vector.replicate 512 0
deriving DecidableEq

def kKernelCS : UInt64 := (1 : UInt64) <<< 3
def kKernelSS : UInt64 := (2 : UInt64) <<< 3

/-- `class Task`, without the stack's memory and the open files. -/
structure Task where
  id : Nat
  context : TaskContext := {}
  msgs : List Message := []
  level : Nat := 1
  running : Bool := false

namespace Task

/-- `InitContext` for the entry point `f`; `stackEnd` is the address one past the new stack. -/
def initContext (t : Task) (cr3 stackEnd f data : UInt64) : Task :=
  { t with context :=
      { cr3 := cr3
        rflags := 0x202
        cs := kKernelCS
        ss := kKernelSS
        rsp := (stackEnd &&& ~~~0xf) - 8
        rip := f
        rdi := UInt64.ofNat t.id
        rsi := data
        -- the 32-bit word 0x1f80 at offset 24 is MXCSR
        fxsaveArea := ((Vector.replicate 512 0).set 24 0x80).set 25 0x1f } }

def setLevel (t : Task) (level : Nat) : Task := { t with level := level }
def setRunning (t : Task) (running : Bool) : Task := { t with running := running }
def setContext (t : Task) (context : TaskContext) : Task := { t with context := context }

/-- `msgs_.push_back(msg)` -/
def pushMessage (t : Task) (msg : Message) : Task := { t with msgs := t.msgs ++ [msg] }

/-- `msgs_.pop_front()` -/
def popMessage (t : Task) : Task := { t with msgs := t.msgs.tail }

end Task

def kMaxLevel : Nat := 3

structure TaskManager where
  tasks : List Task := []
  latestId : Nat := 0
  running : LevelQueues Nat := fun _ => []
  currentLevel : Nat := kMaxLevel
  levelChanged : Bool := false
  finishTasks : Nat → Option Int := fun _ => none
  finishWaiter : Nat → Option Nat := fun _ => none

namespace TaskManager

/-- The task a pointer points to, if it is still owned. -/
def find (tm : TaskManager) (id : Nat) : Option Task := tm.tasks.find? fun t => t.id = id

/-- Writing through a pointer. -/
def modify (tm : TaskManager) (id : Nat) (f : Task → Task) : TaskManager :=
  { tm with tasks := tm.tasks.map fun t => if t.id = id then f t else t }

def setQueue (tm : TaskManager) (level : Nat) (queue : List Nat) : TaskManager :=
  { tm with running := Function.update tm.running level queue }

def newTask (tm : TaskManager) : TaskManager :=
  { tm with latestId := tm.latestId + 1, tasks := tm.tasks ++ [{ id := tm.latestId + 1 }] }

/-- The constructor: the boot task at the top level and the idle task at level 0. -/
def new (cr3 stackEnd taskIdle : UInt64) : TaskManager :=
  let tm := newTask {}
  let task := tm.latestId
  let tm := tm.modify task fun t => (t.setLevel tm.currentLevel).setRunning true
  let tm := tm.setQueue tm.currentLevel (tm.running tm.currentLevel ++ [task])
  let tm := tm.newTask
  let idle := tm.latestId
  let tm := tm.modify idle fun t =>
    ((t.initContext cr3 stackEnd taskIdle 0).setLevel 0).setRunning true
  tm.setQueue 0 (tm.running 0 ++ [idle])

/-- The id of the idle task. -/
def idleId : Nat := 2

def currentTask (tm : TaskManager) : Option Nat := (tm.running tm.currentLevel).head?

/-- The end of `RotateCurrentRunQueue`: a pending level change is carried out. -/
def chooseLevel (tm : TaskManager) : TaskManager :=
  if tm.levelChanged then
    { tm with
      levelChanged := false
      currentLevel := (tm.running.highest (kMaxLevel + 1)).getD tm.currentLevel }
  else tm

def rotateCurrentRunQueue (tm : TaskManager) (currentSleep : Bool) : Option (TaskManager × Nat) :=
  match tm.running tm.currentLevel with
  | [] => none
  | currentTask :: rest =>
    let levelQueue := if currentSleep then rest else rest ++ [currentTask]
    let tm := tm.setQueue tm.currentLevel levelQueue
    let tm := if levelQueue.isEmpty then { tm with levelChanged := true } else tm
    some (tm.chooseLevel, currentTask)

/-- `ChangeLevelRunning` on a live task. -/
def changeLevelRunning (tm : TaskManager) (task : Task) (level : Int) : Option TaskManager :=
  if level < 0 ∨ level = task.level then some tm
  else if level > kMaxLevel then none
  else
    let level := level.toNat
    match tm.running tm.currentLevel with
    | [] => none
    | front :: rest =>
      if task.id ≠ front then
        let tm := tm.setQueue task.level ((tm.running task.level).filter (· ≠ task.id))
        let tm := tm.setQueue level (tm.running level ++ [task.id])
        let tm := tm.modify task.id (·.setLevel level)
        some (if level > tm.currentLevel then { tm with levelChanged := true } else tm)
      else
        let tm := tm.setQueue tm.currentLevel rest
        let tm := tm.setQueue level (task.id :: tm.running level)
        let tm := tm.modify task.id (·.setLevel level)
        some (if level ≥ tm.currentLevel then { tm with currentLevel := level }
          else { tm with currentLevel := level, levelChanged := true })

/-- `Wakeup(Task *, int)`; a negative level keeps the task's own. -/
def wakeup (tm : TaskManager) (id : Nat) (level : Int) : Option TaskManager := do
  let task ← tm.find id
  if task.running then tm.changeLevelRunning task level
  else if level > kMaxLevel then none
  else
    let level := if level < 0 then task.level else level.toNat
    let tm := tm.modify id fun t => (t.setLevel level).setRunning true
    let tm := tm.setQueue level (tm.running level ++ [id])
    some (if level > tm.currentLevel then { tm with levelChanged := true } else tm)

/-- `Task::SendMessage` through a pointer. -/
def sendMessageTo (tm : TaskManager) (id : Nat) (msg : Message) : Option TaskManager := do
  let _ ← tm.find id
  (tm.modify id (·.pushMessage msg)).wakeup id (-1)

/-- `Task::ReceiveMessage` through a pointer: the front message, if there is one. -/
def receiveMessage (tm : TaskManager) (id : Nat) : Option (Option Message × TaskManager) := do
  let task ← tm.find id
  match task.msgs with
  | [] => some (none, tm)
  | m :: _ => some (some m, tm.modify id (·.popMessage))

/-- `Sleep(Task *)` with the CPU context at the call. -/
def sleep (tm : TaskManager) (id : Nat) (cpu : TaskContext) :
    Option (TaskManager × TaskContext) := do
  let task ← tm.find id
  if !task.running then some (tm, cpu)
  else
    let tm := tm.modify id (·.setRunning false)
    match tm.running tm.currentLevel with
    | [] => none
    | front :: _ =>
      if id = front then
        let (tm, current) ← tm.rotateCurrentRunQueue true
        let next ← tm.find (← tm.currentTask)
        -- SwitchContext: save for the old task, load the new one's
        some (tm.modify current (·.setContext cpu), next.context)
      else
        some (tm.setQueue task.level ((tm.running task.level).filter (· ≠ id)), cpu)

/-- `SwitchTask` on the context the timer interrupt saved. -/
def switchTask (tm : TaskManager) (currentCtx : TaskContext) :
    Option (TaskManager × TaskContext) := do
  let tm := tm.modify (← tm.currentTask) (·.setContext currentCtx)
  let (tm, current) ← tm.rotateCurrentRunQueue false
  let next ← tm.currentTask
  if next ≠ current then
    let task ← tm.find next
    some (tm, task.context)
  else some (tm, currentCtx)

/-- The end of `Finish`: whoever waits for `id` is forgotten and woken. -/
def wakeFinishWaiter (tm : TaskManager) (id : Nat) : Option TaskManager :=
  match tm.finishWaiter id with
  | some waiter =>
      wakeup { tm with finishWaiter := Function.update tm.finishWaiter id none } waiter (-1)
  | none => some tm

/-- `Finish`: the current task is erased, its waiter woken, and the next task's context restored. -/
def finish (tm : TaskManager) (exitCode : Int) : Option (TaskManager × TaskContext) := do
  let (tm, current) ← tm.rotateCurrentRunQueue true
  let tm := { tm with tasks := tm.tasks.filter fun t => t.id ≠ current }
  let tm := { tm with finishTasks := Function.update tm.finishTasks current (some exitCode) }
  let tm ← tm.wakeFinishWaiter current
  let next ← tm.find (← tm.currentTask)
  some (tm, next.context)

/-- One turn of the loop in `WaitFinish`: the exit code of a finished task, or the caller sleeps. -/
def waitFinish (tm : TaskManager) (currentTask taskId : Nat) (cpu : TaskContext) :
    Option (Option Int × TaskManager × TaskContext) :=
  match tm.finishTasks taskId with
  | some exitCode =>
    some (some exitCode, { tm with finishTasks := Function.update tm.finishTasks taskId none }, cpu)
  | none =>
    let tm := { tm with finishWaiter := Function.update tm.finishWaiter taskId (some currentTask) }
    (tm.sleep currentTask cpu).map fun (tm, cpu) => (none, tm, cpu)

/-! The overloads that take an id look the task up and report a missing one. -/

def sleepById (tm : TaskManager) (id : Nat) (cpu : TaskContext) :
    Option (Error × TaskManager × TaskContext) :=
  match tm.find id with
  | none => some (.kNoSuchTask, tm, cpu)
  | some _ => (tm.sleep id cpu).map fun (tm, cpu) => (.kSuccess, tm, cpu)

def wakeupById (tm : TaskManager) (id : Nat) (level : Int) : Option (Error × TaskManager) :=
  match tm.find id with
  | none => some (.kNoSuchTask, tm)
  | some _ => (tm.wakeup id level).map fun tm => (.kSuccess, tm)

def sendMessage (tm : TaskManager) (id : Nat) (msg : Message) : Option (Error × TaskManager) :=
  match tm.find id with
  | none => some (.kNoSuchTask, tm)
  | some _ => (tm.sendMessageTo id msg).map fun tm => (.kSuccess, tm)

end TaskManager

end Moxia
