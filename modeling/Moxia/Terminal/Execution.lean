import Moxia.Task.Scheduler
import Moxia.Terminal.CommandLine
import Moxia.Terminal.Pipe

/-!
# The tasks of one command line (`ExecuteCommand`, `TaskTerminal`)

A line with `n` segments is executed by up to `n` tasks, each of which starts the next one for what
follows its `|`. Each event is a stretch of one task between two points at which a timer interrupt
may switch tasks. What a redirect leads to and what a command writes and returns is left open.
-/

namespace Moxia.Terminal

open Lib

/-- Where a task is in `ExecuteCommand`, or in `TaskTerminal` behind it. -/
inductive Phase
  | setup
  /-- The subtask has been started, if there is one. -/
  | redirect
  | command
  /-- In a call of `PipeDescriptor::Write`. -/
  | write (w : PipeWrite)
  /-- The command has returned its exit code. -/
  | exited
  /-- In `WaitFinish`. -/
  | waiting
  | collected
  /-- `ExecuteCommand` has returned. -/
  | returned
  | finished
  /-- An empty line starts no command: the task is a terminal of its own. -/
  | interactive
deriving DecidableEq

/-- A call of `ExecuteCommand` and the task that makes it. -/
structure Stage where
  task : Nat
  commandLine : List UInt8
  phase : Phase := .setup
  /-- `subtask_id`, if `pipe_fd` is set. -/
  subtask : Option Nat := none
  /-- The redirect file has taken the place of `files[1]`. -/
  redirected : Bool := false
  /-- The redirect file could not be opened. -/
  failed : Bool := false
  exitCode : Int := 0
  /-- The command has read its input to the end. -/
  closed : Bool := false
  /-- The bytes the command has passed to `Write` of `files[1]`. -/
  written : List UInt8 := []
  /-- The messages it has sent to the subtask. -/
  sent : List Message := []
  /-- What `WaitFinish` has returned. -/
  collected : Option Int := none
  /-- What the task has passed to `Finish`. -/
  finishCode : Option Int := none

/-- What `ExecuteCommand` makes of the line; the descriptors it is given do not matter. -/
def Stage.wiring (s : Stage) : Setup Unit := executeCommand s.commandLine (Vector.replicate 3 ())

structure Execution where
  tm : TaskManager
  lastExitCode : Int
  stages : List Stage

namespace Execution

def setStage (st : Execution) (k : Nat) (s : Stage) : Execution :=
  { st with stages := st.stages.set k s }

/-- What one task does next. -/
inductive Action
  | setup (cr3 stackEnd taskTerminal termDesc : UInt64)
  | redirect (opened : Bool)
  /-- The command calls `Write(buf, buf.length)` of `files[1]`. -/
  | write (buf : List UInt8)
  /-- A turn of the loop in `PipeDescriptor::Write`. -/
  | writeTurn
  /-- A turn of the loop in `PipeDescriptor::Read`. -/
  | readTurn (cpu : TaskContext)
  | exit (exitCode : Int)
  | finishWrite
  /-- A turn of the loop in `WaitFinish`. -/
  | waitFinish (cpu : TaskContext)
  | return
  | finish

inductive Event
  | stage (k : Nat) (a : Action)
  /-- Anything else that happens to the task manager, preemption (`switchTask`) included. -/
  | other (op : TaskManager.Op)

/-- The pipe setup: the subtask executes the rest of the line. -/
def startSubtask (st : Execution) (k : Nat) (s : Stage) (commandLine : List UInt8)
    (cr3 stackEnd taskTerminal termDesc : UInt64) : Option Execution := do
  let tm := st.tm.newTask
  let subtask := tm.latestId
  let tm := tm.modify subtask (·.initContext cr3 stackEnd taskTerminal termDesc)
  let tm ← tm.wakeup subtask (-1)
  let next : Stage :=
    { task := subtask, commandLine := commandLine,
      phase := if commandLine = [] then .interactive else .setup }
  some { st with
    tm := tm,
    stages := st.stages.set k { s with phase := .redirect, subtask := some subtask } ++ [next] }

/-- A message to the subtask. -/
def send (st : Execution) (k : Nat) (s : Stage) (subtask : Nat) (msg : Message)
    (phase : Phase) : Option Execution :=
  (st.tm.sendMessageTo subtask msg).map fun tm =>
    { st with tm := tm }.setStage k { s with sent := s.sent ++ [msg], phase := phase }

def act (st : Execution) (k : Nat) (s : Stage) : Action → Option Execution
  | .setup cr3 stackEnd taskTerminal termDesc => match s.phase with
    | .setup => match s.wiring.subtask with
      | some desc => st.startSubtask k s desc.commandLine cr3 stackEnd taskTerminal termDesc
      | none => some (st.setStage k { s with phase := .redirect })
    | _ => none
  | .redirect opened => match s.phase with
    | .redirect => match getElem s.wiring.files 1 stdout_lt with
      | .file _ =>
        if opened then some (st.setStage k { s with phase := .command, redirected := true })
        -- an early return, which leaves the subtask as it is and `last_exit_code` as it was
        else some (st.setStage k { s with phase := .returned, failed := true })
      | .given _ | .pipe => some (st.setStage k { s with phase := .command })
    | _ => none
  | .write buf => match s.phase with
    | .command =>
      if s.subtask.isSome ∧ ¬ s.redirected then
        some (st.setStage k { s with phase := .write { buf := buf }, written := s.written ++ buf })
      else some (st.setStage k { s with written := s.written ++ buf })
    | _ => none
  | .writeTurn => match s.phase, s.subtask with
    | .write w, some subtask =>
      if w.sentBytes < w.buf.length then do
        let (msg, w) ← w.nextMessage
        st.send k s subtask msg (.write w)
      else some (st.setStage k { s with phase := .command })
    | _, _ => none
  | .readTurn cpu => match s.phase, s.closed with
    | .command, false => do
      match ← st.tm.receiveMessage s.task with
      | (none, tm) => (tm.sleep s.task cpu).map fun (tm, _) => { st with tm := tm }
      | (some msg, tm) =>
          some ({ st with tm := tm }.setStage k { s with closed := msg.pipeBytes = some [] })
    | _, _ => none
  | .exit exitCode => match s.phase with
    | .command => some (st.setStage k { s with phase := .exited, exitCode := exitCode })
    | _ => none
  | .finishWrite => match s.phase, s.subtask with
    | .exited, some subtask => st.send k s subtask finishMessage .waiting
    | _, _ => none
  | .waitFinish cpu => match s.phase, s.subtask with
    | .waiting, some subtask => (st.tm.waitFinish s.task subtask cpu).map fun (exitCode, tm, _) =>
      match exitCode with
      | some ec =>
        { st with tm := tm }.setStage k { s with phase := .collected, exitCode := ec,
                                                 collected := some ec }
      | none => { st with tm := tm }
    | _, _ => none
  | .return =>
    if s.phase = .collected ∨ s.phase = .exited ∧ s.subtask = none then
      some ({ st with lastExitCode := s.exitCode }.setStage k { s with phase := .returned })
    else none
  | .finish => match k, s.phase with
    -- the task of the whole line does not finish
    | k + 1, .returned => (st.tm.finish st.lastExitCode).map fun (tm, _) =>
      { st with tm := tm }.setStage (k + 1) { s with phase := .finished,
                                                     finishCode := some st.lastExitCode }
    | _, _ => none

def step (st : Execution) : Event → Option Execution
  | .stage k a => do st.act k (← st.stages[k]?) a
  | .other op => (st.tm.step op).map fun tm => { st with tm := tm }

/-- Other tasks and interrupt handlers do not write into the pipes, and a task that finishes is a
live one other than the line's tasks. -/
def Foreign (st : Execution) : TaskManager.Op → Prop
  | .sendMessage task msg => ∀ s ∈ st.stages, task = s.task → msg.pipeBytes = none
  | .finish _ => ∀ c ∈ st.tm.currentTask, st.tm.Live c ∧ ∀ s ∈ st.stages, c ≠ s.task
  | .newTask | .wakeup _ _ | .sleep _ _ | .switchTask _ => True

/-- The right-hand commands read their input to the end. -/
def ReadsOn (k : Nat) (s : Stage) : Action → Prop
  | .exit _ => k = 0 ∨ s.closed = true
  | _ => True

def Enabled (st : Execution) : Event → Prop
  | .stage k a => ∀ s ∈ st.stages[k]?, st.tm.currentTask = some s.task ∧ ReadsOn k s a
  | .other op => st.tm.Allowed op ∧ st.Foreign op

instance (st : Execution) : ∀ op, Decidable (st.Foreign op)
  | .sendMessage _ _ => inferInstanceAs (Decidable (∀ s ∈ _, _))
  | .finish _ => inferInstanceAs (Decidable (∀ c ∈ _, _))
  | .newTask | .wakeup _ _ | .sleep _ _ | .switchTask _ => inferInstanceAs (Decidable True)

instance (k : Nat) (s : Stage) : ∀ a, Decidable (ReadsOn k s a)
  | .exit _ => inferInstanceAs (Decidable (_ ∨ _))
  | .setup .. | .redirect _ | .write _ | .writeTurn | .readTurn _ | .finishWrite | .waitFinish
      _ | .return | .finish =>
    inferInstanceAs (Decidable True)

instance (st : Execution) : ∀ e, Decidable (st.Enabled e)
  | .stage k a => match h : st.stages[k]? with
    | some s =>
        decidable_of_iff (st.tm.currentTask = some s.task ∧ ReadsOn k s a) (by simp [Enabled, h])
    | none => .isTrue (by simp [Enabled, h])
  | .other _ => inferInstanceAs (Decidable (_ ∧ _))

def Step : Execution → Event → Execution → Prop := Guarded Enabled fun st e st' =>
    st.step e = some st'

/-- The current task is about to execute the line. -/
def start (tm : TaskManager) (lastExitCode : Int) (line : List UInt8) : Option Execution :=
  tm.currentTask.map fun task =>
    { tm := tm, lastExitCode := lastExitCode, stages := [{ task, commandLine := line }] }

end Execution

end Moxia.Terminal
