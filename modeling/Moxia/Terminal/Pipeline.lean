import Moxia.Task.Scheduler
import Moxia.Task.Inbox
import Moxia.Terminal.Pipe

/-!
# Running `L | R` (`ExecuteCommand`, `TaskTerminal`)

The parent task runs `L`, whose `Write` calls go into the pipe, then calls `FinishWrite` and waits
for the subtask. The subtask runs `R`, which may call `Read`, and then finishes. Each event is a
stretch between two points at which a timer interrupt may switch tasks, so that a run is an
interleaving of the two sides with the scheduler, other tasks and interrupt handlers.
-/

namespace Moxia

open Lib

/-- Where the parent is: in `L`'s own code, in a call of `Write`, in `WaitFinish`, or past it. -/
inductive Writer
  | command
  | write (w : PipeWrite)
  | finished
  | done
deriving DecidableEq

/-- Where the subtask is: in `R`'s own code, in the loop of `Read(buf, len)`, or past `Finish`. -/
inductive Reader
  | command
  | read (len : Nat)
  | finished

structure Pipeline where
  tm : TaskManager
  parent : Nat
  subtask : Nat
  pipe : PipeDescriptor
  writer : Writer := .command
  reader : Reader := .command
  /-- The concatenation of the buffers passed to `Write`. -/
  written : List UInt8 := []
  /-- The length each `Read` asked for, and the bytes it put into its buffer. -/
  reads : List (Nat × List UInt8) := []

namespace Pipeline

/-- The parent has called `FinishWrite`. -/
def isFinished (st : Pipeline) : Bool :=
  match st.writer with
  | .finished | .done => true
  | .command | .write _ => false

/-- The pipe setup of `ExecuteCommand`; `pipeData` is the uninitialised array of the descriptor. -/
def start (tm : TaskManager) (cr3 stackEnd taskTerminal termDesc : UInt64)
    (pipeData : Vector UInt8 16) :
    Option Pipeline := do
  let parent ← tm.currentTask
  let tm := tm.newTask
  let subtask := tm.latestId
  let tm := tm.modify subtask (·.initContext cr3 stackEnd taskTerminal termDesc)
  let tm ← tm.wakeup subtask (-1)
  some { tm := tm, parent := parent, subtask := subtask, pipe := { data := pipeData } }

inductive Event
  /-- `L` calls `Write(buf, buf.length)`. -/
  | write (buf : List UInt8)
  /-- The test of the loop in `Write` and, if it holds, its body. -/
  | writeTurn
  | finishWrite
  /-- A turn of the loop in `WaitFinish`. -/
  | waitFinish (cpu : TaskContext)
  /-- `R` calls `Read(buf, len)`. -/
  | read (len : Nat)
  /-- A turn of the loop in `Read`. -/
  | readTurn (cpu : TaskContext)
  /-- The subtask calls `Finish`. -/
  | finish (exitCode : Int)
  /-- Anything else that happens to the task manager, preemption (`switchTask`) included. -/
  | other (op : TaskManager.Op)

/-- `Read` returns `r`, or goes on. -/
def afterRead (st : Pipeline) (len : Nat) (r : Option (List UInt8))
    (pipe : PipeDescriptor) : Pipeline :=
  match r with
  | some bytes => { st with pipe := pipe, reader := .command, reads := st.reads ++ [(len, bytes)] }
  | none => { st with pipe := pipe, reader := .read len }

/-- The body of the loop in `Write`. -/
def send (st : Pipeline) (w : PipeWrite) : Option Pipeline := do
  let (msg, w) ← w.nextMessage
  let tm ← st.tm.sendMessageTo st.subtask msg
  some { st with tm := tm, writer := .write w }

def receive (st : Pipeline) (len : Nat) (cpu : TaskContext) : Option Pipeline := do
  match ← st.tm.receiveMessage st.subtask with
  | (none, tm) => (tm.sleep st.subtask cpu).map fun (tm, _) => { st with tm := tm }
  | (some msg, tm) => (st.pipe.readMessage len msg).map fun (r, pipe) =>
      { st with tm := tm }.afterRead len r pipe

def step (st : Pipeline) : Event → Option Pipeline
  | .write buf => match st.writer with
    | .command => some { st with writer := .write { buf := buf }, written := st.written ++ buf }
    | _ => none
  | .writeTurn => match st.writer with
    | .write w =>
        if w.sentBytes < w.buf.length then st.send w else some { st with writer := .command }
    | _ => none
  | .finishWrite => match st.writer with
    | .command => (st.tm.sendMessageTo st.subtask finishMessage).map fun tm =>
        { st with tm := tm, writer := .finished }
    | _ => none
  | .waitFinish cpu => match st.writer with
    | .finished => (st.tm.waitFinish st.parent st.subtask cpu).map fun (exitCode, tm, _) =>
        { st with tm := tm, writer := if exitCode.isSome then .done else .finished }
    | _ => none
  | .read len => match st.reader with
    | .command => (st.pipe.readLeftover len).map fun (r, pipe) => st.afterRead len r pipe
    | _ => none
  | .readTurn cpu => match st.reader with
    | .read len => st.receive len cpu
    | _ => none
  | .finish exitCode => match st.reader with
    | .command => (st.tm.finish exitCode).map fun (tm, _) =>
        { st with tm := tm, reader := .finished }
    | _ => none
  | .other op => (st.tm.step op).map fun tm => { st with tm := tm }

/-- Other tasks and interrupt handlers do not write into the pipe, and do not finish in the place of
the two. -/
def Foreign (st : Pipeline) : TaskManager.Op → Prop
  | .sendMessage task msg => task = st.subtask → msg.pipeBytes = none
  | .finish _ => st.tm.currentTask ≠ some st.subtask ∧ st.tm.currentTask ≠ some st.parent
  | .newTask | .wakeup _ _ | .sleep _ _ | .switchTask _ => True

/-- The task whose code an event is part of has to be the current one. -/
def Enabled (st : Pipeline) : Event → Prop
  | .write _ | .writeTurn | .finishWrite | .waitFinish _ => st.tm.currentTask = some st.parent
  | .read len => st.tm.currentTask = some st.subtask ∧ 1 ≤ len
  | .readTurn _ | .finish _ => st.tm.currentTask = some st.subtask
  | .other op => st.tm.Allowed op ∧ st.Foreign op

instance (st : Pipeline) : ∀ op, Decidable (st.Foreign op)
  | .sendMessage _ _ => inferInstanceAs (Decidable (_ → _))
  | .finish _ => inferInstanceAs (Decidable (_ ∧ _))
  | .newTask | .wakeup _ _ | .sleep _ _ | .switchTask _ => inferInstanceAs (Decidable True)

instance (st : Pipeline) : ∀ e, Decidable (st.Enabled e)
  | .write _ | .writeTurn | .finishWrite | .waitFinish _ | .readTurn _ | .finish _ =>
    inferInstanceAs (Decidable (_ = _))
  | .read _ | .other _ => inferInstanceAs (Decidable (_ ∧ _))

def Step : Pipeline → Event → Pipeline → Prop := Guarded Enabled fun st e st' =>
    st.step e = some st'

/-! ### What an event can do -/

section Inversion

variable {st st' : Pipeline}

theorem step_write {buf : List UInt8} (h : st.step (.write buf) = some st') :
    st.writer = .command ∧ st' = { st with writer := .write { buf := buf },
                                           written := st.written ++ buf } := by
  simp only [step] at h
  split at h
  · rename_i hw
    cases h
    exact ⟨hw, rfl⟩
  · cases h

theorem step_writeTurn (h : st.step .writeTurn = some st') : ∃ w, st.writer = .write w ∧
    ((w.sentBytes < w.buf.length ∧ ∃ msg w' tm, w.nextMessage = some (msg, w') ∧
        st.tm.sendMessageTo st.subtask msg = some tm ∧
          st' = { st with tm := tm, writer := .write w' }) ∨
      (¬ w.sentBytes < w.buf.length ∧ st' = { st with writer := .command })) := by
  simp only [step] at h
  split at h
  swap
  · cases h
  rename_i w hw
  refine ⟨w, hw, ?_⟩
  split at h
  · rename_i hlt
    obtain ⟨⟨msg, w'⟩, hnext, h⟩ := Option.bind_eq_some_iff.1 h
    obtain ⟨tm, htm, h⟩ := Option.bind_eq_some_iff.1 h
    cases h
    exact .inl ⟨hlt, msg, w', tm, hnext, htm, rfl⟩
  · rename_i hlt
    cases h
    exact .inr ⟨hlt, rfl⟩

theorem step_finishWrite (h : st.step .finishWrite = some st') : st.writer = .command ∧
    ∃ tm, st.tm.sendMessageTo st.subtask finishMessage = some tm ∧
      st' = { st with tm := tm, writer := .finished } := by
  simp only [step] at h
  split at h
  · rename_i hw
    obtain ⟨tm, htm, rfl⟩ := Option.map_eq_some_iff.1 h
    exact ⟨hw, tm, htm, rfl⟩
  · cases h

theorem step_waitFinish {cpu : TaskContext} (h : st.step (.waitFinish cpu) = some st') :
    st.writer = .finished ∧
    ∃ exitCode tm cpu', st.tm.waitFinish st.parent st.subtask cpu = some (exitCode, tm, cpu') ∧
      st' = { st with tm := tm, writer := if exitCode.isSome then .done else .finished } := by
  simp only [step] at h
  split at h
  · rename_i hw
    obtain ⟨⟨exitCode, tm, cpu'⟩, hwait, rfl⟩ := Option.map_eq_some_iff.1 h
    exact ⟨hw, exitCode, tm, cpu', hwait, rfl⟩
  · cases h

theorem step_read {len : Nat} (h : st.step (.read len) = some st') : st.reader = .command ∧
    ∃ r pipe, st.pipe.readLeftover len = some (r, pipe) ∧ st' = st.afterRead len r pipe := by
  simp only [step] at h
  split at h
  · rename_i hr
    obtain ⟨⟨r, pipe⟩, hread, rfl⟩ := Option.map_eq_some_iff.1 h
    exact ⟨hr, r, pipe, hread, rfl⟩
  · cases h

theorem step_readTurn {cpu : TaskContext} (h : st.step (.readTurn cpu) = some st') :
    ∃ len, st.reader = .read len ∧
    ((∃ tm tm' cpu', st.tm.receiveMessage st.subtask = some (none, tm) ∧
        tm.sleep st.subtask cpu = some (tm', cpu') ∧
        st' = { st with tm := tm' }) ∨
      ∃ msg tm r pipe, st.tm.receiveMessage st.subtask = some (some msg, tm) ∧
        st.pipe.readMessage len msg = some (r, pipe) ∧
          st' = { st with tm := tm }.afterRead len r pipe) := by
  simp only [step] at h
  split at h
  swap
  · cases h
  rename_i len hr
  refine ⟨len, hr, ?_⟩
  obtain ⟨⟨m, tm⟩, hrecv, h⟩ := Option.bind_eq_some_iff.1 h
  cases m with
  | none =>
    obtain ⟨⟨tm', cpu'⟩, hsleep, rfl⟩ := Option.map_eq_some_iff.1 h
    exact .inl ⟨tm, tm', cpu', hrecv, hsleep, rfl⟩
  | some msg =>
    obtain ⟨⟨r, pipe⟩, hmsg, rfl⟩ := Option.map_eq_some_iff.1 h
    exact .inr ⟨msg, tm, r, pipe, hrecv, hmsg, rfl⟩

theorem step_finish {exitCode : Int} (h : st.step (.finish exitCode) = some st') :
    st.reader = .command ∧
    ∃ tm cpu, st.tm.finish exitCode = some (tm, cpu) ∧
      st' = { st with tm := tm, reader := .finished } := by
  simp only [step] at h
  split at h
  · rename_i hr
    obtain ⟨⟨tm, cpu⟩, hfinish, rfl⟩ := Option.map_eq_some_iff.1 h
    exact ⟨hr, tm, cpu, hfinish, rfl⟩
  · cases h

theorem step_other {op : TaskManager.Op} (h : st.step (.other op) = some st') :
    ∃ tm, st.tm.step op = some tm ∧ st' = { st with tm := tm } := by
  obtain ⟨tm, hop, rfl⟩ := Option.map_eq_some_iff.1 h
  exact ⟨tm, hop, rfl⟩

end Inversion

/-- What happens elsewhere leaves the inbox of the subtask alone, or adds a message that is not for
the pipe. -/
theorem inbox_other {st : Pipeline} {op : TaskManager.Op} (hen : st.Enabled (.other op))
    {tm : TaskManager}
    (hs : st.tm.step op = some tm) {msgs : List Message}
    (hin : st.tm.inbox st.subtask = some msgs) :
    tm.inbox st.subtask = some msgs ∨
      ∃ msg, msg.pipeBytes = none ∧ tm.inbox st.subtask = some (msgs ++ [msg]) := by
  obtain ⟨-, hother⟩ := hen
  cases op with
  | newTask =>
    cases hs
    exact .inl (TaskManager.inbox_newTask hin)
  | wakeup task level =>
    rw [TaskManager.inbox_wakeup hs]
    exact .inl hin
  | sleep task cpu =>
    obtain ⟨⟨tm', cpu'⟩, hsleep, rfl⟩ := Option.map_eq_some_iff.1 hs
    rw [TaskManager.inbox_sleep hsleep]
    exact .inl hin
  | sendMessage task msg =>
    rw [TaskManager.inbox_sendMessageTo hs]
    by_cases htask : task = st.subtask
    · subst htask
      rw [Function.update_self, hin]
      exact .inr ⟨msg, hother rfl, rfl⟩
    · rw [Function.update_of_ne (Ne.symm htask)]
      exact .inl hin
  | switchTask cpu =>
    obtain ⟨⟨tm', cpu'⟩, hswitch, rfl⟩ := Option.map_eq_some_iff.1 hs
    rw [TaskManager.inbox_switchTask hswitch]
    exact .inl hin
  | finish exitCode =>
    obtain ⟨⟨tm', cpu'⟩, hfinish, rfl⟩ := Option.map_eq_some_iff.1 hs
    obtain ⟨c, hc, hin'⟩ := TaskManager.inbox_finish hfinish
    have hne : st.subtask ≠ c := by
      rintro rfl
      exact hother.1 hc
    rw [hin', Function.update_of_ne hne]
    exact .inl hin

end Pipeline

end Moxia
