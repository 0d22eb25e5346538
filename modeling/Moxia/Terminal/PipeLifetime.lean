import Moxia.Terminal.PipeStream

/-!
# The lifetime of the reading task

A `PipeDescriptor` refers to the subtask, which `Finish` erases whether or not the parent is still
writing. The reference is good as long as the subtask does not finish before the parent has called
`FinishWrite` (`pipe_sends_live`); nothing makes the subtask wait for that (`not_pipe_sends_live`).
-/

namespace Moxia

open Lib

namespace Pipeline

variable {st st' : Pipeline}

/-- The events in which the parent sends a message. -/
def Sends (st : Pipeline) : Event → Prop
  | .writeTurn => ∃ w, st.writer = .write w ∧ w.sentBytes < w.buf.length
  | .finishWrite => st.writer = .command
  | _ => False

/-- Every message the parent may send now goes to a task that is still owned, and no other task gets
into a run queue by it. -/
def SendsLive (st : Pipeline) : Prop :=
  ∀ e, st.Enabled e → st.Sends e → st.tm.Live st.subtask ∧
    ∃ st', st.step e = some st' ∧ ∀ lv, ∀ x ∈ st'.tm.running lv,
      x ∈ st.tm.running lv ∨ st'.tm.Live x

/-- The subtask finishes only after `FinishWrite`. -/
def FinishesLate (st : Pipeline) : Event → Prop
  | .finish _ => st.isFinished = true
  | _ => True

instance (st : Pipeline) : ∀ e, Decidable (st.FinishesLate e)
  | .finish _ => inferInstanceAs (Decidable (_ = _))
  | .write _ | .writeTurn | .finishWrite | .waitFinish _ | .read _ | .readTurn _ | .other _ =>
    inferInstanceAs (Decidable True)

theorem not_isFinished_of_sends {e : Event} (h : st.Sends e) : st.isFinished = false := by
  cases e with
  | writeTurn =>
    obtain ⟨w, hw, -⟩ := h
    rw [isFinished, hw]
  | finishWrite =>
    have hw : st.writer = .command := h
    rw [isFinished, hw]
  | write | waitFinish | read | readTurn | finish | other => exact h.elim

theorem send_of_live (h : st.tm.Live st.subtask) (msg : Message) :
    ∃ tm, st.tm.sendMessageTo st.subtask msg = some tm ∧
      ∀ lv, ∀ x ∈ tm.running lv, x ∈ st.tm.running lv ∨ tm.Live x := by
  obtain ⟨tm, htm, hrun⟩ := TaskManager.sendMessageTo_of_live h msg
  refine ⟨tm, htm, fun lv x hx => (hrun lv x hx).imp id ?_⟩
  rintro rfl
  obtain ⟨msgs, hin⟩ := TaskManager.live_iff_inbox.1 h
  refine TaskManager.live_iff_inbox.2 ⟨msgs ++ [msg], ?_⟩
  rw [TaskManager.inbox_sendMessageTo htm, Function.update_self, hin]
  rfl

theorem sendsLive_of_live (h : st.isFinished = false → st.tm.Live st.subtask) : st.SendsLive := by
  intro e hen hs
  have hlive := h (not_isFinished_of_sends hs)
  refine ⟨hlive, ?_⟩
  cases e with
  | writeTurn =>
    obtain ⟨w, hw, hlt⟩ := hs
    obtain ⟨data, len, w', hn, -⟩ := PipeWrite.nextMessage_spec hlt
    obtain ⟨tm, htm, hrun⟩ := send_of_live hlive (.kPipe data len)
    exact ⟨{ st with tm := tm, writer := .write w' }, by simp [step, hw, hlt, send, hn, htm], hrun⟩
  | finishWrite =>
    have hw : st.writer = .command := hs
    obtain ⟨tm, htm, hrun⟩ := send_of_live hlive finishMessage
    exact ⟨{ st with tm := tm, writer := .finished }, by simp [step, hw, htm], hrun⟩
  | write | waitFinish | read | readTurn | finish | other => exact hs.elim

theorem live_sendMessageTo {tm tm' : TaskManager} {i : Nat} {msg : Message} (h : tm.Live i)
    (hs : tm.sendMessageTo i msg = some tm') : tm'.Live i := by
  obtain ⟨-, lv, htouch⟩ := TaskManager.touches_sendMessageTo hs
  exact htouch.live_iff.2 h

theorem live_step {e : Event} (h : st.tm.Live st.subtask) (hs : Step st e st')
    (he : ∀ c, e ≠ .finish c) :
    st'.tm.Live st'.subtask := by
  obtain ⟨hen, hs⟩ := hs
  cases e with
  | write buf =>
    obtain ⟨-, rfl⟩ := step_write hs
    exact h
  | writeTurn =>
    obtain ⟨w, -, ⟨-, msg, w', tm, -, htm, rfl⟩ | ⟨-, rfl⟩⟩ := step_writeTurn hs
    · exact live_sendMessageTo h htm
    · exact h
  | finishWrite =>
    obtain ⟨-, tm, htm, rfl⟩ := step_finishWrite hs
    exact live_sendMessageTo h htm
  | waitFinish cpu =>
    obtain ⟨-, exitCode, tm, cpu', hwait, rfl⟩ := step_waitFinish hs
    obtain ⟨msgs, hin⟩ := TaskManager.live_iff_inbox.1 h
    exact TaskManager.live_iff_inbox.2 ⟨msgs, by rw [TaskManager.inbox_waitFinish hwait]; exact hin⟩
  | read len =>
    obtain ⟨-, r, pipe, -, rfl⟩ := step_read hs
    cases r <;> exact h
  | readTurn cpu =>
    rw [TaskManager.live_iff_inbox] at h ⊢
    obtain ⟨msgs, hin⟩ := h
    obtain ⟨len, -, ⟨tm, tm', cpu', hrecv, hsleep, rfl⟩ | ⟨msg, tm, r, pipe, hrecv, -, rfl⟩⟩ :=
      step_readTurn hs
    · rcases TaskManager.inbox_receiveMessage hrecv with ⟨-, -, rfl⟩ | ⟨_, _, heq, -⟩
      · exact ⟨msgs, by rw [TaskManager.inbox_sleep hsleep]; exact hin⟩
      · cases heq
    · rcases TaskManager.inbox_receiveMessage hrecv with ⟨heq, -⟩ | ⟨_, rest, -, -, hin', -, -⟩
      · cases heq
      · refine ⟨rest, ?_⟩
        cases r <;> exact (congrFun hin' st.subtask).trans (Function.update_self ..)
  | finish exitCode => exact absurd rfl (he exitCode)
  | other op =>
    obtain ⟨tm, hop, rfl⟩ := step_other hs
    rw [TaskManager.live_iff_inbox] at h ⊢
    obtain ⟨msgs, hin⟩ := h
    rcases inbox_other hen hop hin with hin | ⟨msg, -, hin⟩
    · exact ⟨_, hin⟩
    · exact ⟨_, hin⟩

theorem isFinished_step {e : Event} (hs : Step st e st') (h : st.isFinished = true) :
    st'.isFinished = true := by
  obtain ⟨-, hs⟩ := hs
  rw [isFinished] at h
  cases e with
  | write buf =>
    obtain ⟨hw, -⟩ := step_write hs
    rw [hw] at h
    cases h
  | writeTurn =>
    obtain ⟨w, hw, -⟩ := step_writeTurn hs
    rw [hw] at h
    cases h
  | finishWrite =>
    obtain ⟨hw, -⟩ := step_finishWrite hs
    rw [hw] at h
    cases h
  | waitFinish cpu =>
    obtain ⟨-, exitCode, tm, cpu', -, rfl⟩ := step_waitFinish hs
    cases exitCode <;> rfl
  | read len =>
    obtain ⟨-, r, pipe, -, rfl⟩ := step_read hs
    cases r <;> exact h
  | readTurn cpu =>
    obtain ⟨len, -, ⟨tm, tm', cpu', -, -, rfl⟩ | ⟨msg, tm, r, pipe, -, -, rfl⟩⟩ := step_readTurn hs
    · exact h
    · cases r <;> exact h
  | finish exitCode =>
    obtain ⟨-, tm, cpu, -, rfl⟩ := step_finish hs
    exact h
  | other op =>
    obtain ⟨tm, -, rfl⟩ := step_other hs
    exact h

/-- As long as the parent may still write, the subtask is live. -/
theorem live_run {st₀ : Pipeline} {es : List Event}
    (hrun : Run (Guarded FinishesLate Step) st₀ es st)
    (h : st₀.tm.Live st₀.subtask) : st.isFinished = false → st.tm.Live st.subtask := by
  refine hrun.inv (I := fun st => st.isFinished = false → st.tm.Live st.subtask) ?_ fun _ => h
  rintro s e s' hs ⟨hlate, hstep⟩ hfin
  have hfin' : s.isFinished = false := by
    by_contra hne
    have := isFinished_step hstep (by simpa using hne)
    rw [hfin] at this
    cases this
  refine live_step (hs hfin') hstep ?_
  rintro c rfl
  have hlate : s.isFinished = true := hlate
  rw [hfin'] at hlate
  cases hlate

theorem live_start {tm : TaskManager} (hfresh : tm.find (tm.latestId + 1) = none)
    {cr3 stackEnd taskTerminal termDesc : UInt64} {pipeData : Vector UInt8 16}
    (hstart : start tm cr3 stackEnd taskTerminal termDesc pipeData = some st) :
    st.tm.Live st.subtask := by
  obtain ⟨msgs, cs, hf⟩ := (streamInv_start hfresh hstart).flow (by
    obtain ⟨parent, -, hstart⟩ := Option.bind_eq_some_iff.1 hstart
    obtain ⟨tm', -, hstart⟩ := Option.bind_eq_some_iff.1 hstart
    cases hstart
    exact fun h => by cases h)
  exact TaskManager.live_iff_inbox.2 ⟨msgs, hf.inbox⟩

end Pipeline

open Pipeline

/-- In every run in which the subtask finishes only after `FinishWrite`, every message of the parent
goes to a live task. -/
theorem pipe_sends_live {tm : TaskManager} (hfresh : tm.find (tm.latestId + 1) = none)
    {cr3 stackEnd taskTerminal termDesc : UInt64} {pipeData : Vector UInt8 16} {st₀ st : Pipeline}
    (hstart : start tm cr3 stackEnd taskTerminal termDesc pipeData = some st₀) {es : List Event}
    (hrun : Run (Guarded FinishesLate Pipeline.Step) st₀ es st) : SendsLive st :=
  sendsLive_of_live (live_run hrun (live_start hfresh hstart))

/-- The task manager while a terminal task, the third task, is current. -/
def terminalCurrent : TaskManager :=
  (Run.exec TaskManager.Allowed TaskManager.step (TaskManager.new 0 0 0)
    [.newTask, .wakeup 3 (-1), .sleep 1 {}]).get (by decide)

/-- The subtask waits for input, the parent writes a byte and is about to call `FinishWrite`. -/
theorem pipe_sends_live_one_byte : ∃ st, st.tm.currentTask = some st.parent ∧
    st.Sends .finishWrite ∧
    SendsLive st := by
  have hexec : ((start terminalCurrent 0 0 0 0 (Vector.replicate 16 0)).bind fun st₀ =>
      Run.exec (fun st e => FinishesLate st e ∧ Enabled st e) Pipeline.step st₀
        [.other (.switchTask {}), .read 1,
        .readTurn {}, .write [104], .writeTurn, .writeTurn]).map
          (fun st => (st.tm.currentTask, st.parent, st.writer)) = some (some 3, 3, .command) := by
            decide +kernel
  obtain ⟨st, hst, hfields⟩ := Option.map_eq_some_iff.1 hexec
  obtain ⟨st₀, hstart, hst⟩ := Option.bind_eq_some_iff.1 hst
  have hrun : Run (Guarded FinishesLate Pipeline.Step) st₀ _ st :=
    (Run.of_exec hst).mono fun _ _ _ ⟨⟨hlate, hen⟩, hstep⟩ => ⟨hlate, hen, hstep⟩
  have hfresh : terminalCurrent.find (terminalCurrent.latestId + 1) = none := rfl
  simp only [Prod.mk.injEq] at hfields
  obtain ⟨hcur, hparent, hw⟩ := hfields
  exact ⟨st, by rw [hcur, hparent], hw, pipe_sends_live hfresh hstart hrun⟩

/-- A subtask that does not read finishes before the parent writes: the reference dangles. -/
theorem not_pipe_sends_live :
    ¬ ∀ (tm : TaskManager) (pipeData : Vector UInt8 16) (st₀ st : Pipeline)
    (es : List Event), tm.find (tm.latestId + 1) = none → start tm 0 0 0 0 pipeData = some st₀ →
      Run Pipeline.Step st₀ es st → SendsLive st := by
  intro h
  have hexec : ((start terminalCurrent 0 0 0 0 (Vector.replicate 16 0)).bind fun st₀ =>
      Run.exec Enabled Pipeline.step st₀ [.other (.switchTask {}), .finish 0]).map
        (fun st => (st.tm.currentTask, st.parent, st.writer, decide (st.tm.Live st.subtask))) =
      some (some 3, 3, .command, false) := by decide
  obtain ⟨st, hst, hfields⟩ := Option.map_eq_some_iff.1 hexec
  obtain ⟨st₀, hstart, hst⟩ := Option.bind_eq_some_iff.1 hst
  simp only [Prod.mk.injEq, decide_eq_false_iff_not] at hfields
  obtain ⟨hcur, hparent, hw, hdead⟩ := hfields
  have hen : st.Enabled .finishWrite := by
    show st.tm.currentTask = some st.parent
    rw [hcur, hparent]
  exact hdead (h terminalCurrent _ st₀ st _ rfl hstart (Run.of_exec hst) .finishWrite hen hw).1

end Moxia
