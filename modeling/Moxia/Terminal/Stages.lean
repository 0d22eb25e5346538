import Moxia.Terminal.Execution
import Moxia.Terminal.PipeStream

/-!
# The tasks of a line and their links

What holds of each task of a pipeline and between it and the subtask it has started
(`Execution.Inv`), and what is left to show when one task goes on (`Inv.change`, `Inv.advance`) or
starts its subtask (`Inv.append`).
-/

namespace Moxia.Terminal

open Lib

/-! ## The ids in use -/

/-- Ids that are not handed out yet are unused. -/
structure IdsOk (tm : TaskManager) : Prop where
  live : ∀ i, tm.Live i → i ≤ tm.latestId
  finished : ∀ i, tm.latestId < i → tm.finishTasks i = none

/-- The tasks and the exit codes stay as they are. -/
structure Quiet (tm tm' : TaskManager) : Prop where
  live : ∀ i, tm'.Live i ↔ tm.Live i
  latestId : tm'.latestId = tm.latestId
  finishTasks : tm'.finishTasks = tm.finishTasks

section

variable {tm tm' : TaskManager} {i : Nat}

theorem quiet_of_touches {f : Task → Task} (h : TaskManager.Touches tm tm' i f) : Quiet tm tm' :=
  ⟨fun _ => h.live_iff, h.latestId, h.finishTasks⟩

theorem quiet_refl (tm : TaskManager) : Quiet tm tm := ⟨fun _ => Iff.rfl, rfl, rfl⟩

theorem Quiet.idsOk (h : Quiet tm tm') (hids : IdsOk tm) : IdsOk tm' :=
  ⟨fun i hi => h.latestId ▸ hids.live i ((h.live i).1 hi), fun i hi => by
    rw [h.finishTasks]
    exact hids.finished i (h.latestId ▸ hi)⟩

theorem quiet_sendMessageTo {msg : Message}
    (h : tm.sendMessageTo i msg = some tm') : Quiet tm tm' := by
  obtain ⟨-, lv, htouch⟩ := TaskManager.touches_sendMessageTo h
  exact quiet_of_touches htouch

theorem quiet_sleep {cpu cpu' : TaskContext}
    (h : tm.sleep i cpu = some (tm', cpu')) : Quiet tm tm' := by
  obtain ⟨t, -, ⟨-, rfl, -⟩ | ⟨-, htouch, -⟩ | ⟨-, htouch, -⟩⟩ := TaskManager.touches_sleep h
  · exact quiet_refl _
  · exact quiet_of_touches htouch
  · exact quiet_of_touches htouch

theorem quiet_receiveMessage {r : Option Message}
    (h : tm.receiveMessage i = some (r, tm')) : Quiet tm tm' := by
  obtain ⟨t, -, ⟨-, -, rfl⟩ | ⟨m, -, -, htouch, -⟩⟩ := TaskManager.touches_receiveMessage h
  · exact quiet_refl _
  · exact quiet_of_touches htouch

theorem idsOk_new (cr3 stackEnd taskIdle : UInt64) :
    IdsOk (TaskManager.new cr3 stackEnd taskIdle) := by
  refine ⟨fun i hi => ?_, fun i _ => rfl⟩
  obtain ⟨t, ht⟩ := hi
  have hinv := TaskManager.schedInv_new cr3 stackEnd taskIdle
  have := hinv.id_le t (TaskManager.find_mem ht)
  rwa [TaskManager.find_id ht] at this

theorem idsOk_newTask (h : IdsOk tm) : IdsOk tm.newTask := by
  have hfresh : tm.find (tm.latestId + 1) = none := by
    by_contra hne
    have := h.live _ (Option.ne_none_iff_exists'.1 hne)
    omega
  refine ⟨fun i hi => ?_, fun i hi => h.finished i (Nat.lt_of_succ_lt hi)⟩
  show i ≤ tm.latestId + 1
  rw [TaskManager.Live, TaskManager.find_newTask hfresh] at hi
  split at hi
  · omega
  · have := h.live i hi
    omega

theorem idsOk_finish (h : IdsOk tm) {exitCode : Int} {cpu : TaskContext}
    (hs : tm.finish exitCode = some (tm', cpu))
    (hle : ∀ c, tm.currentTask = some c → c ≤ tm.latestId) : IdsOk tm' := by
  obtain ⟨c, lv, hc, hfind, hlatest, hft, -⟩ := TaskManager.finish_effect hs
  refine ⟨fun i hi => ?_, fun i hi => ?_⟩
  · rw [TaskManager.Live, hfind] at hi
    rw [hlatest]
    refine h.live i ?_
    split at hi
    · obtain ⟨t, ht⟩ := hi
      cases ht
    · split at hi
      · obtain ⟨t, ht⟩ := hi
        obtain ⟨t', ht', -⟩ := Option.map_eq_some_iff.1 ht
        exact ⟨t', ht'⟩
      · exact hi
  · have := hle c hc
    rw [hft, Function.update_of_ne (by omega)]
    exact h.finished i (by omega)

end

/-! ## The invariant -/

namespace Stage

/-- The command and, if it was started, the subtask are done. -/
def Done (s : Stage) : Prop := s.phase = .collected ∨ s.phase = .returned ∨ s.phase = .finished

/-- `FinishWrite` has been called. -/
def Ended (s : Stage) : Prop := s.subtask.isSome ∧ (s.phase = .waiting ∨ s.Done)

instance (s : Stage) : Decidable s.Done := inferInstanceAs (Decidable (_ ∨ _))
instance (s : Stage) : Decidable s.Ended := inferInstanceAs (Decidable (_ ∧ _))

/-- What the current `Write` still has to send. -/
def unsent (s : Stage) : List UInt8 :=
  match s.phase with
  | .write w => w.unsent
  | _ => []

/-- The bytes that go into the pipe. -/
def piped (s : Stage) : List UInt8 := if s.subtask.isSome ∧ ¬ s.redirected then s.written else []

/-- The messages `data` carry bytes, and `bytes` are what they carry. -/
def Carries (data : List Message) (bytes : List UInt8) : Prop :=
  (∀ msg ∈ data, ∃ chunk, msg.pipeBytes = some chunk ∧ chunk ≠ []) ∧ (chunks data).flatten = bytes

/-- What has been sent to the subtask and what the current `Write` still has to send. -/
def SentOk (s : Stage) : Prop :=
  ∃ data bytes, s.sent = data ++ (if s.Ended then [finishMessage] else []) ∧ Carries data bytes ∧
    bytes ++ s.unsent = s.piped

structure Ok (lastExitCode : Int) (s : Stage) : Prop where
  sent : s.SentOk
  early : s.phase = .setup ∨ s.phase = .redirect → s.written = []
  finished : s.finishCode.isSome → s.phase = .finished
  finishCode : ∀ code, s.finishCode = some code → s.failed = false → code = s.exitCode
  failed : s.failed = true → s.phase = .returned ∨ s.phase = .finished
  returned : s.phase = .returned → s.failed = false → lastExitCode = s.exitCode
  collected : s.collected.isSome → s.Done

/-- A task and the subtask it has started. -/
structure Link (tm : TaskManager) (s c : Stage) : Prop where
  subtask : s.subtask = some c.task
  started : s.phase ≠ .setup
  failed : s.failed = false
  finishTasks : tm.finishTasks c.task = if s.collected.isSome then none else c.finishCode
  collected : ∀ code, s.collected = some code → c.finishCode = some code
  done : s.Done → s.collected.isSome
  exitCode : s.Done → c.failed = false → s.exitCode = c.exitCode

variable {s s' : Stage} {tm : TaskManager} {lastExitCode : Int}

theorem SentOk.congr (h : s.SentOk) (hsent : s'.sent = s.sent) (hended : s'.Ended ↔ s.Ended)
    (hunsent : s'.unsent = s.unsent) (hpiped : s'.piped = s.piped) : s'.SentOk := by
  obtain ⟨data, bytes, hdata, hcarries, hbytes⟩ := h
  refine ⟨data, bytes, ?_, hcarries, by rw [hunsent, hpiped, hbytes]⟩
  simp only [hsent, hended, hdata]

theorem ok_new (lastExitCode : Int) (task : Nat) (line : List UInt8) {phase : Phase}
    (hphase : phase = .setup ∨ phase = .interactive) :
    Ok lastExitCode { task := task, commandLine := line, phase := phase } := by
  refine ⟨⟨[], [], by simp [Ended], ⟨by simp, rfl⟩, ?_⟩, fun _ => rfl, by simp, by simp, by
    simp, ?_, by simp⟩
  all_goals rcases hphase with rfl | rfl <;> simp [unsent, piped]

/-- A task that is not done has neither failed nor collected nor returned an exit code. -/
theorem Ok.busy (h : s.Ok lastExitCode) (hb : ¬ s.Done) :
    s.finishCode = none ∧ s.failed = false ∧ s.collected = none := by
  refine ⟨?_, ?_, ?_⟩
  · by_contra hne
    exact hb (.inr (.inr (h.finished (Option.isSome_iff_ne_none.2 hne))))
  · by_contra hne
    exact hb (.inr (h.failed (by simpa using hne)))
  · by_contra hne
    exact hb (h.collected (Option.isSome_iff_ne_none.2 hne))

end Stage

namespace Execution

variable {st st' : Execution} {k : Nat} {s s' c : Stage} {tm : TaskManager}

structure Inv (st : Execution) : Prop where
  ids : IdsOk st.tm
  ok : ∀ (k : Nat) (s : Stage), st.stages[k]? = some s → s.Ok st.lastExitCode
  link : ∀ (k : Nat) (s c : Stage), st.stages[k]? = some s → st.stages[k + 1]? = some c →
    s.Link st.tm c
  last : ∀ (k : Nat) (s : Stage), st.stages[k]? = some s → st.stages[k + 1]? = none →
    s.subtask = none
  task_le : ∀ (k : Nat) (s : Stage), st.stages[k + 1]? = some s → s.task ≤ st.tm.latestId
  task_lt : ∀ (j k : Nat) (s c : Stage), j < k → st.stages[j + 1]? = some s →
    st.stages[k + 1]? = some c → s.task < c.task

namespace Inv

theorem task_ne (h : Inv st) {j : Nat} (hjk : j ≠ k) (hs : st.stages[j + 1]? = some s)
    (hc : st.stages[k + 1]? = some c) : s.task ≠ c.task := by
  rcases Nat.lt_or_gt_of_ne hjk with hlt | hlt
  · exact Nat.ne_of_lt (h.task_lt _ _ _ _ hlt hs hc)
  · exact Nat.ne_of_gt (h.task_lt _ _ _ _ hlt hc hs)

/-- The tasks behind one that is done have finished. -/
theorem finished_after (h : Inv st) (hs : st.stages[k]? = some s) (hd : s.Done) :
    ∀ m c, st.stages[k + m + 1]? = some c → c.phase = .finished := by
  intro m
  induction m with
  | zero =>
    intro c hc
    have hlink := h.link k s c hs hc
    obtain ⟨code, hcode⟩ := Option.isSome_iff_exists.1 (hlink.done hd)
    exact (h.ok _ _ hc).finished (by rw [hlink.collected code hcode]; rfl)
  | succ m ih =>
    intro c hc
    have hlt := (List.getElem?_eq_some_iff.1 hc).1
    obtain ⟨b, hb⟩ : ∃ b, st.stages[k + m + 1]? = some b := ⟨_, List.getElem?_eq_getElem (by omega)⟩
    have hlink := h.link _ _ _ hb hc
    obtain ⟨code, hcode⟩ := Option.isSome_iff_exists.1 (hlink.done (.inr (.inr (ih b hb))))
    exact (h.ok _ _ hc).finished (by rw [hlink.collected code hcode]; rfl)

/-- The task that is about to return is the only one that writes `last_exit_code`. -/
theorem not_returned (h : Inv st) (hs : st.stages[k]? = some s)
    (hret : s.phase = .collected ∨ s.phase = .exited ∧ s.subtask = none) {j : Nat} (hj : j ≠ k)
    (hc : st.stages[j]? = some c) : c.phase ≠ .returned := by
  intro hphase
  rcases Nat.lt_or_gt_of_ne hj with hlt | hlt
  · obtain ⟨m, rfl⟩ := Nat.exists_eq_add_of_lt hlt
    have := h.finished_after hc (.inr (.inl hphase)) m s hs
    rcases hret with hret | ⟨hret, -⟩ <;> rw [this] at hret <;> cases hret
  · obtain ⟨m, rfl⟩ := Nat.exists_eq_add_of_lt hlt
    rcases hret with hret | ⟨-, hsub⟩
    · have := h.finished_after hs (.inl hret) m c hc
      rw [hphase] at this
      cases this
    · have hlen := (List.getElem?_eq_some_iff.1 hc).1
      have hnext : st.stages[k + 1]? = some st.stages[k + 1] := List.getElem?_eq_getElem (by omega)
      have := (h.link _ _ _ hs hnext).subtask
      rw [hsub] at this
      cases this

theorem tm_change (h : Inv st) (hids : IdsOk tm) (hle : st.tm.latestId ≤ tm.latestId)
    (hft : ∀ k s, st.stages[k + 1]? = some s → tm.finishTasks s.task = st.tm.finishTasks s.task) :
    Inv { st with tm := tm } where
  ids := hids
  ok := h.ok
  link k s c hs hc :=
    { h.link k s c hs hc with finishTasks := by rw [hft k c hc, (h.link k s c hs hc).finishTasks] }
  last := h.last
  task_le k s hs := Nat.le_trans (h.task_le k s hs) hle
  task_lt := h.task_lt

theorem quiet (h : Inv st) (hq : Quiet st.tm tm) : Inv { st with tm := tm } :=
  h.tm_change (hq.idsOk h.ids) (Nat.le_of_eq hq.latestId.symm) fun _ _ _ => by rw [hq.finishTasks]

theorem get_set {j : Nat} (hs : st.stages[k]? = some s) :
    (st.stages.set k s')[j]? = if j = k then some s' else st.stages[j]? := by
  have hlt := (List.getElem?_eq_some_iff.1 hs).1
  rw [List.getElem?_set]
  by_cases hj : j = k
  · simp [hj, hlt]
  · rw [if_neg (Ne.symm hj), if_neg hj]

/-- One task goes on: its links to the tasks before and behind it are what has to be shown. -/
theorem change (h : Inv st) (hs : st.stages[k]? = some s) (s' : Stage) (htask : s'.task = s.task)
    (hsub : s'.subtask = s.subtask)
    {code : Int} (hids : IdsOk tm) (hlatest : tm.latestId = st.tm.latestId)
    (hothers : ∀ j (a : Stage), st.stages[j]? = some a → j ≠ k →
      a.Ok code ∧ (j ≠ k + 1 → tm.finishTasks a.task = st.tm.finishTasks a.task ∨ j = 0))
    (hok : s'.Ok code) (hparent : ∀ j (p : Stage), j + 1 = k → p.Link st.tm s → p.Link tm s')
    (hchild : ∀ c, st.stages[k + 1]? = some c → s.Link st.tm c → s'.Link tm c) :
    Inv { tm := tm, lastExitCode := code, stages := st.stages.set k s' } := by
  have hget {j : Nat} : (st.stages.set k s')[j]? = if j = k then some s' else st.stages[j]? :=
    get_set hs
  have hold {j : Nat} {a : Stage} (ha : (st.stages.set k s')[j]? = some a) :
      ∃ b : Stage, st.stages[j]? = some b ∧ b.task = a.task := by
    rw [hget] at ha
    split at ha
    · rename_i hj
      cases ha
      exact ⟨s, hj ▸ hs, htask.symm⟩
    · exact ⟨a, ha, rfl⟩
  refine ⟨hids, fun j a ha => ?_, fun j a b ha hb => ?_, fun j a ha hb => ?_, fun j a ha => ?_,
    fun i j a b hij ha hb => ?_⟩
  · rw [hget] at ha
    split at ha
    · cases ha
      exact hok
    · exact (hothers j a ha (by assumption)).1
  · rw [hget] at ha hb
    split at ha
    · rename_i hj
      cases ha
      rw [if_neg (by omega)] at hb
      exact hchild b (hj ▸ hb) (h.link k s b hs (hj ▸ hb))
    · rename_i hj
      split at hb
      · rename_i hj
        cases hb
        exact hparent j a hj (h.link j a s ha (hj ▸ hs))
      · rename_i hj'
        have hlink := h.link j a b ha hb
        have hft := ((hothers (j + 1) b hb hj').2 (by omega)).resolve_right (Nat.succ_ne_zero j)
        exact { hlink with finishTasks := by rw [hft, hlink.finishTasks] }
  · rw [hget] at ha hb
    split at hb
    · cases hb
    · split at ha
      · rename_i hj
        cases ha
        rw [hsub]
        exact h.last k s hs (hj ▸ hb)
      · exact h.last j a ha hb
  · obtain ⟨b, hb, htask⟩ := hold ha
    rw [← htask]
    exact hlatest ▸ h.task_le j b hb
  · obtain ⟨a', ha', hta⟩ := hold ha
    obtain ⟨b', hb', htb⟩ := hold hb
    rw [← hta, ← htb]
    exact h.task_lt i j a' b' hij ha' hb'

theorem parent_collected {p : Stage} (hlink : p.Link tm s) (hcode : s.finishCode = none) :
    p.collected = none := by
  by_contra hne
  obtain ⟨code, hpcode⟩ := Option.ne_none_iff_exists'.1 hne
  have := hlink.collected code hpcode
  rw [hcode] at this
  cases this

theorem parent_not_done {p : Stage} (hlink : p.Link tm s)
    (hcode : s.finishCode = none) : ¬ p.Done := by
  intro hd
  have hcol := hlink.done hd
  rw [parent_collected hlink hcode] at hcol
  cases hcol

theorem exists_child (h : Inv st) (hs : st.stages[k]? = some s) {subtask : Nat}
    (hsub : s.subtask = some subtask) :
    ∃ c, st.stages[k + 1]? = some c ∧ c.task = subtask ∧ s.Link st.tm c := by
  cases hc : st.stages[k + 1]? with
  | none =>
    have := h.last k s hs hc
    rw [hsub] at this
    cases this
  | some c =>
    have hlink := h.link k s c hs hc
    exact ⟨c, rfl, Option.some.inj (hlink.subtask.symm.trans hsub), hlink⟩

theorem advance (h : Inv st) (hs : st.stages[k]? = some s) (hb : ¬ s.Done) (hb' : ¬ s'.Done)
    (hsame : s'.task = s.task ∧ s'.subtask = s.subtask ∧ s'.finishCode = s.finishCode ∧
    s'.failed = s.failed ∧
      s'.collected = s.collected) (hstarted : s'.phase ≠ .setup) (hsent : s'.SentOk)
    (hearly : s'.phase = .redirect → s'.written = []) : Inv (st.setStage k s') := by
  obtain ⟨htask, hsub, hcode, hfail, hcol⟩ := hsame
  have hbusy := (h.ok k s hs).busy hb
  rw [← hcode, ← hfail, ← hcol] at hbusy
  obtain ⟨hcode', hfail', hcol'⟩ := hbusy
  refine h.change hs s' htask hsub h.ids rfl (fun j a ha _ => ⟨h.ok j a ha, fun _ => .inl rfl⟩)
    ⟨hsent, ?_, ?_, ?_, ?_, ?_, ?_⟩ (fun j p _ hlink => ?_) fun c _ hlink => ?_
  · exact fun hphase => hearly (hphase.resolve_left hstarted)
  · simp [hcode']
  · simp [hcode']
  · simp [hfail']
  · exact fun hret => absurd (.inr (.inl hret)) hb'
  · simp [hcol']
  · have hnone := parent_not_done hlink (hcode ▸ hcode')
    exact ⟨by rw [htask, hlink.subtask], hlink.started, hlink.failed, by
      rw [htask, hcode, hlink.finishTasks],
      by rw [hcode]; exact hlink.collected, hlink.done, fun hd => absurd hd hnone⟩
  · exact ⟨by rw [hsub, hlink.subtask], hstarted, hfail', by rw [hcol, hlink.finishTasks],
      by rw [hcol]; exact hlink.collected, fun hd => absurd hd hb', fun hd => absurd hd hb'⟩

theorem length_of_setup (h : Inv st) (hs : st.stages[k]? = some s) (hphase : s.phase = .setup) :
    st.stages.length = k + 1 := by
  have hlt := (List.getElem?_eq_some_iff.1 hs).1
  by_contra hne
  exact (h.link k s _ hs (List.getElem?_eq_getElem (by omega))).started hphase

theorem append (h : Inv st) (hs : st.stages[k]? = some s) (hphase : s.phase = .setup)
    (hids : IdsOk tm)
    (hlatest : tm.latestId = st.tm.latestId + 1) (hft : tm.finishTasks = st.tm.finishTasks)
    (hcok : c.Ok st.lastExitCode) (hctask : c.task = st.tm.latestId + 1)
    (hcnone : c.subtask = none ∧ c.finishCode = none) :
    Inv { st with
      tm := tm,
      stages := st.stages.set k { s with phase := .redirect, subtask := some c.task } ++ [c] } := by
  have hok := h.ok k s hs
  have hwritten := hok.early (.inl hphase)
  obtain ⟨hcode, hfail, hcol⟩ := hok.busy (by simp [Stage.Done, hphase])
  have hlen := h.length_of_setup hs hphase
  set s' : Stage := { s with phase := .redirect, subtask := some c.task } with hs'
  have hsok : s'.Ok st.lastExitCode := by
    obtain ⟨data, bytes, hdata, hcarries, hbytes⟩ := hok.sent
    refine ⟨⟨data, bytes, ?_, hcarries, ?_⟩, fun _ => hwritten, by simp [hs', hcode], by
      simp [hs', hcode],
      by simp [hs', hfail], by simp [hs'], by simp [hs', hcol]⟩
    · simpa [hs', Stage.Ended, Stage.Done, hphase] using hdata
    · simpa [hs', Stage.unsent, Stage.piped, hphase, hwritten] using hbytes
  -- the tasks up to `k`, and the new one
  have hlen' : (st.stages.set k s').length = k + 1 := by rw [List.length_set, hlen]
  have hlast : (st.stages.set k s' ++ [c])[k + 1]? = some c := by
    rw [List.getElem?_append_right (by omega), hlen', Nat.sub_self]
    rfl
  have hget {j : Nat} {a : Stage} (ha : (st.stages.set k s' ++ [c])[j]? = some a) (hj : j ≠ k + 1) :
      j ≤ k ∧ (st.stages.set k s')[j]? = some a := by
    have hlt := (List.getElem?_eq_some_iff.1 ha).1
    rw [List.length_append, hlen', List.length_singleton] at hlt
    rw [List.getElem?_append_left (by omega)] at ha
    exact ⟨by omega, ha⟩
  have hold {j : Nat} {a : Stage} (ha : (st.stages.set k s' ++ [c])[j]? = some a) (hj : j ≠ k + 1) :
      ∃ b : Stage, st.stages[j]? = some b ∧ b.task = a.task := by
    have ha := (hget ha hj).2
    rw [get_set hs] at ha
    split at ha
    · rename_i hj
      cases ha
      exact ⟨s, hj ▸ hs, rfl⟩
    · exact ⟨a, ha, rfl⟩
  refine ⟨hids, fun j a ha => ?_, fun j a b ha hb => ?_, fun j a ha hb => ?_, fun j a ha => ?_,
    fun i j a b hij ha hb => ?_⟩
  · by_cases hj : j = k + 1
    · obtain rfl : c = a := Option.some.inj (hlast.symm.trans (hj ▸ ha))
      exact hcok
    · have ha := (hget ha hj).2
      rw [get_set hs] at ha
      split at ha
      · cases ha
        exact hsok
      · exact h.ok j a ha
  · -- the link to the new task, and the one to its parent
    by_cases hj : j = k
    · obtain rfl : c = b := Option.some.inj (hlast.symm.trans (hj ▸ hb))
      have ha := (hget ha (by omega)).2
      rw [get_set hs, if_pos hj] at ha
      cases ha
      have hnd : ¬ s'.Done := by simp [hs', Stage.Done]
      refine ⟨rfl, by simp [hs'], hfail, ?_, by
        simp [hs', hcol], fun hd => absurd hd hnd, fun hd => absurd hd hnd⟩
      show tm.finishTasks c.task = _
      rw [hft, hctask, h.ids.finished _ (Nat.lt_succ_self _)]
      simp [hs', hcol, hcnone]
    · obtain ⟨-, hb⟩ := hget hb (by omega)
      obtain ⟨hlt, ha⟩ := hget ha (by have := (List.getElem?_eq_some_iff.1 hb).1; omega)
      rw [get_set hs, if_neg hj] at ha
      rw [get_set hs] at hb
      split at hb
      · rename_i hj'
        cases hb
        have hlink := h.link j a s ha (hj' ▸ hs)
        refine { hlink with finishTasks := ?_,
                            exitCode := fun hd => absurd hd (parent_not_done hlink hcode) }
        show tm.finishTasks s.task = _
        rw [hft, hlink.finishTasks]
      · have hlink := h.link j a b ha hb
        exact { hlink with finishTasks := by rw [← hlink.finishTasks]; exact congrFun hft b.task }
  · by_cases hj : j = k + 1
    · obtain rfl : c = a := Option.some.inj (hlast.symm.trans (hj ▸ ha))
      exact hcnone.1
    · have hle := (hget ha hj).1
      have := List.getElem?_eq_none_iff.1 hb
      rw [List.length_append, hlen', List.length_singleton] at this
      omega
  · by_cases hj : j = k
    · obtain rfl : c = a := Option.some.inj (hlast.symm.trans (hj ▸ ha))
      show c.task ≤ tm.latestId
      omega
    · obtain ⟨b, hb, htask⟩ := hold ha (by omega)
      have := h.task_le j b hb
      show a.task ≤ tm.latestId
      omega
  · obtain ⟨a', ha', hta⟩ :=
      hold ha (by have := (List.getElem?_eq_some_iff.1 hb).1; simp [hlen] at this; omega)
    by_cases hj : j = k
    · obtain rfl : c = b := Option.some.inj (hlast.symm.trans (hj ▸ hb))
      have := h.task_le i a' ha'
      omega
    · obtain ⟨b', hb', htb⟩ := hold hb (by omega)
      rw [← hta, ← htb]
      exact h.task_lt i j a' b' hij ha' hb'

end Inv

end Execution

end Moxia.Terminal
