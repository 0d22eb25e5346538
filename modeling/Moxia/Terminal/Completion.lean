import Moxia.Terminal.PipeLifetime
import Moxia.Terminal.Stages

/-!
# A pipeline completes

When `ExecuteCommand` returns after it has started a subtask, the subtask has got all of its input
and the end of it, its exit code has been collected, and the exit codes of all later tasks are that
of the last command (`pipelines_complete`). The early returns behind a redirect that cannot be
opened skip this (`not_completed`).
-/

namespace Moxia.Terminal

open Lib

namespace Execution

variable {st st' : Execution} {k : Nat} {s s' c : Stage} {tm : TaskManager}

/-! ## The steps of a task -/

namespace Inv

theorem setup (h : Inv st) (hs : st.stages[k]? = some s) (hphase : s.phase = .setup) :
    Inv (st.setStage k { s with phase := .redirect }) := by
  refine h.advance hs (by simp [Stage.Done, hphase]) (by simp [Stage.Done]) ⟨rfl, rfl, rfl, rfl,
    rfl⟩ (by simp) ?_
    fun _ => (h.ok k s hs).early (.inl hphase)
  exact (h.ok k s hs).sent.congr rfl (by simp [Stage.Ended, Stage.Done, hphase])
    (by simp [Stage.unsent, hphase]) rfl

theorem redirect (h : Inv st) (hs : st.stages[k]? = some s) (hphase : s.phase = .redirect)
    (b : Bool) :
    Inv (st.setStage k { s with phase := .command, redirected := b }) := by
  have hwritten := (h.ok k s hs).early (.inr hphase)
  refine h.advance hs (by simp [Stage.Done, hphase]) (by simp [Stage.Done]) ⟨rfl, rfl, rfl, rfl,
    rfl⟩ (by simp) ?_
    (by simp)
  refine (h.ok k s hs).sent.congr rfl (by simp [Stage.Ended, Stage.Done, hphase])
    (by simp [Stage.unsent, hphase]) ?_
  simp [Stage.piped, hwritten]

theorem write (h : Inv st) (hs : st.stages[k]? = some s) (hphase : s.phase = .command)
    (hpipe : s.subtask.isSome ∧ ¬ s.redirected) (buf : List UInt8) :
    Inv (st.setStage k { s with phase := .write { buf := buf }, written := s.written ++ buf }) := by
  refine h.advance hs (by simp [Stage.Done, hphase]) (by simp [Stage.Done]) ⟨rfl, rfl, rfl, rfl,
    rfl⟩ (by simp) ?_
    (by simp)
  obtain ⟨data, bytes, hdata, hcarries, hbytes⟩ := (h.ok k s hs).sent
  refine ⟨data, bytes, ?_, hcarries, ?_⟩
  · simpa [Stage.Ended, Stage.Done, hphase] using hdata
  · simp only [Stage.unsent, Stage.piped, hphase, if_pos hpipe, List.append_nil] at hbytes
    simp only [Stage.unsent, Stage.piped, if_pos hpipe, PipeWrite.unsent, List.drop_zero, hbytes]

theorem writeElsewhere (h : Inv st) (hs : st.stages[k]? = some s) (hphase : s.phase = .command)
    (hpipe : ¬ (s.subtask.isSome ∧ ¬ s.redirected)) (buf : List UInt8) :
    Inv (st.setStage k { s with written := s.written ++ buf }) := by
  have hb : ¬ s.Done := by simp [Stage.Done, hphase]
  refine h.advance hs hb hb ⟨rfl, rfl, rfl, rfl, rfl⟩ (by simp [hphase]) ?_ (by simp [hphase])
  exact (h.ok k s hs).sent.congr rfl Iff.rfl rfl (by simp only [Stage.piped, if_neg hpipe])

theorem send (h : Inv st) (hs : st.stages[k]? = some s) (hb : ¬ s.Done) {subtask : Nat}
    {msg : Message} {phase : Phase} (hphase : phase = .waiting ∨ ∃ w, phase = .write w)
    (hsent : { s with sent := s.sent ++ [msg], phase := phase : Stage }.SentOk)
    (hstep : st.send k s subtask msg phase = some st') : Inv st' := by
  obtain ⟨tm, htm, rfl⟩ := Option.map_eq_some_iff.1 hstep
  have hquiet := h.quiet (quiet_sendMessageTo htm)
  refine hquiet.advance hs hb ?_ ⟨rfl, rfl, rfl, rfl, rfl⟩ ?_ hsent ?_
  all_goals rcases hphase with rfl | ⟨w, rfl⟩ <;> simp [Stage.Done]

theorem writeTurn (h : Inv st) (hs : st.stages[k]? = some s) {w : PipeWrite}
    (hphase : s.phase = .write w)
    {subtask : Nat} (hlt : w.sentBytes < w.buf.length) {msg : Message} {w' : PipeWrite}
    (hnext : w.nextMessage = some (msg, w'))
    (hstep : st.send k s subtask msg (.write w') = some st') : Inv st' := by
  refine h.send hs (by simp [Stage.Done, hphase]) (.inr ⟨w', rfl⟩) ?_ hstep
  obtain ⟨data, bytes, hdata, ⟨hne, hflat⟩, hbytes⟩ := (h.ok k s hs).sent
  obtain ⟨chunk, len, w'', hnext', hlen, -, hcut⟩ := PipeWrite.nextMessage_spec hlt
  rw [hnext] at hnext'
  cases hnext'
  have hpos : chunk.toList.take len.toNat ≠ [] := by
    have : 0 < len.toNat := Nat.pos_of_ne_zero fun h0 => hlen (UInt8.toNat_inj.1 h0)
    intro hnil
    have hlength := congrArg List.length hnil
    simp at hlength
    omega
  simp only [Stage.Ended, Stage.Done, Stage.unsent, hphase] at hdata hbytes
  refine ⟨data ++ [.kPipe chunk len], bytes ++ chunk.toList.take len.toNat, ?_, ⟨?_, ?_⟩, ?_⟩
  · simp [Stage.Ended, Stage.Done, hdata]
  · intro m hm
    rcases List.mem_append.1 hm with hm | hm
    · exact hne m hm
    · obtain rfl := List.mem_singleton.1 hm
      exact ⟨_, rfl, hpos⟩
  · rw [chunks_append, List.flatten_append, hflat]
    simp
  · show (bytes ++ chunk.toList.take len.toNat) ++ w'.unsent = s.piped
    rw [List.append_assoc, hcut, hbytes]

theorem endWrite (h : Inv st) (hs : st.stages[k]? = some s) {w : PipeWrite}
    (hphase : s.phase = .write w)
    (hlt : ¬ w.sentBytes < w.buf.length) : Inv (st.setStage k { s with phase := .command }) := by
  refine h.advance hs (by simp [Stage.Done, hphase]) (by simp [Stage.Done]) ⟨rfl, rfl, rfl, rfl,
    rfl⟩ (by simp) ?_
    (by simp)
  have hunsent : w.unsent = [] := List.drop_eq_nil_of_le (Nat.not_lt.1 hlt)
  exact (h.ok k s hs).sent.congr rfl (by simp [Stage.Ended, Stage.Done, hphase])
    (by simp [Stage.unsent, hphase, hunsent]) rfl

theorem exit (h : Inv st) (hs : st.stages[k]? = some s) (hphase : s.phase = .command)
    (exitCode : Int) :
    Inv (st.setStage k { s with phase := .exited, exitCode := exitCode }) := by
  refine h.advance hs (by simp [Stage.Done, hphase]) (by simp [Stage.Done]) ⟨rfl, rfl, rfl, rfl,
    rfl⟩ (by simp) ?_
    (by simp)
  exact (h.ok k s hs).sent.congr rfl (by simp [Stage.Ended, Stage.Done, hphase])
    (by simp [Stage.unsent, hphase]) rfl

theorem finishWrite (h : Inv st) (hs : st.stages[k]? = some s) (hphase : s.phase = .exited)
    {subtask : Nat}
    (hsub : s.subtask = some subtask)
    (hstep : st.send k s subtask finishMessage .waiting = some st') : Inv st' := by
  refine h.send hs (by simp [Stage.Done, hphase]) (.inl rfl) ?_ hstep
  obtain ⟨data, bytes, hdata, hcarries, hbytes⟩ := (h.ok k s hs).sent
  simp only [Stage.Ended, Stage.Done, Stage.unsent, hphase] at hdata hbytes
  refine ⟨data, bytes, ?_, hcarries, ?_⟩
  · simp [Stage.Ended, hdata, hsub]
  · exact hbytes

theorem readTurn (h : Inv st) (hs : st.stages[k]? = some s) (hphase : s.phase = .command)
    (closed : Bool) :
    Inv (st.setStage k { s with closed := closed }) := by
  have hb : ¬ s.Done := by simp [Stage.Done, hphase]
  refine h.advance hs hb hb ⟨rfl, rfl, rfl, rfl, rfl⟩ (by simp [hphase]) ?_ (by simp [hphase])
  exact (h.ok k s hs).sent.congr rfl Iff.rfl rfl rfl

/-- A redirect that cannot be opened ends a task that has no subtask. -/
theorem fail (h : Inv st) (hs : st.stages[k]? = some s) (hphase : s.phase = .redirect)
    (hsub : s.subtask = none) :
    Inv (st.setStage k { s with phase := .returned, failed := true }) := by
  have hok := h.ok k s hs
  obtain ⟨hcode, -, hcol⟩ := hok.busy (by simp [Stage.Done, hphase])
  refine h.change hs { s with phase := .returned, failed := true } rfl rfl h.ids rfl
    (fun j a ha _ => ⟨h.ok j a ha, fun _ => .inl rfl⟩)
    ⟨?_, by simp, by simp [hcode], by simp, fun _ => .inl rfl, by simp, by simp [hcol]⟩
      (fun j p _ hlink => ?_)
    fun c _ hlink => ?_
  · exact hok.sent.congr rfl (by simp [Stage.Ended, hsub]) (by simp [Stage.unsent, hphase]) rfl
  · exact { hlink with exitCode := fun hd => absurd hd (parent_not_done hlink hcode) }
  · have := hlink.subtask
    rw [hsub] at this
    cases this

theorem collect (h : Inv st) (hs : st.stages[k]? = some s) (hphase : s.phase = .waiting)
    {subtask : Nat}
    (hsub : s.subtask = some subtask) {ec : Int} (hft : st.tm.finishTasks subtask = some ec) :
    Inv ({ st with tm :=
      { st.tm with finishTasks := Function.update st.tm.finishTasks subtask none } }.setStage k
      { s with phase := .collected, exitCode := ec, collected := some ec }) := by
  have hok := h.ok k s hs
  obtain ⟨hcode, hfail, hcol⟩ := hok.busy (by simp [Stage.Done, hphase])
  obtain ⟨c, hc, htask, hlink⟩ := h.exists_child hs hsub
  have hec : c.finishCode = some ec := by
    have := hlink.finishTasks
    rw [htask, hft, hcol] at this
    exact this.symm
  refine h.change hs { s with phase := .collected, exitCode := ec, collected := some ec } rfl rfl
    ⟨h.ids.live, fun i hi => ?_⟩ rfl (fun j a ha hj => ⟨h.ok j a ha, fun hj' => ?_⟩)
    ⟨?_, by simp, by simp [hcode], by simp [hcode], by simp [hfail], by simp, by simp [Stage.Done]⟩
    (fun j p hj hlink => ?_) fun b hb hlink' => ?_
  · show Function.update st.tm.finishTasks subtask none i = none
    rw [Function.update_apply]
    split
    · rfl
    · exact h.ids.finished i hi
  · -- the subtask is none of the others
    rcases j with _ | j
    · exact .inr rfl
    · left
      show Function.update st.tm.finishTasks subtask none a.task = _
      rw [Function.update_of_ne]
      rw [← htask]
      exact h.task_ne (by omega) ha hc
  · refine hok.sent.congr rfl ?_ (by simp [Stage.unsent, hphase]) rfl
    simp [Stage.Ended, Stage.Done, hphase]
  · have hne : s.task ≠ subtask := by
      rw [← htask]
      exact h.task_ne (k := k) (by omega) (hj ▸ hs) hc
    refine { hlink with finishTasks := ?_,
                        exitCode := fun hd => absurd hd (parent_not_done hlink hcode) }
    show Function.update st.tm.finishTasks subtask none s.task = _
    rw [Function.update_of_ne hne, hlink.finishTasks]
  · obtain rfl : c = b := Option.some.inj (hc.symm.trans hb)
    refine ⟨hlink.subtask, by simp, hfail, ?_, ?_, fun _ => rfl, fun _ hnf => ?_⟩
    · show Function.update st.tm.finishTasks subtask none c.task = _
      rw [htask, Function.update_self]
      rfl
    · rintro _ ⟨⟩
      exact hec
    · exact (h.ok _ _ hc).finishCode ec hec hnf

theorem leave (h : Inv st) (hs : st.stages[k]? = some s)
    (hret : s.phase = .collected ∨ s.phase = .exited ∧ s.subtask = none) :
    Inv ({ st with lastExitCode := s.exitCode }.setStage k { s with phase := .returned }) := by
  have hok := h.ok k s hs
  have hphase : s.phase ≠ .returned ∧ s.phase ≠ .finished := by
    rcases hret with hret | ⟨hret, -⟩ <;> simp [hret]
  have hcode : s.finishCode = none := by
    by_contra hne
    exact hphase.2 (hok.finished (Option.isSome_iff_ne_none.2 hne))
  have hfail : s.failed = false := by
    by_contra hne
    exact (hok.failed (by simpa using hne)).elim hphase.1 hphase.2
  refine h.change hs { s with phase := .returned } rfl rfl h.ids rfl
    (fun j a ha hj => ⟨?_, fun _ => .inl rfl⟩)
    ⟨?_, by simp, by simp [hcode], by simp [hcode], by
      simp [hfail], fun _ _ => rfl, fun _ => .inr (.inl rfl)⟩
    (fun j p _ hlink => ?_) fun c _ hlink => ?_
  · exact { h.ok j a ha with returned := fun hr => absurd hr (h.not_returned hs hret hj ha) }
  · refine hok.sent.congr rfl ?_ ?_ rfl
    · rcases hret with hret | ⟨hret, hsub⟩
      · simp [Stage.Ended, Stage.Done, hret]
      · simp [Stage.Ended, hsub]
    · rcases hret with hret | ⟨hret, -⟩ <;> simp [Stage.unsent, hret]
  · exact { hlink with exitCode := fun hd => absurd hd (parent_not_done hlink hcode) }
  · have hd : s.Done := by
      refine .inl (hret.resolve_right fun hno => ?_)
      have := hlink.subtask
      rw [hno.2] at this
      cases this
    exact { hlink with started := by simp, done := fun _ => hlink.done hd,
                       exitCode := fun _ => hlink.exitCode hd }

theorem finish (h : Inv st) (hs : st.stages[k + 1]? = some s) (hphase : s.phase = .returned)
    (hcur : st.tm.currentTask = some s.task) {cpu : TaskContext}
    (hfinish : st.tm.finish st.lastExitCode = some (tm, cpu)) :
    Inv ({ st with tm := tm }.setStage (k + 1) { s with phase := .finished,
                                                        finishCode := some st.lastExitCode }) := by
  have hok := h.ok _ s hs
  obtain ⟨c, lv, hc, -, hlatest, hft, -⟩ := TaskManager.finish_effect hfinish
  obtain rfl : s.task = c := Option.some.inj (hcur.symm.trans hc)
  have hids : IdsOk tm := idsOk_finish h.ids hfinish fun c hc => by
    rw [← Option.some.inj (hcur.symm.trans hc)]
    exact h.task_le k s hs
  have hcode : s.finishCode = none := by
    by_contra hne
    have := hok.finished (Option.isSome_iff_ne_none.2 hne)
    rw [hphase] at this
    cases this
  have hother {j : Nat} {a : Stage} (ha : st.stages[j + 1]? = some a) (hj : j ≠ k) :
      tm.finishTasks a.task = st.tm.finishTasks a.task := by
    rw [hft, Function.update_of_ne (h.task_ne hj ha hs)]
  refine h.change hs { s with phase := .finished, finishCode := some st.lastExitCode } rfl
    rfl hids hlatest
    (fun j a ha hj => ⟨h.ok j a ha, fun _ => ?_⟩)
    ⟨?_, by simp, fun _ => rfl, ?_, fun _ => .inr rfl, by simp, fun _ => .inr (.inr rfl)⟩
    (fun j p _ hlink => ?_) fun c hc hlink => ?_
  · rcases j with _ | j
    · exact .inr rfl
    · exact .inl (hother ha (by omega))
  · refine hok.sent.congr rfl ?_ (by simp [Stage.unsent, hphase]) rfl
    simp [Stage.Ended, Stage.Done, hphase]
  · rintro _ ⟨⟩ hnf
    exact hok.returned hphase hnf
  · have hnone := parent_not_done hlink hcode
    have hpcol := parent_collected hlink hcode
    refine ⟨hlink.subtask, hlink.started, hlink.failed,
      ?_, by simp [hpcol], fun hd => absurd hd hnone,
      fun hd => absurd hd hnone⟩
    rw [hpcol, hft]
    exact Function.update_self ..
  · have hd : s.Done := .inr (.inl hphase)
    refine { hlink with
      started := by simp
      finishTasks := ?_
      done := fun _ => hlink.done hd
      exitCode := fun _ => hlink.exitCode hd }
    rw [hother hc (by omega), hlink.finishTasks]

theorem startSubtask (h : Inv st) (hs : st.stages[k]? = some s) (hphase : s.phase = .setup)
    {line : List UInt8} {cr3 stackEnd taskTerminal termDesc : UInt64}
    (hstep : st.startSubtask k s line cr3 stackEnd taskTerminal termDesc = some st') : Inv st' := by
  rw [Execution.startSubtask] at hstep
  obtain ⟨tm, hwakeup, hstep⟩ := Option.bind_eq_some_iff.1 hstep
  cases hstep
  obtain ⟨-, lv, htouch⟩ := TaskManager.touches_wakeup hwakeup
  have hquiet := quiet_of_touches htouch
  have hmod : Quiet st.tm.newTask (st.tm.newTask.modify st.tm.newTask.latestId
    (·.initContext cr3 stackEnd taskTerminal termDesc)) := quiet_of_touches (.modify fun _ => rfl)
  refine h.append hs hphase (hquiet.idsOk (hmod.idsOk (idsOk_newTask h.ids))) hquiet.latestId
    hquiet.finishTasks
    (Stage.ok_new _ _ _ ?_) rfl ⟨rfl, rfl⟩
  by_cases hline : line = []
  · exact .inr (if_pos hline)
  · exact .inl (if_neg hline)

theorem waitFinish (h : Inv st) (hs : st.stages[k]? = some s) (hphase : s.phase = .waiting)
    {subtask : Nat}
    (hsub : s.subtask = some subtask) {cpu cpu' : TaskContext} {r : Option Int}
    (hwait : st.tm.waitFinish s.task subtask cpu = some (r, tm, cpu')) :
    (∀ ec, r = some ec →
      Inv ({ st with tm := tm }.setStage k { s with phase := .collected, exitCode := ec,
                                                    collected := some ec })) ∧
      (r = none → Inv { st with tm := tm }) := by
  rw [TaskManager.waitFinish] at hwait
  split at hwait
  · rename_i ec hft
    cases hwait
    refine ⟨?_, fun hnone => by cases hnone⟩
    rintro _ ⟨⟩
    exact h.collect hs hphase hsub hft
  · obtain ⟨⟨tm', cpu''⟩, hsleep, heq⟩ := Option.map_eq_some_iff.1 hwait
    cases heq
    have hquiet := quiet_sleep hsleep
    exact ⟨fun _ hsome => (by cases hsome), fun _ => h.quiet ⟨hquiet.live, hquiet.latestId,
      hquiet.finishTasks⟩⟩

theorem other (h : Inv st) {op : TaskManager.Op} (hforeign : st.Foreign op)
    (hop : st.tm.step op = some tm) :
    Inv { st with tm := tm } := by
  cases op with
  | newTask =>
    cases hop
    exact h.tm_change (idsOk_newTask h.ids) (Nat.le_succ _) fun _ _ _ => rfl
  | wakeup task level =>
    obtain ⟨-, lv, htouch⟩ := TaskManager.touches_wakeup hop
    exact h.quiet (quiet_of_touches htouch)
  | sleep task cpu =>
    obtain ⟨⟨tm', cpu'⟩, hsleep, rfl⟩ := Option.map_eq_some_iff.1 hop
    exact h.quiet (quiet_sleep hsleep)
  | sendMessage task msg => exact h.quiet (quiet_sendMessageTo hop)
  | switchTask cpu =>
    obtain ⟨⟨tm', cpu'⟩, hswitch, rfl⟩ := Option.map_eq_some_iff.1 hop
    obtain ⟨c, c', -, htouch, -⟩ := TaskManager.touches_switchTask hswitch
    exact h.quiet (quiet_of_touches htouch)
  | finish exitCode =>
    obtain ⟨⟨tm', cpu'⟩, hfinish, rfl⟩ := Option.map_eq_some_iff.1 hop
    obtain ⟨c, lv, hc, -, hlatest, hft, -⟩ := TaskManager.finish_effect hfinish
    obtain ⟨hlive, hne⟩ := hforeign c hc
    have hids : IdsOk tm' := idsOk_finish h.ids hfinish fun b hb => by
      rw [Option.some.inj (hb.symm.trans hc)]
      exact h.ids.live c hlive
    refine h.tm_change hids (Nat.le_of_eq hlatest.symm) fun j a ha => ?_
    rw [hft, Function.update_of_ne (hne a (List.mem_of_getElem? ha)).symm]

theorem act (h : Inv st) (hs : st.stages[k]? = some s) (hcur : st.tm.currentTask = some s.task)
    {a : Action}
    (hopen : ∀ b, a = .redirect b → b = true ∨ s.subtask = none)
    (hact : st.act k s a = some st') : Inv st' := by
  cases a with
  | setup cr3 stackEnd taskTerminal termDesc =>
    simp only [Execution.act] at hact
    split at hact
    · rename_i hphase
      split at hact
      · exact h.startSubtask hs hphase hact
      · cases hact
        exact h.setup hs hphase
    · cases hact
  | redirect opened =>
    simp only [Execution.act] at hact
    split at hact
    · rename_i hphase
      split at hact
      · split at hact
        · cases hact
          exact h.redirect hs hphase true
        · rename_i hopened
          cases hact
          exact h.fail hs hphase ((hopen opened rfl).resolve_left hopened)
      · cases hact
        exact h.redirect hs hphase s.redirected
      · cases hact
        exact h.redirect hs hphase s.redirected
    · cases hact
  | write buf =>
    simp only [Execution.act] at hact
    split at hact
    · rename_i hphase
      split at hact
      · rename_i hpipe
        cases hact
        exact h.write hs hphase hpipe buf
      · rename_i hpipe
        cases hact
        exact h.writeElsewhere hs hphase hpipe buf
    · cases hact
  | writeTurn =>
    simp only [Execution.act] at hact
    split at hact
    · rename_i w subtask hphase hsub
      split at hact
      · rename_i hlt
        obtain ⟨⟨msg, w'⟩, hnext, hact⟩ := Option.bind_eq_some_iff.1 hact
        exact h.writeTurn hs hphase hlt hnext hact
      · rename_i hlt
        cases hact
        exact h.endWrite hs hphase hlt
    · cases hact
  | readTurn cpu =>
    simp only [Execution.act] at hact
    split at hact
    · rename_i hphase hclosed
      obtain ⟨⟨r, tm⟩, hrecv, hact⟩ := Option.bind_eq_some_iff.1 hact
      have hquiet := h.quiet (quiet_receiveMessage hrecv)
      cases r with
      | none =>
        obtain ⟨⟨tm', cpu'⟩, hsleep, rfl⟩ := Option.map_eq_some_iff.1 hact
        exact hquiet.quiet (quiet_sleep hsleep)
      | some msg =>
        cases hact
        exact hquiet.readTurn hs hphase _
    · cases hact
  | exit exitCode =>
    simp only [Execution.act] at hact
    split at hact
    · rename_i hphase
      cases hact
      exact h.exit hs hphase exitCode
    · cases hact
  | finishWrite =>
    simp only [Execution.act] at hact
    split at hact
    · rename_i subtask hphase hsub
      exact h.finishWrite hs hphase hsub hact
    · cases hact
  | waitFinish cpu =>
    simp only [Execution.act] at hact
    split at hact
    · rename_i subtask hphase hsub
      obtain ⟨⟨r, tm, cpu'⟩, hwait, rfl⟩ := Option.map_eq_some_iff.1 hact
      obtain ⟨hsome, hnone⟩ := h.waitFinish hs hphase hsub hwait
      cases r with
      | some ec => exact hsome ec rfl
      | none => exact hnone rfl
    · cases hact
  | «return» =>
    simp only [Execution.act] at hact
    split at hact
    · rename_i hret
      cases hact
      exact h.leave hs hret
    · cases hact
  | finish =>
    simp only [Execution.act] at hact
    split at hact
    · rename_i j hphase
      obtain ⟨⟨tm, cpu⟩, hfinish, rfl⟩ := Option.map_eq_some_iff.1 hact
      exact h.finish hs hphase hcur hfinish
    · cases hact

end Inv

/-- A redirect that cannot be opened ends no task that has started a subtask. -/
def RedirectOk (st : Execution) : Event → Prop
  | .stage k (.redirect opened) => opened = true ∨ ∀ s ∈ st.stages[k]?, s.subtask = none
  | _ => True

instance (st : Execution) : ∀ e, Decidable (st.RedirectOk e)
  | .stage _ (.redirect _) => inferInstanceAs (Decidable (_ ∨ ∀ s ∈ _, _))
  | .stage _ (.setup ..) | .stage _ (.write _) | .stage _ .writeTurn | .stage _
      (.readTurn _) | .stage _ (.exit _)
  | .stage _ .finishWrite | .stage _ (.waitFinish _) | .stage _ .return | .stage _
      .finish | .other _ =>
    inferInstanceAs (Decidable True)

theorem Inv.step (h : Inv st) {e : Event} (hok : st.RedirectOk e)
    (hstep : Step st e st') : Inv st' := by
  obtain ⟨hen, hstep⟩ := hstep
  cases e with
  | stage k a =>
    obtain ⟨s, hs, hact⟩ := Option.bind_eq_some_iff.1 hstep
    refine h.act hs (hen s hs).1 (fun b hb => ?_) hact
    subst hb
    exact hok.imp_right fun hsub => hsub s hs
  | other op =>
    obtain ⟨tm, hop, rfl⟩ := Option.map_eq_some_iff.1 hstep
    exact h.other hen.2 hop

theorem inv_start {lastExitCode : Int} {line : List UInt8} (hids : IdsOk tm)
    (hstart : start tm lastExitCode line = some st) : Inv st := by
  obtain ⟨task, -, rfl⟩ := Option.map_eq_some_iff.1 hstart
  refine ⟨hids, fun k s hs => ?_, fun k s c _ hc => ?_, fun k s hs _ => ?_, fun k s hs => ?_,
    fun i j a b _ _ hb => ?_⟩
  · obtain rfl : _ = s := by simpa using (List.getElem?_eq_some_iff.1 hs).2
    exact Stage.ok_new _ _ _ (.inl rfl)
  · cases hc
  · obtain rfl : _ = s := by simpa using (List.getElem?_eq_some_iff.1 hs).2
    rfl
  · cases hs
  · cases hb

/-! ## What holds when `ExecuteCommand` returns -/

/-- What is owed to the subtask: all bytes for the pipe and then one end of stream, the collection
of its exit code, and, if every redirect was opened, the exit code of the last command in
`last_exit_code`. -/
structure CompletedAt (st : Execution) (k : Nat) (s : Stage) (subtask : Nat) : Prop where
  sent : ∃ data, s.sent = data ++ [finishMessage] ∧ Stage.Carries data s.piped
  collected : ∃ c code, st.stages[k + 1]? = some c ∧ c.task = subtask ∧ c.finishCode = some code ∧
    s.collected = some code
  exitCode : (∀ a ∈ st.stages, a.failed = false) →
    some st.lastExitCode = st.stages.getLast?.map (·.exitCode)

/-- Every task that has returned from `ExecuteCommand`, by whichever path, has done what it owes its
subtask. -/
def Completed (st : Execution) : Prop :=
  ∀ k s subtask, st.stages[k]? = some s → s.phase = .returned → s.subtask = some subtask →
    st.CompletedAt k s subtask

/-- The exit code of the last command goes through the tasks before it unchanged. -/
theorem Inv.exitCode_last (h : Inv st) (hnf : ∀ a ∈ st.stages, a.failed = false) :
    ∀ m k s, st.stages.length = k + m + 1 → st.stages[k]? = some s → s.Done →
      st.stages.getLast?.map (·.exitCode) = some s.exitCode := by
  intro m
  induction m with
  | zero =>
    intro k s hlen hs _
    rw [List.getLast?_eq_getElem?, hlen, Nat.add_zero, Nat.add_sub_cancel, hs, Option.map_some]
  | succ m ih =>
    intro k s hlen hs hd
    obtain ⟨c, hc⟩ : ∃ c, st.stages[k + 1]? = some c := ⟨_, List.getElem?_eq_getElem (by omega)⟩
    have hfin := h.finished_after hs hd 0 c hc
    rw [ih (k + 1) c (by omega) hc (.inr (.inr hfin)),
      (h.link k s c hs hc).exitCode hd (hnf c (List.mem_of_getElem? hc))]

theorem Inv.completed (h : Inv st) : st.Completed := by
  intro k s subtask hs hphase hsub
  have hok := h.ok k s hs
  have hd : s.Done := .inr (.inl hphase)
  obtain ⟨c, hc, htask, hlink⟩ := h.exists_child hs hsub
  refine ⟨?_, ?_, fun hnf => ?_⟩
  · obtain ⟨data, bytes, hdata, hcarries, hbytes⟩ := hok.sent
    have hended : s.Ended := ⟨by rw [hsub]; rfl, .inr hd⟩
    rw [if_pos hended] at hdata
    simp only [Stage.unsent, hphase, List.append_nil] at hbytes
    exact ⟨data, hdata, hbytes ▸ hcarries⟩
  · obtain ⟨code, hcode⟩ := Option.isSome_iff_exists.1 (hlink.done hd)
    exact ⟨c, code, hc, htask, hlink.collected code hcode, hcode⟩
  · have hlt := (List.getElem?_eq_some_iff.1 hs).1
    rw [hok.returned hphase hlink.failed, h.exitCode_last hnf (st.stages.length - k - 1) k s
      (by omega) hs hd]

end Execution

open Execution

/-- In every run in which no redirect fails in a task that has started a subtask, every task that
has returned from `ExecuteCommand` has done what it owes its subtask. -/
theorem pipelines_complete {tm : TaskManager} (hids : IdsOk tm) {lastExitCode : Int}
    {line : List UInt8}
    {st₀ st : Execution} (hstart : start tm lastExitCode line = some st₀) {es : List Event}
    (hrun : Run (Guarded RedirectOk Execution.Step) st₀ es st) : st.Completed :=
  (hrun.inv (fun _ _ _ h hstep => h.step hstep.1 hstep.2) (inv_start hids hstart)).completed

theorem idsOk_terminalCurrent : IdsOk terminalCurrent := by
  have hle : ∀ t ∈ terminalCurrent.tasks, t.id ≤ terminalCurrent.latestId := by decide
  refine ⟨fun i hi => ?_, fun i _ => rfl⟩
  obtain ⟨t, ht⟩ := hi
  rw [← TaskManager.find_id ht]
  exact hle t (TaskManager.find_mem ht)

/-- The line `a|b`. -/
def lineAB : List UInt8 := [0x61, bar, 0x62]

/-- `a` writes a byte, `b` reads its input and returns 7. -/
theorem pipelines_complete_lineAB : ∃ (st : Execution) (s : Stage), st.stages[0]? = some s ∧
    s.phase = .returned ∧
    s.subtask = some 4 ∧ st.lastExitCode = 7 ∧ st.Completed := by
  have hexec : ((start terminalCurrent 0 lineAB).bind fun st₀ =>
      Run.exec (fun st e => RedirectOk st e ∧ Enabled st e) Execution.step st₀
        [.stage 0 (.setup 0 0 0 0), .stage 0 (.redirect true), .stage 0 (.write [104]),
          .stage 0 .writeTurn,
          .stage 0 .writeTurn, .stage 0 (.exit 0), .stage 0 .finishWrite, .stage 0 (.waitFinish {}),
          .stage 1 (.setup 0 0 0 0), .stage 1 (.redirect true), .stage 1 (.readTurn {}),
            .stage 1 (.readTurn {}),
          .stage 1 (.exit 7), .stage 1 .return, .stage 1 .finish, .other (.switchTask {}),
          .stage 0 (.waitFinish {}), .stage 0 .return]).map
        (fun st => (st.stages[0]?.map fun s => (s.phase, s.subtask), st.lastExitCode)) =
      some (some (.returned, some 4), 7) := by decide +kernel
  obtain ⟨st, hst, hfields⟩ := Option.map_eq_some_iff.1 hexec
  obtain ⟨st₀, hstart, hst⟩ := Option.bind_eq_some_iff.1 hst
  simp only [Prod.mk.injEq] at hfields
  obtain ⟨hstage, hcode⟩ := hfields
  obtain ⟨s, hs, hs'⟩ := Option.map_eq_some_iff.1 hstage
  simp only [Prod.mk.injEq] at hs'
  have hrun : Run (Guarded RedirectOk Execution.Step) st₀ _ st :=
    (Run.of_exec hst).mono fun _ _ _ ⟨⟨hok, hen⟩, hstep⟩ => ⟨hok, hen, hstep⟩
  exact ⟨st, s, hs, hs'.1, hs'.2, hcode, pipelines_complete idsOk_terminalCurrent hstart hrun⟩

/-- The line `a>d|b`. -/
def lineADB : List UInt8 := [0x61, gt, 0x64, bar, 0x62]

/-- When `d` cannot be opened, the task of `a` returns and leaves that of `b` waiting for its
input. -/
theorem not_completed :
    ¬ ∀ (tm : TaskManager) (line : List UInt8) (lastExitCode : Int) (st₀ st : Execution)
    (es : List Event), IdsOk tm → start tm lastExitCode line = some st₀ →
    Run Execution.Step st₀ es st →
      st.Completed := by
  intro h
  have hexec : ((start terminalCurrent 0 lineADB).bind fun st₀ =>
      Run.exec Enabled Execution.step st₀ [.stage 0 (.setup 0 0 0 0),
        .stage 0 (.redirect false)]).map
        (fun st => st.stages[0]?.map fun s => (s.phase, s.subtask, s.sent.length)) =
      some (some (.returned, some 4, 0)) := by decide +kernel
  obtain ⟨st, hst, hstage⟩ := Option.map_eq_some_iff.1 hexec
  obtain ⟨st₀, hstart, hst⟩ := Option.bind_eq_some_iff.1 hst
  obtain ⟨s, hs, hs'⟩ := Option.map_eq_some_iff.1 hstage
  simp only [Prod.mk.injEq] at hs'
  obtain ⟨data, hdata, -⟩ :=
    (h terminalCurrent lineADB 0 st₀ st _ idsOk_terminalCurrent hstart (Run.of_exec hst) 0 s 4
    hs hs'.1 hs'.2.1).sent
  have hlen := congrArg List.length hdata
  rw [hs'.2.2, List.length_append] at hlen
  simp at hlen

end Moxia.Terminal
