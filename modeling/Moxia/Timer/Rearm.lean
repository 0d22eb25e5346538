import Moxia.Timer.Fire
import Mathlib.Algebra.Order.Group.Multiset

/-!
# Timers that are set again

The loop of the main task prints a timer that has timed out, and if its value is positive, adds one
for 100 ticks later. Between the queue of timers, the messages of the main task and the message it
has in hand, no timer is lost or there twice (`timers_conserved`), and a timer goes on with a period
of 100 ticks, however late the main task is.
-/

namespace Moxia

open Lib TimerManager

/-- The timer that the main task adds. -/
def Timer.next (t : Timer) : Timer := ⟨(t.timeout + 100) % 2 ^ 64, t.value⟩

def Message.timer? : Message → Option Timer
  | .kTimerTimeout timeout value => some ⟨timeout, value⟩
  | _ => none

/-- The timers, the main task's messages, the one it has received and not yet looked at, and the
timers it has printed; `external` are those that have been added by others. -/
structure MainLoop (Q : TimerQueue) where
  manager : TimerManager Q
  inbox : List Message := []
  msg : Option Message := none
  printed : List Timer := []
  external : Multiset Timer

namespace MainLoop

variable {Q : TimerQueue}

inductive Event
  | addTimer (timer : Timer)
  | tick
  /-- Somebody else sends a message to the main task. -/
  | send (msg : Message)
  | receive
  | handle

def step (st : MainLoop Q) : Event → Option (MainLoop Q)
  | .addTimer timer =>
      some { st with manager := st.manager.addTimer timer, external := timer ::ₘ st.external }
  | .tick => st.manager.tick.map fun r => { st with manager := r.2.2, inbox := st.inbox ++ r.2.1 }
  | .send msg => some { st with inbox := st.inbox ++ [msg] }
  | .receive => some { st with inbox := st.inbox.tail, msg := st.inbox.head? }
  | .handle =>
    match st.msg with
    | some (.kTimerTimeout timeout value) =>
      let st := { st with printed := st.printed ++ [⟨timeout, value⟩], msg := none }
      some (if value > 0 then
        { st with manager := st.manager.addTimer ⟨(timeout + 100) % 2 ^ 64, value⟩ } else st)
    | _ => some { st with msg := none }

/-- The ticks stay away from the end of their range. -/
def Allowed (st : MainLoop Q) : Event → Prop
  | .addTimer timer => ¬ timer.IsTask
  | .tick => st.manager.currentTick + 101 < 2 ^ 64
  | .send msg => msg.timer? = none
  | .receive => st.msg = none
  | .handle => st.msg ≠ none

instance (st : MainLoop Q) : ∀ e, Decidable (st.Allowed e)
  | .addTimer timer => inferInstanceAs (Decidable (¬ timer.IsTask))
  | .tick => inferInstanceAs (Decidable (_ < _))
  | .send msg => inferInstanceAs (Decidable (msg.timer? = none))
  | .receive => inferInstanceAs (Decidable (st.msg = none))
  | .handle => inferInstanceAs (Decidable (st.msg ≠ none))

def Step : MainLoop Q → Event → MainLoop Q → Prop := Guarded Allowed fun st e st' =>
    st.step e = some st'

/-- The timers of messages. -/
def timersOf (msgs : List Message) : Multiset Timer := msgs.filterMap Message.timer?

/-- Those that have been sent, and not been printed. -/
def sent (st : MainLoop Q) : Multiset Timer := timersOf st.inbox + timersOf st.msg.toList

/-- All timers that have not been printed. -/
def waiting (st : MainLoop Q) : Multiset Timer := userTimers st.manager.timers + st.sent

/-- What the main task adds for those that it prints. -/
def again (s : Multiset Timer) : Multiset Timer := (s.filter fun t => 0 < t.value).map Timer.next

def withValue (v : Int) (s : Multiset Timer) : Multiset Timer := s.filter fun t => t.value = v

/-- The timer with the value `v`, which was added for `T`, has been printed for `T`, `T + 100` and
so on, and is waiting again. -/
def Periodic (waiting : Multiset Timer) (printed : List Timer) (T : Nat) (v : Int) : Prop :=
  ∃ k, withValue v waiting = {⟨T + 100 * k, v⟩} ∧
    (printed.filter fun t => t.value = v) = (List.range k).map fun i => ⟨T + 100 * i, v⟩

structure Inv (st : MainLoop Q) : Prop where
  task : ∃ T, TaskTimer st.manager.timers T
  far : st.manager.currentTick + 100 < 2 ^ 64
  late : ∀ t ∈ st.sent, t.timeout ≤ st.manager.currentTick
  /-- What has been added is waiting or printed. -/
  conserved : st.external + again st.printed =
    st.waiting + (st.printed : Multiset Timer)
  periodic : ∀ T v, 0 < v → withValue v st.external = {⟨T, v⟩} → Periodic st.waiting st.printed T v
  absent : ∀ v, withValue v st.external = 0 → withValue v st.waiting = 0 ∧
    (st.printed.filter fun t => t.value = v) = []

variable {st st' : MainLoop Q} {t : Timer} {T : Nat} {v : Int}

theorem withValue_cons_self (s : Multiset Timer) (h : t.value = v) :
    withValue v (t ::ₘ s) = t ::ₘ withValue v s :=
  Multiset.filter_cons_of_pos _ h

theorem withValue_cons_of_ne (s : Multiset Timer) (h : t.value ≠ v) :
    withValue v (t ::ₘ s) = withValue v s :=
  Multiset.filter_cons_of_neg _ h

theorem again_cons (s : Multiset Timer) : again (t ::ₘ s) = if 0 < t.value then t.next ::ₘ again s
    else again s := by
  split
  · rename_i hpos
    exact (congrArg (Multiset.map Timer.next)
      (Multiset.filter_cons_of_pos (p := fun t : Timer => 0 < t.value) s hpos)).trans
      (Multiset.map_cons ..)
  · rename_i hpos
    exact congrArg (Multiset.map Timer.next)
      (Multiset.filter_cons_of_neg (p := fun t : Timer => 0 < t.value) s hpos)

theorem timersOf_append (l l' : List Message) : timersOf (l ++ l') = timersOf l + timersOf l' := by
  rw [timersOf, List.filterMap_append, timersOf, timersOf, Multiset.coe_add]

theorem timersOf_message (l : List Timer) : timersOf (l.map Timer.message) = l := by
  rw [timersOf, List.filterMap_map]
  congr 1
  exact List.filterMap_some

namespace Inv

theorem move (h : st.Inv) (htask : ∃ T, TaskTimer st'.manager.timers T)
    (hfar : st'.manager.currentTick + 100 < 2 ^ 64)
    (hlate : ∀ t ∈ st'.sent, t.timeout ≤ st'.manager.currentTick)
    (hext : st'.external = st.external)
    (hprinted : st'.printed = st.printed) (hwaiting : st'.waiting = st.waiting) : st'.Inv where
  task := htask
  far := hfar
  late := hlate
  conserved := by
    rw [hext, hprinted, hwaiting]
    exact h.conserved
  periodic := by
    rw [hext, hprinted, hwaiting]
    exact h.periodic
  absent := by
    rw [hext, hprinted, hwaiting]
    exact h.absent

theorem taskTimer_addTimer (h : ∃ T, TaskTimer st.manager.timers T) (ht : ¬ t.IsTask) :
    ∃ T, TaskTimer (st.manager.addTimer t).timers T := by
  obtain ⟨T, h⟩ := h
  exact ⟨T, by rw [TaskTimer, addTimer, Q.elems_push, Multiset.filter_cons_of_neg _ ht, h]⟩

theorem userTimers_addTimer (tm : TimerManager Q) (ht : ¬ t.IsTask) :
    userTimers (tm.addTimer t).timers = t ::ₘ userTimers tm.timers :=
  (userTimers_push t).trans (if_neg ht)

theorem addTimer (h : st.Inv) (ht : ¬ t.IsTask) :
    Inv { st with manager := st.manager.addTimer t, external := t ::ₘ st.external } := by
  have hwaiting : waiting { st with manager := st.manager.addTimer t,
                                    external := t ::ₘ st.external } = t ::ₘ st.waiting := by
    show userTimers (st.manager.addTimer t).timers + st.sent = _
    rw [userTimers_addTimer _ ht, Multiset.cons_add, waiting]
  refine { task := taskTimer_addTimer h.task ht, far := h.far, late := h.late, conserved := ?_,
           periodic := ?_, absent := ?_ }
  · rw [hwaiting, Multiset.cons_add, Multiset.cons_add, h.conserved]
  · intro T v hv (hext : withValue v (t ::ₘ st.external) = _)
    rw [hwaiting]
    by_cases heq : t.value = v
    · rw [withValue_cons_self _ heq] at hext
      -- it is the only one with this value: there was none before
      have hnone : withValue v st.external = 0 := by
        have hcard := congrArg Multiset.card hext
        rw [Multiset.card_cons, Multiset.card_singleton] at hcard
        exact Multiset.card_eq_zero.1 (Nat.succ.inj hcard)
      rw [hnone] at hext
      obtain ⟨hw, hp⟩ := h.absent v hnone
      exact ⟨0, by rw [withValue_cons_self _ heq, hw]; exact hext, hp⟩
    · rw [withValue_cons_of_ne _ heq] at hext
      rw [Periodic, withValue_cons_of_ne _ heq]
      exact h.periodic T v hv hext
  · intro v (hext : withValue v (t ::ₘ st.external) = 0)
    have heq : t.value ≠ v := by
      intro heq
      rw [withValue_cons_self _ heq] at hext
      exact Multiset.cons_ne_zero hext
    rw [withValue_cons_of_ne _ heq] at hext
    rw [hwaiting, withValue_cons_of_ne _ heq]
    exact h.absent v hext

theorem tick (h : st.Inv) (hfar : st.manager.currentTick + 101 < 2 ^ 64)
    (hs : st.step .tick = some st') : st'.Inv := by
  obtain ⟨T, htask⟩ := h.task
  obtain ⟨l, tm', hrun, htick, hdue, -, hrest, htask'⟩ :=
    tick_spec (by rw [kTaskTimerPeriod]; omega) htask
  rw [step, hrun] at hs
  cases hs
  have hsent : sent { st with manager := tm', inbox := st.inbox ++ l.map Timer.message } =
    st.sent + l := by
    show timersOf (st.inbox ++ l.map Timer.message) + timersOf st.msg.toList = _
    rw [timersOf_append, timersOf_message, sent]
    exact add_right_comm _ _ _
  refine h.move ⟨_, htask'⟩ ?_ ?_ rfl rfl ?_
  · show tm'.currentTick + 100 < 2 ^ 64
    omega
  · intro t ht
    rw [hsent] at ht
    show t.timeout ≤ tm'.currentTick
    rcases Multiset.mem_add.1 ht with ht | ht
    · have := h.late t ht
      omega
    · rw [hdue] at ht
      rw [htick]
      exact (Multiset.mem_filter.1 ht).2
  · have hsplit : userTimers st.manager.timers = (l : Multiset Timer) + userTimers tm'.timers := by
      rw [hdue, hrest, dueTimers]
      refine (Multiset.filter_add_not (fun t => t.timeout ≤ st.manager.currentTick + 1)
        _).symm.trans (congrArg _ ?_)
      exact Multiset.filter_congr fun t _ => Nat.not_le
    rw [waiting, hsent, waiting, hsplit]
    show userTimers tm'.timers + (st.sent + l) = _
    rw [add_comm st.sent, ← add_assoc, add_comm (userTimers tm'.timers)]

theorem receive (h : st.Inv) (hmsg : st.msg = none) :
    Inv { st with inbox := st.inbox.tail, msg := st.inbox.head? } := by
  have hsent : sent { st with inbox := st.inbox.tail, msg := st.inbox.head? } = st.sent := by
    rw [sent, sent, hmsg]
    show timersOf st.inbox.tail + timersOf st.inbox.head?.toList = timersOf st.inbox + timersOf []
    cases hinbox : st.inbox with
    | nil => rfl
    | cons m l =>
      show timersOf l + timersOf [m] = timersOf (m :: l) + 0
      rw [add_zero, add_comm]
      exact (timersOf_append [m] l).symm
  refine h.move h.task h.far ?_ rfl rfl ?_
  · rw [hsent]
    exact h.late
  · rw [waiting, hsent, waiting]

/-- A timer is printed. `W` are the other ones that wait. -/
theorem print {W : Multiset Timer} (h : st.Inv) (hwaiting : st.waiting = t ::ₘ W)
    (htask : ∃ T, TaskTimer st'.manager.timers T)
    (htick : st'.manager.currentTick = st.manager.currentTick)
    (hlate : ∀ u ∈ st'.sent, u.timeout ≤ st'.manager.currentTick)
    (hext : st'.external = st.external) (hprinted : st'.printed = st.printed ++ [t])
    (ht : t.timeout ≤ st.manager.currentTick)
    (hwaiting' : st'.waiting = if 0 < t.value then t.next ::ₘ W else W) : st'.Inv := by
  have hcoe : (st'.printed : Multiset Timer) = t ::ₘ (st.printed : Multiset Timer) := by
    rw [hprinted, ← Multiset.coe_add, add_comm]
    rfl
  refine { task := htask, far := htick ▸ h.far, late := hlate, conserved := ?_,
           periodic := fun T v hv hone => ?_,
           absent := fun v hnone => ?_ }
  · have hconserved := h.conserved
    rw [hext, hcoe, hwaiting', Multiset.add_cons]
    rw [hwaiting, Multiset.cons_add] at hconserved
    rw [again_cons]
    by_cases hpos : 0 < t.value
    · rw [if_pos hpos, if_pos hpos, Multiset.add_cons, hconserved, Multiset.cons_add,
        Multiset.cons_swap]
    · rw [if_neg hpos, if_neg hpos, hconserved]
  · obtain ⟨k, hw, hp⟩ := h.periodic T v hv (hext ▸ hone)
    rw [hwaiting] at hw
    rw [Periodic, hwaiting', hprinted, List.filter_append]
    by_cases hvalue : t.value = v
    · -- it is the one that was waiting
      rw [withValue_cons_self _ hvalue] at hw
      have hnone : withValue v W = 0 := by
        have hcard := congrArg Multiset.card hw
        rw [Multiset.card_cons, Multiset.card_singleton] at hcard
        exact Multiset.card_eq_zero.1 (Nat.succ.inj hcard)
      rw [hnone] at hw
      have htimer : t = ⟨T + 100 * k, v⟩ := Multiset.singleton_inj.1 hw
      have hnext : t.next = ⟨T + 100 * (k + 1), v⟩ := by
        have hfar := h.far
        rw [htimer] at ht
        have hle : T + 100 * k ≤ st.manager.currentTick := ht
        rw [htimer, Timer.next, Nat.mod_eq_of_lt (by omega)]
        congr 1
      have hself : ([t].filter fun u => u.value = v) = [t] :=
        List.filter_cons_of_pos (by simpa using hvalue)
      refine ⟨k + 1, ?_, ?_⟩
      · rw [if_pos (hvalue ▸ hv), withValue_cons_self _ (show t.next.value = v from hvalue), hnone,
          hnext]
        rfl
      · rw [hp, hself, htimer, List.range_succ, List.map_append]
        rfl
    · have hself : ([t].filter fun u => u.value = v) = [] :=
        List.filter_cons_of_neg (by simpa using hvalue)
      rw [withValue_cons_of_ne _ hvalue] at hw
      refine ⟨k, ?_, by rw [hself, List.append_nil, hp]⟩
      split
      · rw [withValue_cons_of_ne _ (show t.next.value ≠ v from hvalue), hw]
      · exact hw
  · obtain ⟨hw, hp⟩ := h.absent v (hext ▸ hnone)
    have hvalue : t.value ≠ v := by
      intro heq
      rw [hwaiting, withValue_cons_self _ heq] at hw
      exact Multiset.cons_ne_zero hw
    rw [hwaiting, withValue_cons_of_ne _ hvalue] at hw
    rw [hwaiting', hprinted, List.filter_append, hp,
      List.filter_cons_of_neg (by simpa using hvalue)]
    refine ⟨?_, rfl⟩
    split
    · rw [withValue_cons_of_ne _ (show t.next.value ≠ v from hvalue), hw]
    · exact hw

theorem handle (h : st.Inv) (hmsg : st.msg ≠ none) (hs : st.step .handle = some st') : st'.Inv := by
  rw [step] at hs
  split at hs
  · rename_i timeout value hm
    have hsent : st.sent = timersOf st.inbox + {⟨timeout, value⟩} := by rw [sent, hm]; rfl
    have hmem : (⟨timeout, value⟩ : Timer) ∈ st.sent := by
      rw [hsent]
      exact Multiset.mem_add.2 (.inr (Multiset.mem_singleton_self _))
    have hwaiting : st.waiting =
      ⟨timeout, value⟩ ::ₘ (userTimers st.manager.timers + timersOf st.inbox) := by
      rw [waiting, hsent, ← add_assoc, add_comm, Multiset.singleton_add]
    have hlate : ∀ u ∈ timersOf st.inbox + timersOf [], u.timeout ≤ st.manager.currentTick :=
      fun u hu => h.late u (by
      rw [hsent]
      exact Multiset.mem_add.2
        (.inl ((Multiset.mem_add.1 hu).resolve_right (Multiset.notMem_zero u))))
    have hnone : timersOf st.inbox + timersOf [] = timersOf st.inbox := add_zero _
    dsimp only at hs
    split at hs
    · rename_i hpos
      cases hs
      have htask : ¬ Timer.IsTask ⟨(timeout + 100) % 2 ^ 64, value⟩ := by
        intro heq
        have hvalue : value = kTaskTimerValue := heq
        rw [hvalue] at hpos
        exact absurd hpos (by decide)
      refine h.print hwaiting (taskTimer_addTimer h.task htask) rfl hlate rfl rfl (h.late _ hmem) ?_
      rw [if_pos hpos]
      show userTimers (st.manager.addTimer _).timers + (timersOf st.inbox + timersOf []) = _
      rw [userTimers_addTimer _ htask, hnone, Multiset.cons_add]
      rfl
    · rename_i hpos
      cases hs
      refine h.print hwaiting h.task rfl hlate rfl rfl (h.late _ hmem) ?_
      rw [if_neg hpos]
      show userTimers st.manager.timers + (timersOf st.inbox + timersOf []) = _
      rw [hnone]
  · rename_i hother
    cases hs
    have hsent : sent { st with msg := none } = st.sent := by
      obtain ⟨m, hm⟩ := Option.ne_none_iff_exists'.1 hmsg
      rw [sent, sent, hm]
      cases m with
      | kTimerTimeout timeout value => exact (hother timeout value hm).elim
      | kKeyboardPush | kPipe => rfl
    refine h.move h.task h.far ?_ rfl rfl ?_
    · rw [hsent]
      exact h.late
    · rw [waiting, hsent, waiting]

theorem step {e : Event} (h : st.Inv) (hstep : Step st e st') : st'.Inv := by
  obtain ⟨hok, hs⟩ := hstep
  cases e with
  | addTimer timer =>
    cases hs
    exact h.addTimer hok
  | tick => exact h.tick hok hs
  | send msg =>
    cases hs
    have hsent : sent { st with inbox := st.inbox ++ [msg] } = st.sent := by
      rw [sent, timersOf_append]
      have hnone : timersOf [msg] = 0 := by rw [timersOf, List.filterMap_cons_none hok]; rfl
      rw [hnone, add_zero, sent]
    refine h.move h.task h.far ?_ rfl rfl ?_
    · rw [hsent]
      exact h.late
    · rw [waiting, hsent, waiting]
  | receive =>
    cases hs
    exact h.receive hok
  | handle => exact h.handle hok hs

end Inv

/-- No message has been sent yet. -/
def start (tm : TimerManager Q) : MainLoop Q := { manager := tm, external := userTimers tm.timers }

theorem Inv.start {tm : TimerManager Q} (htask : ∃ T, TaskTimer tm.timers T)
    (hfar : tm.currentTick + 100 < 2 ^ 64) :
    (start tm).Inv where
  task := htask
  far := hfar
  late t ht := absurd ht (Multiset.notMem_zero t)
  conserved := by
    show userTimers tm.timers + 0 = userTimers tm.timers + (0 + 0) + 0
    rw [add_zero, add_zero, add_zero, add_zero]
  periodic T v hv hone := ⟨0, by rw [waiting]; exact (congrArg _ (add_zero _)).trans hone, rfl⟩
  absent v hnone := ⟨by rw [waiting]; exact (congrArg _ (add_zero _)).trans hnone, rfl⟩

end MainLoop

open MainLoop

/-- In every run, the timers that have been added, by others or by the main task, are those that are
waiting and those that have been printed. The only timer with a positive value is printed for `T`,
`T + 100`, `T + 200` and so on, and waits for the next. -/
theorem timers_conserved {Q : TimerQueue} {tm : TimerManager Q} (htask : ∃ T, TaskTimer tm.timers T)
    (hfar : tm.currentTick + 100 < 2 ^ 64) {es : List MainLoop.Event} {st : MainLoop Q}
    (hrun : Run MainLoop.Step (start tm) es st) :
    st.external + again st.printed =
        st.waiting + (st.printed : Multiset Timer) ∧
      ∀ T v, 0 < v → withValue v st.external = {⟨T, v⟩} → Periodic st.waiting st.printed T v := by
  have hinv : st.Inv :=
    hrun.inv (I := MainLoop.Inv) (fun _ _ _ h hstep => h.step hstep) (Inv.start htask hfar)
  exact ⟨hinv.conserved, hinv.periodic⟩

/-- A timer for tick 2 is printed late, and is waiting for tick 102. -/
theorem timers_conserved_boot :
    let Q : TimerQueue := PriorityQueue.ofKey Timer.timeout
    ∃ st : MainLoop Q, Run MainLoop.Step (start (new.addTimer ⟨kTaskTimerPeriod, kTaskTimerValue⟩))
        [.addTimer ⟨2, 7⟩, .tick, .send (.kKeyboardPush 97), .tick, .tick, .receive, .handle,
          .receive, .handle] st ∧
      st.manager.currentTick = 3 ∧ st.printed = [⟨2, 7⟩] ∧ Periodic st.waiting st.printed 2 7 := by
  intro Q
  set tm : TimerManager Q := new.addTimer ⟨kTaskTimerPeriod, kTaskTimerValue⟩ with htm
  have htask : TaskTimer tm.timers kTaskTimerPeriod := by
    show (Q.elems tm.timers).filter Timer.IsTask = _
    decide
  have hexec : ((Run.exec MainLoop.Allowed MainLoop.step (start tm)
      [.addTimer ⟨2, 7⟩, .tick, .send (.kKeyboardPush 97), .tick, .tick, .receive, .handle,
        .receive, .handle]).any fun st =>
        st.manager.currentTick = 3 ∧ st.printed = [⟨2, 7⟩] ∧ withValue 7 st.external = {⟨2, 7⟩}) =
          true := by
    decide
  obtain ⟨st, hrun, htick, hprinted, hone⟩ := Run.exists_of_exec hexec
  exact ⟨st, hrun, htick, hprinted, (timers_conserved ⟨_, htask⟩ (by decide) hrun).2 2 7
    (by decide) hone⟩

end Moxia
