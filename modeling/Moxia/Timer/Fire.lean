import Moxia.Lib.Run
import Moxia.Timer.Manager

/-!
# When timers fire

A queue with one task timer is seen as the multiset of its other timers, `userTimers`, and the
timeout of the task timer, `TaskTimer`. One `Tick` takes exactly the due ones out of the first, in
the order of their timeouts, and moves the second (`tick_spec`). Along a run, the messages sent are
those of the timers added so far that are due, each sent at the first later tick that reaches its
timeout (`timers_fire_once`).
-/

namespace Moxia

open Lib

namespace TimerManager

variable {Q : TimerQueue} {q : Q.Queue} {T now : Nat} {t : Timer}

/-- The timers other than the task timer. -/
def userTimers (q : Q.Queue) : Multiset Timer := (Q.elems q).filter fun t => ¬ t.IsTask

/-- The queue holds one task timer, and its timeout is `T`. -/
def TaskTimer (q : Q.Queue) (T : Nat) : Prop :=
  (Q.elems q).filter Timer.IsTask = {⟨T, kTaskTimerValue⟩}

/-- The user timers that are due at tick `now`. -/
def dueTimers (q : Q.Queue) (now : Nat) : Multiset Timer := (userTimers q).filter fun t =>
    t.timeout ≤ now

theorem userTimers_push (t : Timer) :
    userTimers (Q.push q t) = if t.IsTask then userTimers q else t ::ₘ userTimers q := by
  rw [userTimers, Q.elems_push, userTimers]
  split
  · exact Multiset.filter_cons_of_neg _ (not_not_intro ‹_›)
  · exact Multiset.filter_cons_of_pos _ ‹_›

theorem TaskTimer.mem (h : TaskTimer q T) : ⟨T, kTaskTimerValue⟩ ∈ Q.elems q := by
  have hmem : (⟨T, kTaskTimerValue⟩ : Timer) ∈ (Q.elems q).filter Timer.IsTask := by
    rw [h]
    exact Multiset.mem_singleton_self _
  exact Multiset.mem_of_mem_filter hmem

theorem TaskTimer.exists_top (h : TaskTimer q T) : ∃ t, Q.top q = some t :=
  Q.exists_top q fun hzero => by
    have := h.mem
    rw [hzero] at this
    exact Multiset.notMem_zero _ this

theorem TaskTimer.eq (h : TaskTimer q T) (ht : t ∈ Q.elems q) (hv : t.IsTask) :
    t = ⟨T, kTaskTimerValue⟩ := by
  have hmem := Multiset.mem_filter.2 ⟨ht, hv⟩
  rw [h] at hmem
  exact Multiset.mem_singleton.1 hmem

theorem pop_user (htop : Q.top q = some t) (hv : ¬ t.IsTask) :
    userTimers q = t ::ₘ userTimers (Q.pop q) ∧ (TaskTimer q T → TaskTimer (Q.pop q) T) := by
  have helems := Q.elems_pop q t htop
  constructor
  · rw [userTimers, helems]
    exact Multiset.filter_cons_of_pos _ hv
  · intro h
    rwa [TaskTimer, helems, Multiset.filter_cons_of_neg _ hv] at h

theorem pop_task (h : TaskTimer q T) (htop : Q.top q = some ⟨T, kTaskTimerValue⟩) (T' : Nat) :
    userTimers (Q.push (Q.pop q) ⟨T', kTaskTimerValue⟩) = userTimers q ∧
      TaskTimer (Q.push (Q.pop q) ⟨T', kTaskTimerValue⟩) T' := by
  have helems := Q.elems_pop q _ htop
  have htask : ∀ T, Timer.IsTask ⟨T, kTaskTimerValue⟩ := fun _ => rfl
  have hnone : (Q.elems (Q.pop q)).filter Timer.IsTask = 0 := by
    rw [TaskTimer, helems, Multiset.filter_cons_of_pos _ (htask T)] at h
    exact (Multiset.cons_inj_right _).1 h
  constructor
  · have hpop : userTimers q = userTimers (Q.pop q) := by
      rw [userTimers, helems]
      exact Multiset.filter_cons_of_neg _ (not_not_intro (htask T))
    rw [userTimers_push, if_pos (htask T'), hpop]
  · rw [TaskTimer, Q.elems_push, Multiset.filter_cons_of_pos _ (htask T'), hnone]
    rfl

/-- The loop of `Tick`: `l` are the timers whose messages are sent. -/
structure Ticked (now T : Nat) (st : TickState Q) (l : List Timer) (st' : TickState Q) : Prop where
  sent : st'.sent = st.sent ++ l
  due : (l : Multiset Timer) = dueTimers st.timers now
  ordered : l.Pairwise fun s t => s.timeout ≤ t.timeout
  rest : userTimers st'.timers = (userTimers st.timers).filter fun t => now < t.timeout
  task : TaskTimer st'.timers (if T ≤ now then now + kTaskTimerPeriod else T)
  result : st'.taskTimerTimeout = (st.taskTimerTimeout || decide (T ≤ now))

theorem tickLoop_spec (hnow : now + kTaskTimerPeriod < 2 ^ 64) : ∀ fuel T (st : TickState Q),
    TaskTimer st.timers T → Multiset.card (dueTimers st.timers now) + (if T ≤ now then 1 else 0) <
      fuel →
    ∃ l st', tickLoop now fuel st = some st' ∧ Ticked now T st l st' := by
  intro fuel
  induction fuel with
  | zero => exact fun T st _ h => absurd h (Nat.not_lt_zero _)
  | succ fuel ih =>
    intro T st htask hfuel
    obtain ⟨t, htop⟩ := htask.exists_top
    have hleast : ∀ u ∈ Q.elems st.timers, t.timeout ≤ u.timeout :=
      fun u hu => Nat.le_of_not_lt (Q.top_greatest _ t htop u hu)
    rw [tickLoop, htop]
    simp only [Option.bind_eq_bind, Option.bind_some]
    by_cases hlt : t.timeout > now
    · -- nothing is due any more
      have hT : ¬ T ≤ now := fun hle => by
        have : t.timeout ≤ T := hleast _ htask.mem
        omega
      have hlate : ∀ u ∈ userTimers st.timers, now < u.timeout := fun u hu => by
        have := hleast u (Multiset.mem_of_mem_filter hu)
        omega
      refine ⟨[], st, if_pos hlt, (List.append_nil _).symm, ?_, .nil,
        ?_, by rwa [if_neg hT], by simp [hT]⟩
      · exact (Multiset.filter_eq_nil.2 fun u hu => Nat.not_le.2 (hlate u hu)).symm
      · exact (Multiset.filter_eq_self.2 hlate).symm
    rw [if_neg hlt]
    by_cases hv : t.IsTask
    · -- the task timer is set anew, and is not due again
      have ht := htask.eq (Q.top_mem htop) hv
      subst ht
      have hT : T ≤ now := Nat.le_of_not_lt hlt
      rw [if_pos (show kTaskTimerValue = kTaskTimerValue from rfl), Nat.mod_eq_of_lt hnow]
      obtain ⟨huser, htask'⟩ := pop_task htask htop (now + kTaskTimerPeriod)
      have hlate : ¬ now + kTaskTimerPeriod ≤ now := by
        rw [kTaskTimerPeriod]
        omega
      obtain ⟨l, st', hrun, h⟩ := ih _ { st with
        timers := Q.push (Q.pop st.timers) ⟨now + kTaskTimerPeriod, kTaskTimerValue⟩,
          taskTimerTimeout := true }
        htask' (by rw [if_pos hT] at hfuel; rw [dueTimers, huser, if_neg hlate, ← dueTimers]; omega)
      refine ⟨l, st', hrun, h.sent, ?_, h.ordered, ?_, ?_, ?_⟩
      · rw [h.due, dueTimers, huser, dueTimers]
      · rw [h.rest, huser]
      · rw [if_pos hT]
        simpa only [if_neg hlate] using h.task
      · rw [h.result]
        simp [hT]
    · -- a message is sent
      rw [if_neg (show ¬ t.value = kTaskTimerValue from hv)]
      obtain ⟨huser, htask'⟩ := pop_user (T := T) htop hv
      have hdue : dueTimers st.timers now = t ::ₘ dueTimers (Q.pop st.timers) now := by
        rw [dueTimers, huser]
        exact Multiset.filter_cons_of_pos _ (Nat.le_of_not_lt hlt)
      obtain ⟨l, st', hrun, h⟩ := ih T { st with timers := Q.pop st.timers, sent := st.sent ++ [t] }
        (htask' htask) (by
          rw [hdue, Multiset.card_cons] at hfuel
          show Multiset.card (dueTimers (Q.pop st.timers) now) + _ < fuel
          omega)
      refine ⟨t :: l, st', hrun, ?_, ?_, ?_, ?_, h.task, h.result⟩
      · rw [h.sent, List.append_assoc, List.singleton_append]
      · rw [hdue, ← h.due]
        rfl
      · refine .cons (fun u hu => hleast u ?_) h.ordered
        have hmem : u ∈ dueTimers (Q.pop st.timers) now := by
          rw [← h.due]
          exact hu
        rw [Q.elems_pop _ t htop]
        exact Multiset.mem_cons_of_mem
          (Multiset.mem_of_mem_filter (Multiset.mem_of_mem_filter hmem))
      · rw [h.rest, huser]
        exact (Multiset.filter_cons_of_neg (p := fun t : Timer => now < t.timeout) _ hlt).symm

/-- One `Tick`: the messages of the due timers, in order; `true` exactly if the task timer is due,
which is then set anew. -/
theorem tick_spec {tm : TimerManager Q} (hfar : tm.currentTick + 1 + kTaskTimerPeriod < 2 ^ 64)
    (htask : TaskTimer tm.timers T) :
    ∃ (l : List Timer) (tm' : TimerManager Q), tm.tick = some (decide (T ≤ tm.currentTick + 1),
      l.map Timer.message, tm') ∧
      tm'.currentTick = tm.currentTick + 1 ∧ (l : Multiset Timer) =
        dueTimers tm.timers (tm.currentTick + 1) ∧
      l.Pairwise (fun (s t : Timer) => s.timeout ≤ t.timeout) ∧
      userTimers tm'.timers =
        (userTimers tm.timers).filter (fun (t : Timer) => tm.currentTick + 1 < t.timeout) ∧
      TaskTimer tm'.timers
        (if T ≤ tm.currentTick + 1 then tm.currentTick + 1 + kTaskTimerPeriod else T) := by
  have hnow : (tm.currentTick + 1) % 2 ^ 64 = tm.currentTick + 1 := Nat.mod_eq_of_lt (by omega)
  have hcard : Multiset.card (Q.elems tm.timers) = 1 + Multiset.card (userTimers tm.timers) := by
    rw [← Multiset.filter_add_not Timer.IsTask (Q.elems tm.timers), Multiset.card_add,
      htask, userTimers]
    rfl
  have hle : Multiset.card (dueTimers tm.timers (tm.currentTick + 1)) ≤
    Multiset.card (userTimers tm.timers) :=
    Multiset.card_le_card (Multiset.filter_le _ _)
  obtain ⟨l, st', hrun, h⟩ := tickLoop_spec hfar (Multiset.card (Q.elems tm.timers) + 1) T
    { timers := tm.timers } htask
      (by show Multiset.card (dueTimers tm.timers _) + _ < _; split <;> omega)
  refine ⟨l, { currentTick := tm.currentTick + 1, timers := st'.timers }, ?_, rfl, h.due, h.ordered,
    h.rest, h.task⟩
  have hsent : st'.sent = l := h.sent
  have hresult : st'.taskTimerTimeout = decide (T ≤ tm.currentTick + 1) := h.result
  rw [tick, hnow, hrun]
  show some (st'.taskTimerTimeout, st'.sent.map Timer.message, _) = _
  rw [hsent, hresult]

/-! ### Runs -/

/-- A manager, the timers added so far with the tick at which each was, and the messages sent so far
with the tick at which each was. -/
structure History (Q : TimerQueue) where
  manager : TimerManager Q
  added : Multiset (Nat × Timer)
  sent : List (Nat × Message) := []

/-- The timeout a message announces. -/
def timeoutOf : Message → Nat
  | .kTimerTimeout timeout _ => timeout
  | _ => 0

/-- The timers the queue holds at the start count as added then. -/
def History.start (tm : TimerManager Q) : History Q :=
  { manager := tm, added := (userTimers tm.timers).map fun t => (tm.currentTick, t) }

inductive Event
  | addTimer (timer : Timer)
  | tick

def History.step (st : History Q) : Event → Option (History Q)
  | .addTimer timer => some { st with
      manager := st.manager.addTimer timer, added := (st.manager.currentTick, timer) ::ₘ st.added }
  | .tick => do
    let (_, msgs, tm) ← st.manager.tick
    some { st with manager := tm, sent := st.sent ++ msgs.map fun m => (tm.currentTick, m) }

/-- No second task timer is added, and the ticks stay away from the end of their range. -/
def History.Allowed (st : History Q) : Event → Prop
  | .addTimer timer => ¬ timer.IsTask
  | .tick => st.manager.currentTick + 1 + kTaskTimerPeriod < 2 ^ 64

instance (st : History Q) : ∀ e, Decidable (st.Allowed e)
  | .addTimer timer => inferInstanceAs (Decidable (¬ timer.IsTask))
  | .tick => inferInstanceAs (Decidable (_ < _))

def History.Step : History Q → Event → History Q → Prop :=
  Guarded History.Allowed fun st e st' => st.step e = some st'

/-- The first tick after the one at which the timer was added that reaches its timeout. -/
def fireTick (a : Nat × Timer) : Nat := max a.2.timeout (a.1 + 1)

/-- The timers added so far that are due by tick `now`, each with the tick at which it is due. -/
def fired (added : Multiset (Nat × Timer)) (now : Nat) : Multiset (Nat × Message) :=
  (added.filter fun a => fireTick a ≤ now).map fun a => (fireTick a, a.2.message)

/-- Sent at an earlier tick, or at the same one and for no later timeout. -/
def InOrder (p p' : Nat × Message) : Prop :=
  p.1 < p'.1 ∨ (p.1 = p'.1 ∧ timeoutOf p.2 ≤ timeoutOf p'.2)

/-- The messages sent are those of the timers that are due, and the queue holds the others. -/
structure History.Inv (st : History Q) : Prop where
  task : ∃ T, TaskTimer st.manager.timers T
  added_le : ∀ a ∈ st.added, a.1 ≤ st.manager.currentTick
  sent : (st.sent : Multiset (Nat × Message)) = fired st.added st.manager.currentTick
  pending : userTimers st.manager.timers =
    (st.added.filter fun a => st.manager.currentTick < fireTick a).map Prod.snd
  sent_le : ∀ p ∈ st.sent, p.1 ≤ st.manager.currentTick
  ordered : st.sent.Pairwise InOrder

variable {st st' : History Q} {added : Multiset (Nat × Timer)}

theorem fireTick_le_succ_iff {a : Nat × Timer} (ha : a.1 ≤ now) : fireTick a ≤ now + 1 ↔
    a.2.timeout ≤ now + 1 := by
  rw [fireTick]
  omega

theorem fired_succ (hle : ∀ a ∈ added, a.1 ≤ now) : fired added (now + 1) = fired added now +
    (((added.filter fun a => now < fireTick a).map Prod.snd).filter fun t =>
      t.timeout ≤ now + 1).map
      fun t => (now + 1, t.message) := by
  have hsplit : (added.filter fun a => fireTick a ≤ now + 1) =
      (added.filter fun a => fireTick a ≤ now) +
      (added.filter fun a => now < fireTick a ∧ fireTick a ≤ now + 1) := by
    rw [← Multiset.filter_add_not (fun a => fireTick a ≤ now) (added.filter fun a =>
      fireTick a ≤ now + 1),
      Multiset.filter_filter, Multiset.filter_filter]
    congr 1
    · refine Multiset.filter_congr fun a _ => ?_
      omega
    · refine Multiset.filter_congr fun a _ => ?_
      omega
  rw [fired, hsplit, Multiset.map_add, fired, Multiset.filter_map, Multiset.map_map,
    Multiset.filter_filter]
  congr 1
  have hsame : (added.filter fun a => now < fireTick a ∧ fireTick a ≤ now + 1) =
      added.filter fun a => ((fun t => t.timeout ≤ now + 1) ∘ Prod.snd) a ∧ now < fireTick a := by
    refine Multiset.filter_congr fun a ha => ?_
    rw [Function.comp_apply, fireTick_le_succ_iff (hle a ha), and_comm]
  rw [hsame]
  refine Multiset.map_congr rfl fun a ha => ?_
  obtain ⟨hmem, hdue, hlate⟩ := Multiset.mem_filter.1 ha
  have hfire : fireTick a ≤ now + 1 := (fireTick_le_succ_iff (hle a hmem)).2 hdue
  show (fireTick a, a.2.message) = (now + 1, a.2.message)
  rw [Nat.le_antisymm hfire hlate]

theorem pending_succ (hle : ∀ a ∈ added, a.1 ≤ now) :
    (added.filter fun a => now + 1 < fireTick a).map Prod.snd =
      ((added.filter fun a => now < fireTick a).map Prod.snd).filter fun t =>
        now + 1 < t.timeout := by
  rw [Multiset.filter_map, Multiset.filter_filter]
  congr 1
  refine Multiset.filter_congr fun a ha => ?_
  have := hle a ha
  rw [Function.comp_apply, fireTick]
  omega

theorem History.Inv.start {tm : TimerManager Q} (htask : ∃ T, TaskTimer tm.timers T) :
    (History.start tm).Inv := by
  have hlate : ∀ a ∈ (History.start tm).added, a.1 = tm.currentTick ∧ tm.currentTick <
    fireTick a := by
    intro a ha
    obtain ⟨t, -, rfl⟩ := Multiset.mem_map.1 ha
    refine ⟨rfl, ?_⟩
    rw [fireTick]
    omega
  refine ⟨htask, fun a ha => (hlate a ha).1.le, ?_, ?_, fun p hp => (List.not_mem_nil hp).elim,
    .nil⟩
  · have hnone : ((History.start tm).added.filter fun a => fireTick a ≤ tm.currentTick) = 0 :=
      Multiset.filter_eq_nil.2 fun a ha => Nat.not_le.2 (hlate a ha).2
    show _ = fired (History.start tm).added tm.currentTick
    rw [fired, hnone]
    rfl
  · have hall : ((History.start tm).added.filter fun a => tm.currentTick < fireTick a) =
      (History.start tm).added :=
      Multiset.filter_eq_self.2 fun a ha => (hlate a ha).2
    show _ = ((History.start tm).added.filter fun a => tm.currentTick < fireTick a).map Prod.snd
    rw [hall, History.start, Multiset.map_map]
    exact (Multiset.map_id _).symm

theorem History.Inv.addTimer (h : st.Inv) (ht : ¬ t.IsTask)
    (hs : st.step (.addTimer t) = some st') : st'.Inv := by
  cases hs
  obtain ⟨T, htask⟩ := h.task
  have hlate : st.manager.currentTick < fireTick (st.manager.currentTick, t) := by
    rw [fireTick]
    omega
  refine ⟨⟨T, ?_⟩, ?_, ?_, ?_, h.sent_le, h.ordered⟩
  · show TaskTimer (Q.push st.manager.timers t) T
    rw [TaskTimer, Q.elems_push, Multiset.filter_cons_of_neg _ ht]
    exact htask
  · intro a ha
    rcases Multiset.mem_cons.1 ha with rfl | ha
    · exact Nat.le_refl _
    · exact h.added_le a ha
  · show _ = fired ((st.manager.currentTick, t) ::ₘ st.added) st.manager.currentTick
    rw [fired, Multiset.filter_cons_of_neg (p := fun a => fireTick a ≤ _) _ (Nat.not_le.2 hlate)]
    exact h.sent
  · show userTimers (Q.push st.manager.timers t) = _
    rw [userTimers_push, if_neg ht, h.pending]
    show _ = (((st.manager.currentTick, t) ::ₘ st.added).filter fun a => st.manager.currentTick <
      fireTick a).map _
    rw [Multiset.filter_cons_of_pos (p := fun a => _ < fireTick a) _ hlate, Multiset.map_cons]

theorem History.Inv.tick (h : st.Inv)
    (hfar : st.manager.currentTick + 1 + kTaskTimerPeriod < 2 ^ 64)
    (hs : st.step .tick = some st') : st'.Inv := by
  obtain ⟨T, htask⟩ := h.task
  obtain ⟨l, tm', hrun, htick, hdue, hord, hrest, htask'⟩ := tick_spec hfar htask
  rw [step, hrun] at hs
  cases hs
  have hl : ∀ p ∈ (l.map Timer.message).map (fun m => (tm'.currentTick, m)),
    p.1 = st.manager.currentTick + 1 := by
    intro p hp
    obtain ⟨m, -, rfl⟩ := List.mem_map.1 hp
    exact htick
  refine ⟨⟨_, htask'⟩, fun a ha => ?_, ?_, ?_, fun p hp => ?_, ?_⟩
  · have : a.1 ≤ st.manager.currentTick := h.added_le a ha
    show a.1 ≤ tm'.currentTick
    omega
  · show ((st.sent ++ (l.map Timer.message).map fun m => (tm'.currentTick, m) : List _) :
      Multiset (Nat × Message)) =
      fired st.added tm'.currentTick
    rw [htick, fired_succ h.added_le, ← h.sent, ← h.pending, ← dueTimers, ← hdue,
      ← Multiset.coe_add, List.map_map]
    rfl
  · show userTimers tm'.timers = _
    rw [hrest, h.pending, ← pending_succ h.added_le, ← htick]
  · show p.1 ≤ tm'.currentTick
    rcases List.mem_append.1 hp with hp | hp
    · have := h.sent_le p hp
      omega
    · rw [hl p hp, htick]
  · refine List.pairwise_append.2 ⟨h.ordered, ?_, fun p hp p' hp' => .inl ?_⟩
    · rw [List.pairwise_map, List.pairwise_map]
      exact hord.imp fun h => .inr ⟨rfl, h⟩
    · have := h.sent_le p hp
      rw [hl p' hp']
      omega

theorem History.Inv.run (h : st.Inv) {es : List Event}
    (hrun : Run History.Step st es st') : st'.Inv := by
  refine hrun.inv (I := History.Inv) (fun s e s' hs hstep => ?_) h
  cases e with
  | addTimer t => exact hs.addTimer hstep.1 hstep.2
  | tick => exact hs.tick hstep.1 hstep.2

end TimerManager

open TimerManager

/-- `Tick` terminates; it returns `true` exactly if the task timer, which times out at `T`, is due,
and then sets it anew. -/
def TickOk {Q : TimerQueue} (tm : TimerManager Q) : Prop :=
  ∃ T msgs tm', TaskTimer tm.timers T ∧
    tm.tick = some (decide (T ≤ tm.currentTick + 1), msgs, tm') ∧
    TaskTimer tm'.timers
      (if T ≤ tm.currentTick + 1 then tm.currentTick + 1 + kTaskTimerPeriod else T)

/-- Every timer added fires exactly once, at the first later tick that reaches its timeout, and the
messages of one tick are in the order of their timeouts. -/
theorem timers_fire_once {Q : TimerQueue} {tm : TimerManager Q} (htask : ∃ T, TaskTimer tm.timers T)
    {es : List Event} {st : History Q} (hrun : Run History.Step (History.start tm) es st) :
    (st.sent : Multiset (Nat × Message)) = fired st.added st.manager.currentTick ∧
    st.sent.Pairwise InOrder ∧
      (st.manager.currentTick + 1 + kTaskTimerPeriod < 2 ^ 64 → TickOk st.manager) := by
  have h := (History.Inv.start htask).run hrun
  refine ⟨h.sent, h.ordered, fun hfar => ?_⟩
  obtain ⟨T, hT⟩ := h.task
  obtain ⟨l, tm', hrun, -, -, -, -, htask'⟩ := tick_spec hfar hT
  exact ⟨T, _, tm', hT, hrun, htask'⟩

/-- The task timer, a timer in the past and one at tick 2: three ticks. -/
theorem timers_fire_once_boot :
    let Q : TimerQueue := PriorityQueue.ofKey Timer.timeout
    ∃ st : History Q,
        Run History.Step (History.start (new.addTimer ⟨kTaskTimerPeriod, kTaskTimerValue⟩))
        [.addTimer ⟨2, 7⟩, .tick, .addTimer ⟨1, 8⟩, .tick, .tick] st ∧ st.manager.currentTick = 3 ∧
      (st.sent : Multiset (Nat × Message)) = fired st.added 3 ∧ TickOk st.manager := by
  intro Q
  set tm : TimerManager Q := new.addTimer ⟨kTaskTimerPeriod, kTaskTimerValue⟩ with htm
  have hexec : ((Run.exec History.Allowed History.step (History.start tm)
      [.addTimer ⟨2, 7⟩, .tick, .addTimer ⟨1, 8⟩, .tick, .tick]).any fun st =>
        st.manager.currentTick = 3) = true := by
    decide
  obtain ⟨st, hrun, htick⟩ := Run.exists_of_exec hexec
  have htask : TaskTimer tm.timers kTaskTimerPeriod := by
    show (Q.elems tm.timers).filter Timer.IsTask = _
    decide
  obtain ⟨hsent, -, hok⟩ := timers_fire_once ⟨_, htask⟩ hrun
  exact ⟨st, hrun, htick, by rw [← htick]; exact hsent, hok (by rw [htick]; decide)⟩

end Moxia
