import Moxia.Lib.PriorityQueue
import Moxia.Task.Manager
import Mathlib.Algebra.Group.Int.Defs

/-!
# Timers (`timer.hpp`, `timer.cpp`)

`TimerManager` over any correct priority queue. `unsigned long` has 64 bits. `tick` returns the
messages passed to `task_manager->SendMessage(1, ..)` beside its result, and is `none` where it
reads the top of an empty queue.
-/

namespace Moxia

open Lib

structure Timer where
  timeout : Nat
  value : Int
deriving DecidableEq

namespace Timer

/-- `operator<`: the later timer is the smaller one. -/
def Less (lhs rhs : Timer) : Prop := lhs.timeout > rhs.timeout

/-- The message that announces the timer. -/
def message (t : Timer) : Message := .kTimerTimeout t.timeout t.value

end Timer

def kTaskTimerPeriod : Nat := 2
def kTaskTimerValue : Int := -2 ^ 31

/-- A timer that re-arms itself. -/
def Timer.IsTask (t : Timer) : Prop := t.value = kTaskTimerValue

instance : DecidablePred Timer.IsTask :=
  fun t => inferInstanceAs (Decidable (t.value = kTaskTimerValue))

abbrev TimerQueue := PriorityQueue Timer Timer.Less

structure TimerManager (Q : TimerQueue) where
  currentTick : Nat := 0
  timers : Q.Queue

namespace TimerManager

variable {Q : TimerQueue}

/-- The constructor: a timer that never times out. -/
def new : TimerManager Q := { timers := Q.push Q.empty ⟨2 ^ 64 - 1, -1⟩ }

def addTimer (tm : TimerManager Q) (timer : Timer) : TimerManager Q :=
  { tm with timers := Q.push tm.timers timer }

/-- The variables of the loop in `Tick`, and the timers whose messages were sent. -/
structure TickState (Q : TimerQueue) where
  timers : Q.Queue
  taskTimerTimeout : Bool := false
  sent : List Timer := []

/-- The loop in `Tick` at tick `now`. -/
def tickLoop (now : Nat) : Nat → TickState Q → Option (TickState Q)
  | 0, _ => none
  | fuel + 1, st => do
    let t ← Q.top st.timers
    if t.timeout > now then some st
    else if t.value = kTaskTimerValue then
      let timers := Q.push (Q.pop st.timers) ⟨(now + kTaskTimerPeriod) % 2 ^ 64, kTaskTimerValue⟩
      tickLoop now fuel { st with timers := timers, taskTimerTimeout := true }
    else tickLoop now fuel { st with timers := Q.pop st.timers, sent := st.sent ++ [t] }

/-- `Tick`. A timer of the queue takes at most one turn of the loop, so that one turn more is
enough. -/
def tick (tm : TimerManager Q) : Option (Bool × List Message × TimerManager Q) := do
  let now := (tm.currentTick + 1) % 2 ^ 64
  let st ← tickLoop now (Multiset.card (Q.elems tm.timers) + 1) { timers := tm.timers }
  some (st.taskTimerTimeout, st.sent.map Timer.message, { currentTick := now, timers := st.timers })

end TimerManager

end Moxia
