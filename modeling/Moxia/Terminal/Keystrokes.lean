import Moxia.Input.Keyboard
import Moxia.Task.Inbox
import Moxia.Task.Scheduler

/-!
# From the keyboard to the terminal

`KeyboardOnInterrupt` sends keycodes to the main task, whose loop (`KernelMainNewStack`) sends them
on to the terminal. There they are received by `TaskTerminal`, which collects lines and executes
them, and meanwhile by `TerminalFileDescriptor::Read`, for the command. The interrupt, the two tasks
and all others take their turns in any order; at the end each key is in one place, and in its turn
(`keystrokes_delivered`).
-/

namespace Moxia

open Lib TaskManager

def keycodes (msgs : List Message) : List Nat :=
  msgs.filterMap fun
    | .kKeyboardPush keycode => some keycode
    | _ => none

def kKeyCharMask : UInt16 := 0x00ff

/-- The `char` of a keycode. -/
def keyChar (keycode : Nat) : UInt8 := (UInt16.ofNat keycode &&& kKeyCharMask).toUInt8

def newline : UInt8 := 10

def withCtrl (keycode : Nat) : Bool := UInt16.ofNat keycode &&& kKeyCtrlMask ≠ 0

/-- The letter d. -/
def endOfTransmission (keycode : Nat) : Bool := keyChar keycode = 100

/-- Who has received a keycode. -/
inductive Receiver
  | taskTerminal
  | read
deriving DecidableEq

/-- The task manager, the keyboard, the two loops, and what they have done so far. -/
structure Typing where
  tm : TaskManager
  kb : Keyboard := {}
  /-- What the main task has received, and not yet looked at. -/
  msg : Option Message := none
  lineBuf : List UInt8 := []
  /-- `TaskTerminal` has called `ExecuteCommand`. -/
  executing : Bool := false
  /-- The terminal is in `WaitFinish`. -/
  waiting : Bool := false
  received : List (Receiver × Nat) := []
  /-- The calls of `ExecuteCommand`. -/
  lines : List (List UInt8) := []
  /-- What `Read` has returned: a character or, at the end, none. -/
  results : List (Option UInt8) := []

namespace Typing

/-- The boot task, to which `KeyboardOnInterrupt` sends. -/
def mainTask : Nat := 1

inductive Event
  | keyboardInterrupt (scancode : UInt8)
  /-- The main task calls `ReceiveMessage`, and `Sleep` if there is none. -/
  | mainReceive (cpu : TaskContext)
  | mainHandle
  | terminalReceive (cpu : TaskContext)
  /-- The command calls `Read`, which looks at one message. -/
  | terminalRead
  | commandReturns
  /-- A turn of another task's loop. -/
  | otherReceive (task : Nat) (cpu : TaskContext)
  /-- A turn of the loop of `WaitFinish`, which a task calls for a subtask. -/
  | waitFinish (task taskId : Nat) (cpu : TaskContext)
  /-- What else is done with tasks. -/
  | other (op : Op)

/-- What the loop of `TaskTerminal` does with a message. -/
def handle (st : Typing) : Message → Typing
  | .kKeyboardPush keycode =>
    let c := keyChar keycode
    let st := { st with received := st.received ++ [(Receiver.taskTerminal, keycode)] }
    if c = newline then { st with executing := true, lines := st.lines ++ [st.lineBuf] }
    else { st with lineBuf := st.lineBuf ++ [c] }
  | _ => st

/-- What `TerminalFileDescriptor::Read` does with a message. -/
def read (st : Typing) : Message → Typing
  | .kKeyboardPush keycode =>
    let st := { st with received := st.received ++ [(Receiver.read, keycode)] }
    if withCtrl keycode then
      if endOfTransmission keycode then { st with results := st.results ++ [none] } else st
    else { st with results := st.results ++ [some (keyChar keycode)] }
  | _ => st

/-- `ReceiveMessage`; without a message, `Sleep`. -/
def receiveOrSleep (tm : TaskManager) (id : Nat) (cpu : TaskContext) :
    Option (Option Message × TaskManager) :=
  (tm.receiveMessage id).bind fun
    | (some msg, tm) => some (some msg, tm)
    | (none, tm) => (tm.sleep id cpu).map fun r => (none, r.1)

/-- The messages are sent to the main task. -/
def sendAll (tm : TaskManager) : List Message → Option TaskManager
  | [] => some tm
  | msg :: msgs => (tm.sendMessage mainTask msg).bind fun r => sendAll r.2 msgs

variable (terminal : Nat)

def step (st : Typing) : Event → Option Typing
  | .keyboardInterrupt scancode =>
    let sent := st.kb.keyboardOnInterrupt scancode
    (sendAll st.tm sent.2).map fun tm => { st with tm := tm, kb := sent.1 }
  | .mainReceive cpu => (receiveOrSleep st.tm mainTask cpu).map fun (msg, tm) =>
      { st with tm := tm, msg := msg }
  | .mainHandle =>
    match st.msg with
    | some (.kKeyboardPush keycode) =>
      (st.tm.sendMessage terminal (.kKeyboardPush keycode)).map fun r =>
        { st with tm := r.2, msg := none }
    | _ => some { st with msg := none }
  | .terminalReceive cpu => (receiveOrSleep st.tm terminal cpu).map fun
    | (some msg, tm) => { st with tm := tm }.handle msg
    | (none, tm) => { st with tm := tm }
  | .terminalRead => (st.tm.receiveMessage terminal).map fun
    | (some msg, tm) => { st with tm := tm }.read msg
    | (none, tm) => { st with tm := tm }
  | .commandReturns => some { st with executing := false, lineBuf := [] }
  | .otherReceive task cpu => (receiveOrSleep st.tm task cpu).map fun r => { st with tm := r.2 }
  | .waitFinish task taskId cpu => (st.tm.waitFinish task taskId cpu).map fun (exitCode, tm, _) =>
    { st with tm := tm, waiting := if task = terminal then exitCode.isNone else st.waiting }
  | .other op => (st.tm.step op).map fun tm => { st with tm := tm }

def Asleep (tm : TaskManager) (id : Nat) : Prop := ∃ t, tm.find id = some t ∧ t.running = false

/-- The loops are where they can take that turn; the terminal calls `WaitFinish` for a command. The
other tasks neither send keycodes to the two tasks nor receive their messages nor put them to
sleep. -/
def Allowed (st : Typing) : Event → Prop
  | .keyboardInterrupt _ => True
  | .mainReceive _ => st.msg = none
  | .mainHandle => st.msg ≠ none
  | .terminalReceive _ => st.executing = false
  | .terminalRead => st.executing = true ∧ st.waiting = false
  | .commandReturns => st.executing = true ∧ st.waiting = false
  | .otherReceive task _ => task ≠ mainTask ∧ task ≠ terminal
  | .waitFinish task _ _ =>
      task ≠ mainTask ∧ (task = terminal → st.executing = true ∧ ¬ Asleep st.tm terminal)
  | .other (.sleep id _) => id ≠ mainTask ∧ id ≠ terminal
  | .other (.sendMessage id msg) => keycodes [msg] = [] ∨ id ≠ mainTask ∧ id ≠ terminal
  | .other (.finish _) => st.tm.currentTask ≠ some mainTask ∧ st.tm.currentTask ≠ some terminal
  | .other _ => True

def Step : Typing → Event → Typing → Prop := Guarded (Allowed terminal) fun st e st' =>
    st.step terminal e = some st'

/-- The scancodes that have been typed. -/
def scancodes (es : List Event) : List UInt8 :=
  es.filterMap fun
    | .keyboardInterrupt scancode => some scancode
    | _ => none

/-- The keycodes in the queue of a task. -/
def queued (tm : TaskManager) (id : Nat) : List Nat := keycodes ((tm.inbox id).getD [])

/-- The characters that one of the two has received. -/
def receivedBy (st : Typing) (r : Receiver) : List Nat :=
  (st.received.filter fun x => x.1 = r).map (·.2)

/-- What a call of `Read` returns for a keycode, if it returns. -/
def readResult (keycode : Nat) : Option (Option UInt8) :=
  if withCtrl keycode then if endOfTransmission keycode then some none else none else
    some (some (keyChar keycode))

/-- What has become of the keycodes that have been received. -/
structure Text (st : Typing) : Prop where
  /-- The lines that are executed are those that have been typed. -/
  typed : (st.receivedBy .taskTerminal).map keyChar =
    (st.lines.map (· ++ [newline])).flatten ++ if st.executing then [] else st.lineBuf
  noNewline : (∀ line ∈ st.lines, newline ∉ line) ∧ newline ∉ st.lineBuf
  results : st.results = (st.receivedBy .read).filterMap readResult

/-- Where the keycodes are. -/
structure Inv (st : Typing) (sent : List Nat) : Prop where
  text : st.Text
  mainLive : st.tm.Live mainTask
  terminalLive : st.tm.Live terminal
  /-- None is lost, none is there twice, and their order is kept. -/
  order : sent = st.received.map (·.2) ++ queued st.tm terminal ++ keycodes st.msg.toList ++
    queued st.tm mainTask
  mainAsleep : Asleep st.tm mainTask → st.tm.inbox mainTask = some [] ∧ st.msg = none
  terminalAsleep : Asleep st.tm terminal → st.waiting = false → st.tm.inbox terminal = some []

variable {terminal} {tm tm' : TaskManager} {st st' : Typing} {sent : List Nat} {before : List UInt8}
    {i j : Nat} {f : Task → Task} {msg : Message}

/-! ## What a call does to a task -/

theorem Asleep.of_touches (h : Asleep tm' i) (ht : Touches tm tm' j f)
    (hf : ∀ t, (f t).running = false → t.running = false) :
    Asleep tm i := by
  obtain ⟨t, hfind, hr⟩ := h
  rw [ht.find] at hfind
  split at hfind
  · obtain ⟨u, hu, rfl⟩ := Option.map_eq_some_iff.1 hfind
    exact ⟨u, hu, hf u hr⟩
  · exact ⟨t, hfind, hr⟩

theorem Asleep.ne_of_touches (h : Asleep tm' i) (ht : Touches tm tm' j f)
    (hf : ∀ t, (f t).running = true) : i ≠ j := by
  rintro rfl
  obtain ⟨t, hfind, hr⟩ := h
  rw [ht.find, if_pos rfl] at hfind
  obtain ⟨u, -, rfl⟩ := Option.map_eq_some_iff.1 hfind
  rw [hf] at hr
  cases hr

theorem Asleep.of_sleep {cpu cpu' : TaskContext} (h : Asleep tm' i)
    (hs : tm.sleep j cpu = some (tm', cpu')) (hij : i ≠ j) :
    Asleep tm i := by
  obtain ⟨t, -, ⟨-, rfl, -⟩ | ⟨-, ht, -⟩ | ⟨-, ht, -⟩⟩ := touches_sleep hs
  · exact h
  all_goals
    obtain ⟨u, hu, hr⟩ := h
    exact ⟨u, (ht.of_ne hij).symm.trans hu, hr⟩

theorem queued_congr (h : tm'.inbox i = tm.inbox i) :
    queued tm' i = queued tm i := by rw [queued, queued, h]

theorem live_of_inbox (h : tm'.inbox i = tm.inbox i) (hlive : tm.Live i) : tm'.Live i := by
  rw [live_iff_inbox, h]
  exact live_iff_inbox.1 hlive

/-- A call leaves the task as it is, or it wakes it and sends it other messages than keycodes. -/
structure Keeps (tm tm' : TaskManager) (i : Nat) : Prop where
  live : tm'.Live i
  queued : queued tm' i = queued tm i
  asleep : Asleep tm' i → Asleep tm i ∧ tm'.inbox i = tm.inbox i

theorem Keeps.of_inbox (hlive : tm.Live i) (h : tm'.inbox i = tm.inbox i)
    (ha : Asleep tm' i → Asleep tm i) : Keeps tm tm' i :=
  ⟨live_of_inbox h hlive, queued_congr h, fun hi => ⟨ha hi, h⟩⟩

theorem keycodes_append (l l' : List Message) : keycodes (l ++ l') = keycodes l ++ keycodes l' :=
  List.filterMap_append ..

theorem sendMessageTo_sent (hlive : tm.Live i)
    (h : tm.sendMessageTo j msg = some tm') : tm'.Live i ∧
    queued tm' i = queued tm i ++ (if i = j then keycodes [msg] else []) ∧
    (Asleep tm' i → i ≠ j ∧ Asleep tm i ∧ tm'.inbox i = tm.inbox i) := by
  obtain ⟨-, lv, ht⟩ := touches_sendMessageTo h
  have hinbox := inbox_sendMessageTo h
  obtain ⟨msgs, hmsgs⟩ := live_iff_inbox.1 hlive
  refine ⟨ht.live_iff.2 hlive, ?_, fun ha => ?_⟩
  · rw [queued, queued, hinbox]
    by_cases hij : i = j
    · subst hij
      rw [Function.update_self, hmsgs, if_pos rfl, Option.map_some, Option.getD_some,
        Option.getD_some, keycodes_append]
    · rw [Function.update_of_ne hij, if_neg hij, List.append_nil]
  · have hij := ha.ne_of_touches ht fun _ => rfl
    exact ⟨hij, ha.of_touches ht fun t hr => (Bool.noConfusion hr), by
      rw [hinbox, Function.update_of_ne hij]⟩

theorem keeps_step {op : Op} (hlive : tm.Live i) (h : tm.step op = some tm')
    (hsleep : ∀ cpu, op ≠ .sleep i cpu)
    (hsend : ∀ msg, op = .sendMessage i msg → keycodes [msg] = [])
    (hfinish : ∀ code, op = .finish code → tm.currentTask ≠ some i) :
    Keeps tm tm' i := by
  cases op with
  | newTask =>
    cases h
    obtain ⟨msgs, hmsgs⟩ := live_iff_inbox.1 hlive
    refine .of_inbox hlive ((inbox_newTask hmsgs).trans hmsgs.symm) fun ⟨t, ht, hr⟩ => ?_
    obtain ⟨u, hu⟩ := hlive
    refine ⟨t, ?_, hr⟩
    rw [find, newTask, List.find?_append] at ht
    rw [find] at hu
    rw [hu, Option.some_or] at ht
    exact hu.trans ht
  | wakeup task level =>
    obtain ⟨-, lv, ht⟩ := touches_wakeup h
    exact .of_inbox hlive (congrFun (inbox_wakeup h) i) fun ha => ha.of_touches ht fun _ hr =>
      Bool.noConfusion hr
  | sleep task cpu =>
    obtain ⟨⟨tm₁, cpu'⟩, hrun, rfl⟩ := Option.map_eq_some_iff.1 h
    have hne : i ≠ task := by
      rintro rfl
      exact hsleep cpu rfl
    exact .of_inbox hlive (congrFun (inbox_sleep hrun) i) fun ha => ha.of_sleep hrun hne
  | sendMessage task msg =>
    obtain ⟨hlive', hqueued, ha⟩ := sendMessageTo_sent (i := i) hlive h
    refine ⟨hlive', ?_, fun hi => (ha hi).2⟩
    rw [hqueued]
    split
    · rename_i heq
      rw [hsend msg (heq ▸ rfl), List.append_nil]
    · rw [List.append_nil]
  | switchTask cpu =>
    obtain ⟨⟨tm₁, cpu'⟩, hrun, rfl⟩ := Option.map_eq_some_iff.1 h
    obtain ⟨c, c', -, ht, -⟩ := touches_switchTask hrun
    exact .of_inbox hlive (congrFun (inbox_switchTask hrun) i) fun ha =>
      ha.of_touches ht fun _ hr => hr
  | finish code =>
    obtain ⟨⟨tm₁, cpu'⟩, hrun, rfl⟩ := Option.map_eq_some_iff.1 h
    obtain ⟨c, hc, hinbox⟩ := inbox_finish hrun
    have hne : i ≠ c := by
      rintro rfl
      exact hfinish code rfl hc
    refine .of_inbox hlive (by rw [hinbox, Function.update_of_ne hne]) ?_
    rintro ⟨t, ht, hr⟩
    obtain ⟨c', lv, hc', hfind, -⟩ := finish_effect hrun
    cases hc.symm.trans hc'
    rw [hfind, if_neg hne] at ht
    split at ht
    · obtain ⟨u, -, rfl⟩ := Option.map_eq_some_iff.1 ht
      cases hr
    · exact ⟨t, ht, hr⟩

/-- `ReceiveMessage` takes the first message; it leaves the other tasks as they are, and puts none
to sleep. -/
theorem receiveMessage_taken (h : tm.receiveMessage i = some (some msg, tm')) :
    ∃ rest, tm.inbox i = some (msg :: rest) ∧
    tm'.inbox = Function.update tm.inbox i (some rest) ∧ ∀ j, (Asleep tm' j → Asleep tm j) ∧
      (tm.Live j → tm'.Live j) := by
  obtain ⟨t, -, ⟨hnone, -⟩ | ⟨m, hm, -, ht, -⟩⟩ := touches_receiveMessage h
  · cases hnone
  rcases inbox_receiveMessage h with ⟨hnone, -⟩ | ⟨m', rest, hm', hinbox, hupdate, -⟩
  · cases hnone
  cases hm'
  exact ⟨rest, hinbox, hupdate, fun j => ⟨fun ha => ha.of_touches ht fun _ hr => hr, ht.live_iff.2⟩⟩

theorem receiveOrSleep_none {cpu : TaskContext} (h : receiveOrSleep tm i cpu = some (none, tm')) :
    tm.inbox i = some [] ∧ tm'.inbox = tm.inbox ∧ ∀ j, (j ≠ i → Asleep tm' j → Asleep tm j) ∧
      (tm.Live j → tm'.Live j) := by
  obtain ⟨⟨r, tm₁⟩, hr, hrest⟩ := Option.bind_eq_some_iff.1 h
  rcases inbox_receiveMessage hr with ⟨rfl, hinbox, rfl⟩ | ⟨m, rest, rfl, -⟩
  swap
  · cases hrest
  obtain ⟨⟨tm₂, cpu'⟩, hs, heq⟩ := Option.map_eq_some_iff.1 hrest
  cases heq
  have hsame := inbox_sleep hs
  exact ⟨hinbox, hsame, fun j => ⟨fun hj ha => ha.of_sleep hs hj, live_of_inbox (congrFun hsame j)⟩⟩

theorem receiveOrSleep_some {cpu : TaskContext}
    (h : receiveOrSleep tm i cpu = some (some msg, tm')) :
    tm.receiveMessage i = some (some msg, tm') := by
  obtain ⟨⟨r, tm₁⟩, hr, h⟩ := Option.bind_eq_some_iff.1 h
  cases r with
  | none =>
    obtain ⟨_, -, heq⟩ := Option.map_eq_some_iff.1 h
    cases heq
  | some m =>
    cases h
    exact hr

theorem keeps_receiveOrSleep {cpu : TaskContext} {r : Option Message}
    (hlive : tm.Live i) (hij : i ≠ j)
    (h : receiveOrSleep tm j cpu = some (r, tm')) : Keeps tm tm' i := by
  cases r with
  | none =>
    obtain ⟨-, hinbox, hothers⟩ := receiveOrSleep_none h
    exact .of_inbox hlive (congrFun hinbox i) ((hothers i).1 hij)
  | some msg =>
    obtain ⟨rest, -, hinbox, hothers⟩ := receiveMessage_taken (receiveOrSleep_some h)
    exact .of_inbox hlive (by rw [hinbox, Function.update_of_ne hij]) (hothers i).1

/-- `WaitFinish` puts its caller to sleep, unless the subtask has finished. -/
theorem keeps_waitFinish {taskId : Nat} {cpu cpu' : TaskContext} {r : Option Int}
    (hlive : tm.Live i)
    (hor : i ≠ j ∨ r.isNone = false)
    (h : tm.waitFinish j taskId cpu = some (r, tm', cpu')) : Keeps tm tm' i := by
  refine .of_inbox hlive (congrFun (inbox_waitFinish h) i) fun ha => ?_
  rw [waitFinish] at h
  split at h
  · cases h
    exact ha
  · obtain ⟨⟨tm₁, cpu₁⟩, hs, heq⟩ := Option.map_eq_some_iff.1 h
    cases heq
    obtain ⟨u, hu, hr⟩ := ha.of_sleep hs (hor.resolve_right (by decide))
    exact ⟨u, hu, hr⟩

theorem sendMessage_eq {r : Error × TaskManager} (hlive : tm.Live i)
    (h : tm.sendMessage i msg = some r) :
    tm.sendMessageTo i msg = some r.2 := by
  obtain ⟨t, ht⟩ := hlive
  rw [TaskManager.sendMessage, ht] at h
  obtain ⟨_, hs, rfl⟩ := Option.map_eq_some_iff.1 h
  exact hs

/-! ## Text -/

theorem receivedBy_append (l : List (Receiver × Nat)) (x : Receiver × Nat) (r : Receiver) :
    ((l ++ [x]).filter fun x => x.1 = r).map (·.2) = (l.filter fun x => x.1 = r).map (·.2) ++
      if x.1 = r then [x.2] else [] := by
  rw [List.filter_append, List.map_append]
  congr 1
  by_cases hx : x.1 = r
  · rw [if_pos hx, List.filter_cons_of_pos (by simpa using hx)]
    rfl
  · rw [if_neg hx, List.filter_cons_of_neg (by simpa using hx)]
    rfl

theorem handle_frame (st : Typing) (msg : Message) :
    (st.handle msg).tm = st.tm ∧ (st.handle msg).kb = st.kb ∧
    (st.handle msg).msg = st.msg ∧ (st.handle msg).received.map (·.2) = st.received.map (·.2) ++
      keycodes [msg] ∧
    (st.handle msg).waiting = st.waiting := by
  cases msg with
  | kKeyboardPush keycode =>
    rw [handle]
    dsimp only
    split <;> exact ⟨rfl, rfl, rfl, List.map_append, rfl⟩
  | kTimerTimeout | kPipe => exact ⟨rfl, rfl, rfl, (List.append_nil _).symm, rfl⟩

theorem read_frame (st : Typing) (msg : Message) :
    (st.read msg).tm = st.tm ∧ (st.read msg).kb = st.kb ∧
    (st.read msg).msg = st.msg ∧ (st.read msg).received.map (·.2) = st.received.map (·.2) ++
      keycodes [msg] ∧
    (st.read msg).waiting = st.waiting := by
  cases msg with
  | kKeyboardPush keycode =>
    rw [read]
    dsimp only
    split
    · split <;> exact ⟨rfl, rfl, rfl, List.map_append, rfl⟩
    · exact ⟨rfl, rfl, rfl, List.map_append, rfl⟩
  | kTimerTimeout | kPipe => exact ⟨rfl, rfl, rfl, (List.append_nil _).symm, rfl⟩

namespace Text

theorem handle (h : st.Text) (he : st.executing = false) (msg : Message) :
    (st.handle msg).Text := by
  cases msg with
  | kKeyboardPush keycode =>
    have htyped := h.typed
    rw [he, if_neg Bool.false_ne_true] at htyped
    rw [Typing.handle]
    dsimp only
    split
    · rename_i hnl
      refine ⟨?_, ⟨?_, h.noNewline.2⟩, ?_⟩
      · rw [receivedBy, receivedBy_append, if_pos rfl, List.map_append, List.map_singleton, hnl]
        rw [receivedBy] at htyped
        rw [htyped, if_pos rfl, List.append_nil, List.map_append, List.flatten_append,
          List.append_assoc, List.map_singleton,
          List.flatten_singleton]
      · intro line hline
        rcases List.mem_append.1 hline with hline | hline
        · exact h.noNewline.1 line hline
        · exact List.mem_singleton.1 hline ▸ h.noNewline.2
      · rw [receivedBy, receivedBy_append, if_neg nofun, List.append_nil]
        exact h.results
    · rename_i hnl
      refine ⟨?_, ⟨h.noNewline.1, ?_⟩, ?_⟩
      · rw [receivedBy, receivedBy_append, if_pos rfl, List.map_append, List.map_singleton]
        rw [receivedBy] at htyped
        rw [htyped, he, if_neg Bool.false_ne_true, List.append_assoc]
      · rw [List.mem_append, List.mem_singleton, not_or]
        exact ⟨h.noNewline.2, Ne.symm hnl⟩
      · rw [receivedBy, receivedBy_append, if_neg nofun, List.append_nil]
        exact h.results
  | kTimerTimeout | kPipe => exact h

theorem read (h : st.Text) (msg : Message) : (st.read msg).Text := by
  cases msg with
  | kKeyboardPush keycode =>
    have hterminal : ((st.received ++ [(Receiver.read, keycode)]).filter fun x => x.1 =
        .taskTerminal).map (·.2) =
        st.receivedBy .taskTerminal := by
      rw [receivedBy_append, if_neg nofun, List.append_nil]
      rfl
    have hread : (((st.received ++ [(Receiver.read, keycode)]).filter fun x => x.1 = .read).map
        (·.2)).filterMap readResult =
        st.results ++ (readResult keycode).toList := by
      rw [receivedBy_append, if_pos rfl, List.filterMap_append, h.results]
      congr 1
    have hresults : ∀ results, results = st.results ++ (readResult keycode).toList →
        Text { st with received := st.received ++ [(Receiver.read, keycode)],
                       results := results } := fun results heq =>
      ⟨(congrArg _ hterminal).trans h.typed, h.noNewline, heq.trans hread.symm⟩
    rw [Typing.read]
    dsimp only
    split
    · rename_i hctrl
      split
      · rename_i hend
        exact hresults _ (by rw [readResult, if_pos hctrl, if_pos hend]; rfl)
      · rename_i hend
        exact hresults _
          (by rw [readResult, if_pos hctrl, if_neg hend]; exact (List.append_nil _).symm)
    · rename_i hctrl
      exact hresults _ (by rw [readResult, if_neg hctrl]; rfl)
  | kTimerTimeout | kPipe => exact h

end Text

/-! ## Turns -/

namespace Inv

/-- Only the task manager has been called, and the two tasks are what they were. -/
theorem keeps (h : Inv terminal st sent) (hm : Keeps st.tm tm' mainTask)
    (ht : Keeps st.tm tm' terminal) :
    Inv terminal { st with tm := tm' } sent where
  mainLive := hm.live
  terminalLive := ht.live
  order := by
    show sent = _ ++ queued tm' terminal ++ _ ++ queued tm' mainTask
    rw [hm.queued, ht.queued]
    exact h.order
  text := { h.text with }
  mainAsleep ha := by
    obtain ⟨hold, hinbox⟩ := hm.asleep ha
    obtain ⟨hnil, hmsg⟩ := h.mainAsleep hold
    exact ⟨hinbox.trans hnil, hmsg⟩
  terminalAsleep ha he := by
    obtain ⟨hold, hinbox⟩ := ht.asleep ha
    exact hinbox.trans (h.terminalAsleep hold he)

theorem push (h : Inv terminal st sent) (hne : terminal ≠ mainTask) {keycode : Nat}
    (hs : st.tm.sendMessageTo mainTask (.kKeyboardPush keycode) = some tm') :
    Inv terminal { st with tm := tm' } (sent ++ [keycode]) := by
  obtain ⟨hml, hmq, hma⟩ := sendMessageTo_sent h.mainLive hs
  obtain ⟨htl, htq, hta⟩ := sendMessageTo_sent h.terminalLive hs
  refine { mainLive := hml, terminalLive := htl, order := ?_, text := { h.text with },
           mainAsleep := fun ha => absurd rfl (hma ha).1, terminalAsleep := fun ha he => ?_ }
  · show _ = _ ++ queued tm' terminal ++ _ ++ queued tm' mainTask
    rw [hmq, htq, if_pos rfl, if_neg hne, List.append_nil, ← List.append_assoc, ← h.order]
    rfl
  · exact (hta ha).2.2.trans (h.terminalAsleep (hta ha).2.1 he)

theorem keyboardInterrupt (h : Inv terminal st (keycodes (Keyboard.expected before)))
    (hne : terminal ≠ mainTask)
    (hkb : Keyboard.Tracks before st.kb) {scancode : UInt8}
    (hstep : st.step terminal (.keyboardInterrupt scancode) = some st') :
    Inv terminal st' (keycodes (Keyboard.expected (before ++ [scancode]))) := by
  obtain ⟨tm', hsend, rfl⟩ := Option.map_eq_some_iff.1 hstep
  have hinv : Inv terminal { st with tm := tm' }
    (keycodes (Keyboard.expected (before ++ [scancode]))) := by
    rw [hkb.sent] at hsend
    rw [Keyboard.expected_snoc, keycodes_append]
    by_cases hkey : Keyboard.IsPress scancode ∧ ¬ Keyboard.IsModifier scancode
    · rw [if_pos hkey] at hsend ⊢
      obtain ⟨r, hs, hdone⟩ := Option.bind_eq_some_iff.1 hsend
      cases hdone
      exact h.push hne (sendMessage_eq h.mainLive hs)
    · rw [if_neg hkey] at hsend ⊢
      cases hsend
      exact (List.append_nil _).symm ▸ h
  exact { hinv with text := { hinv.text with } }

theorem mainReceive (h : Inv terminal st sent) (hne : terminal ≠ mainTask) {cpu : TaskContext}
    (hmsg : st.msg = none)
    (hstep : st.step terminal (.mainReceive cpu) = some st') : Inv terminal st' sent := by
  obtain ⟨⟨r, tm'⟩, hr, rfl⟩ := Option.map_eq_some_iff.1 hstep
  have horder := h.order
  rw [hmsg] at horder
  cases r with
  | none =>
    obtain ⟨hnil, hinbox, hothers⟩ := receiveOrSleep_none hr
    refine { mainLive := (hothers _).2 h.mainLive, terminalLive := (hothers _).2 h.terminalLive,
             order := ?_, text := { h.text with },
             mainAsleep := fun _ => ⟨(congrFun hinbox _).trans hnil, rfl⟩,
             terminalAsleep := fun ha he => ?_ }
    · show sent = _ ++ queued tm' terminal ++ _ ++ queued tm' mainTask
      rw [queued_congr (congrFun hinbox _), queued_congr (congrFun hinbox _)]
      exact horder
    · exact (congrFun hinbox _).trans (h.terminalAsleep ((hothers _).1 hne ha) he)
  | some msg =>
    obtain ⟨rest, hmsgs, hinbox, hothers⟩ := receiveMessage_taken (receiveOrSleep_some hr)
    refine { mainLive := (hothers _).2 h.mainLive, terminalLive := (hothers _).2 h.terminalLive,
             order := ?_, text := { h.text with },
             mainAsleep := fun ha => ?_, terminalAsleep := fun ha he => ?_ }
    · show sent = _ ++ queued tm' terminal ++ keycodes [msg] ++ queued tm' mainTask
      have hself : queued tm' mainTask = keycodes rest := by
        rw [queued, hinbox, Function.update_self, Option.getD_some]
      have hother : queued tm' terminal = queued st.tm terminal :=
        queued_congr (by rw [hinbox, Function.update_of_ne hne])
      have hold : queued st.tm mainTask = keycodes [msg] ++ keycodes rest := by
        rw [queued, hmsgs]
        exact keycodes_append [msg] rest
      rw [hself, hother, horder, hold]
      simp only [List.append_assoc]
      rfl
    · -- it was awake: there is a message
      have hnil := (h.mainAsleep ((hothers _).1 ha)).1
      rw [hmsgs] at hnil
      cases hnil
    · show tm'.inbox terminal = some []
      rw [hinbox, Function.update_of_ne hne]
      exact h.terminalAsleep ((hothers _).1 ha) he

theorem mainHandle (h : Inv terminal st sent) (hne : terminal ≠ mainTask) (hmsg : st.msg ≠ none)
    (hstep : st.step terminal .mainHandle = some st') : Inv terminal st' sent := by
  have hawake : ¬ Asleep st.tm mainTask := fun ha => hmsg (h.mainAsleep ha).2
  rw [step] at hstep
  split at hstep
  · rename_i keycode hheld
    obtain ⟨r, hs, rfl⟩ := Option.map_eq_some_iff.1 hstep
    have hs := sendMessage_eq h.terminalLive hs
    obtain ⟨hml, hmq, hma⟩ := sendMessageTo_sent h.mainLive hs
    obtain ⟨htl, htq, hta⟩ := sendMessageTo_sent h.terminalLive hs
    refine { mainLive := hml, terminalLive := htl, order := ?_, text := { h.text with },
             mainAsleep := fun ha => absurd (hma ha).2.1 hawake,
             terminalAsleep := fun ha _ => absurd rfl (hta ha).1 }
    show sent = _ ++ queued r.2 terminal ++ keycodes [] ++ queued r.2 mainTask
    have horder := h.order
    rw [hheld] at horder
    rw [hmq, htq, if_pos rfl, if_neg (Ne.symm hne), List.append_nil, horder]
    simp only [Option.toList_some, List.append_assoc]
    rfl
  · rename_i hother
    cases hstep
    refine { h with text := { h.text with }, order := ?_, mainAsleep := fun ha => absurd ha hawake }
    have hnone : keycodes st.msg.toList = [] := by
      obtain ⟨m, hm⟩ := Option.ne_none_iff_exists'.1 hmsg
      rw [hm] at hother ⊢
      cases m with
      | kKeyboardPush keycode => exact absurd rfl (hother keycode)
      | kTimerTimeout | kPipe => rfl
    rw [h.order, hnone]
    rfl

/-- One of the two has taken a message out of the terminal's queue. -/
theorem taken (h : Inv terminal st sent) (hne : terminal ≠ mainTask)
    (hr : st.tm.receiveMessage terminal = some (some msg, tm')) :
    ¬ (Asleep tm' terminal ∧ st.waiting = false) ∧ tm'.Live mainTask ∧ tm'.Live terminal ∧
      (Asleep tm' mainTask → tm'.inbox mainTask = some [] ∧ st.msg = none) ∧
      sent = st.received.map (·.2) ++ keycodes [msg] ++ queued tm' terminal ++
        keycodes st.msg.toList ++ queued tm' mainTask := by
  obtain ⟨rest, hmsgs, hinbox, hothers⟩ := receiveMessage_taken hr
  have hself : queued tm' terminal = keycodes rest := by
    rw [queued, hinbox, Function.update_self, Option.getD_some]
  have hother : tm'.inbox mainTask = st.tm.inbox mainTask := by
    rw [hinbox, Function.update_of_ne (Ne.symm hne)]
  refine ⟨fun ⟨ha, he⟩ => ?_, (hothers _).2 h.mainLive, (hothers _).2 h.terminalLive,
    fun ha => ?_, ?_⟩
  · have hnil := h.terminalAsleep ((hothers _).1 ha) he
    rw [hmsgs] at hnil
    cases hnil
  · obtain ⟨hnil, hmsg⟩ := h.mainAsleep ((hothers _).1 ha)
    exact ⟨hother.trans hnil, hmsg⟩
  · have hold : queued st.tm terminal = keycodes [msg] ++ keycodes rest := by
      rw [queued, hmsgs]
      exact keycodes_append [msg] rest
    rw [hself, queued_congr hother, h.order, hold]
    simp only [List.append_assoc]

theorem terminalReceive (h : Inv terminal st sent) (hne : terminal ≠ mainTask) {cpu : TaskContext}
    (he : st.executing = false)
    (hstep : st.step terminal (.terminalReceive cpu) = some st') : Inv terminal st' sent := by
  obtain ⟨⟨r, tm'⟩, hr, rfl⟩ := Option.map_eq_some_iff.1 hstep
  cases r with
  | none =>
    obtain ⟨hnil, hinbox, hothers⟩ := receiveOrSleep_none hr
    refine { text := { h.text with }, mainLive := (hothers _).2 h.mainLive,
             terminalLive := (hothers _).2 h.terminalLive,
             order := ?_, mainAsleep := fun ha => ?_,
             terminalAsleep := fun _ _ => (congrFun hinbox _).trans hnil }
    · show sent = _ ++ queued tm' terminal ++ _ ++ queued tm' mainTask
      rw [queued_congr (congrFun hinbox _), queued_congr (congrFun hinbox _)]
      exact h.order
    · obtain ⟨hold, hmsg⟩ := h.mainAsleep ((hothers _).1 (Ne.symm hne) ha)
      exact ⟨(congrFun hinbox _).trans hold, hmsg⟩
  | some msg =>
    obtain ⟨hta, hml, htl, hma, horder⟩ := h.taken hne (receiveOrSleep_some hr)
    have htext : Text { st with tm := tm' } := { h.text with }
    obtain ⟨htm, -, hmsg, hreceived, hwaiting⟩ := handle_frame { st with tm := tm' } msg
    refine ⟨htext.handle he msg, htm ▸ hml, htm ▸ htl, ?_, fun ha => ?_, fun ha hw => ?_⟩
    · show sent = (handle { st with tm := tm' } msg).received.map (·.2) ++
        queued (handle { st with tm := tm' } msg).tm terminal ++
        keycodes (handle { st with tm := tm' } msg).msg.toList ++
          queued (handle { st with tm := tm' } msg).tm mainTask
      rw [htm, hmsg, hreceived]
      exact horder
    · rw [htm] at ha ⊢
      rw [hmsg]
      exact hma ha
    · rw [htm] at ha
      exact absurd ⟨ha, hwaiting.symm.trans hw⟩ hta

theorem terminalRead (h : Inv terminal st sent) (hne : terminal ≠ mainTask)
    (hstep : st.step terminal .terminalRead = some st') : Inv terminal st' sent := by
  obtain ⟨⟨r, tm'⟩, hr, rfl⟩ := Option.map_eq_some_iff.1 hstep
  cases r with
  | none =>
    rcases inbox_receiveMessage hr with ⟨-, -, rfl⟩ | ⟨_, _, hsome, -⟩
    · exact h
    · cases hsome
  | some msg =>
    obtain ⟨hta, hml, htl, hma, horder⟩ := h.taken hne hr
    have htext : Text { st with tm := tm' } := { h.text with }
    obtain ⟨htm, -, hmsg, hreceived, hwaiting⟩ := read_frame { st with tm := tm' } msg
    refine ⟨htext.read msg, htm ▸ hml, htm ▸ htl, ?_, fun ha => ?_, fun ha hw => ?_⟩
    · show sent = (Typing.read { st with tm := tm' } msg).received.map (·.2) ++
        queued (Typing.read { st with tm := tm' } msg).tm terminal ++
        keycodes (Typing.read { st with tm := tm' } msg).msg.toList ++
          queued (Typing.read { st with tm := tm' } msg).tm mainTask
      rw [htm, hmsg, hreceived]
      exact horder
    · rw [htm] at ha ⊢
      rw [hmsg]
      exact hma ha
    · rw [htm] at ha
      exact absurd ⟨ha, hwaiting.symm.trans hw⟩ hta

theorem commandReturns (h : Inv terminal st sent) (he : st.executing = true) :
    Inv terminal { st with executing := false, lineBuf := [] } sent := by
  have htyped := h.text.typed
  rw [he, if_pos rfl] at htyped
  exact { h with text := ⟨htyped, ⟨h.text.noNewline.1, List.not_mem_nil⟩, h.text.results⟩ }

theorem otherReceive (h : Inv terminal st sent) {task : Nat} {cpu : TaskContext}
    (hok : task ≠ mainTask ∧ task ≠ terminal)
    (hstep : st.step terminal (.otherReceive task cpu) = some st') : Inv terminal st' sent := by
  obtain ⟨⟨r, tm'⟩, hr, rfl⟩ := Option.map_eq_some_iff.1 hstep
  exact h.keeps (keeps_receiveOrSleep h.mainLive hok.1.symm hr)
    (keeps_receiveOrSleep h.terminalLive hok.2.symm hr)

/-- If it is the terminal that waits, it may sleep with keys in its queue until the subtask has
finished. -/
theorem waitFinish (h : Inv terminal st sent) {task taskId : Nat} {cpu : TaskContext}
    (hok : st.Allowed terminal (.waitFinish task taskId cpu))
    (hstep : st.step terminal (.waitFinish task taskId cpu) = some st') :
    Inv terminal st' sent := by
  obtain ⟨⟨r, tm', cpu'⟩, hw, rfl⟩ := Option.map_eq_some_iff.1 hstep
  obtain ⟨hmain, hterminal⟩ := hok
  have hkm := keeps_waitFinish h.mainLive (.inl hmain.symm) hw
  by_cases htask : task = terminal
  · subst htask
    have hinbox := congrFun (inbox_waitFinish hw) task
    have hinv : Inv task { st with tm := tm', waiting := r.isNone } sent := by
      refine { text := { h.text with }, mainLive := hkm.live,
               terminalLive := live_of_inbox hinbox h.terminalLive,
               order := ?_, mainAsleep := fun ha => ?_, terminalAsleep := fun ha hr => ?_ }
      · show sent = _ ++ queued tm' task ++ _ ++ queued tm' mainTask
        rw [hkm.queued, queued_congr hinbox]
        exact h.order
      · obtain ⟨hold, hsame⟩ := hkm.asleep ha
        obtain ⟨hnil, hmsg⟩ := h.mainAsleep hold
        exact ⟨hsame.trans hnil, hmsg⟩
      · exact absurd ((keeps_waitFinish h.terminalLive (.inr hr) hw).asleep ha).1 (hterminal rfl).2
    dsimp only
    rwa [if_pos rfl]
  · have hinv := h.keeps hkm (keeps_waitFinish h.terminalLive (.inl (Ne.symm htask)) hw)
    dsimp only
    rwa [if_neg htask]

theorem other (h : Inv terminal st sent) {op : Op} (hok : st.Allowed terminal (.other op))
    (hop : st.tm.step op = some tm') :
    Inv terminal { st with tm := tm' } sent := by
  have hmain : Keeps st.tm tm' mainTask := by
    refine keeps_step h.mainLive hop ?_ ?_ ?_
    · rintro cpu rfl
      exact hok.1 rfl
    · rintro msg rfl
      exact hok.resolve_right fun hne => hne.1 rfl
    · rintro code rfl
      exact hok.1
  have hterminal : Keeps st.tm tm' terminal := by
    refine keeps_step h.terminalLive hop ?_ ?_ ?_
    · rintro cpu rfl
      exact hok.2 rfl
    · rintro msg rfl
      exact hok.resolve_right fun hne => hne.2 rfl
    · rintro code rfl
      exact hok.2
  exact h.keeps hmain hterminal

end Inv

theorem Inv.turn {e : Event} (h : Inv terminal st sent) (hne : terminal ≠ mainTask)
    (he : scancodes [e] = [])
    (hstep : Step terminal st e st') : Inv terminal st' sent ∧ st'.kb = st.kb := by
  obtain ⟨hok, hstep⟩ := hstep
  cases e with
  | keyboardInterrupt scancode => cases he
  | mainReceive cpu =>
    refine ⟨h.mainReceive hne hok hstep, ?_⟩
    obtain ⟨_, -, rfl⟩ := Option.map_eq_some_iff.1 hstep
    rfl
  | mainHandle =>
    refine ⟨h.mainHandle hne hok hstep, ?_⟩
    rw [Typing.step] at hstep
    split at hstep
    · obtain ⟨_, -, rfl⟩ := Option.map_eq_some_iff.1 hstep
      rfl
    · cases hstep
      rfl
  | terminalReceive cpu =>
    refine ⟨h.terminalReceive hne hok hstep, ?_⟩
    obtain ⟨⟨_ | msg, _⟩, -, rfl⟩ := Option.map_eq_some_iff.1 hstep
    · rfl
    · exact (handle_frame _ msg).2.1
  | terminalRead =>
    refine ⟨h.terminalRead hne hstep, ?_⟩
    obtain ⟨⟨_ | msg, _⟩, -, rfl⟩ := Option.map_eq_some_iff.1 hstep
    · rfl
    · exact (read_frame _ msg).2.1
  | commandReturns =>
    cases hstep
    exact ⟨h.commandReturns hok.1, rfl⟩
  | otherReceive task cpu =>
    refine ⟨h.otherReceive hok hstep, ?_⟩
    obtain ⟨_, -, rfl⟩ := Option.map_eq_some_iff.1 hstep
    rfl
  | waitFinish task taskId cpu =>
    refine ⟨h.waitFinish hok hstep, ?_⟩
    obtain ⟨_, -, rfl⟩ := Option.map_eq_some_iff.1 hstep
    rfl
  | other op =>
    obtain ⟨tm', hop, rfl⟩ := Option.map_eq_some_iff.1 hstep
    exact ⟨h.other hok hop, rfl⟩

theorem Inv.step {e : Event} (h : Inv terminal st (keycodes (Keyboard.expected before)))
    (hne : terminal ≠ mainTask)
    (hkb : Keyboard.Tracks before st.kb) (hstep : Step terminal st e st') :
    Inv terminal st' (keycodes (Keyboard.expected (before ++ scancodes [e]))) ∧
      Keyboard.Tracks (before ++ scancodes [e]) st'.kb := by
  cases e with
  | keyboardInterrupt scancode =>
    obtain ⟨-, hstep⟩ := hstep
    have hkb' : st'.kb = (st.kb.keyboardOnInterrupt scancode).1 := by
      obtain ⟨tm', -, rfl⟩ := Option.map_eq_some_iff.1 hstep
      rfl
    refine ⟨h.keyboardInterrupt hne hkb hstep, ?_⟩
    rw [hkb']
    by_cases hpress : Keyboard.IsPress scancode
    · exact hkb.press hpress
    · exact hkb.release hpress
  | mainReceive | mainHandle | terminalReceive | terminalRead | commandReturns | otherReceive
  | waitFinish | other =>
    obtain ⟨hinv, hkb'⟩ := h.turn hne rfl hstep
    rw [hkb', scancodes, List.filterMap_cons_none rfl, List.filterMap_nil, List.append_nil]
    exact ⟨hinv, hkb⟩

theorem Inv.run {es : List Event} (h : Inv terminal st (keycodes (Keyboard.expected before)))
    (hne : terminal ≠ mainTask)
    (hkb : Keyboard.Tracks before st.kb) (hrun : Run (Step terminal) st es st') :
    Inv terminal st' (keycodes (Keyboard.expected (before ++ scancodes es))) := by
  induction hrun generalizing before with
  | nil => rwa [scancodes, List.filterMap_nil, List.append_nil]
  | @cons st st₁ st' e es hstep _ ih =>
    obtain ⟨hinv, hkb'⟩ := h.step hne hkb hstep
    have hcons : scancodes (e :: es) = scancodes [e] ++ scancodes es :=
      List.filterMap_append (l := [e])
    rw [hcons, ← List.append_assoc]
    exact ih hinv hkb'

theorem queued_of_empty (h : tm.inbox i = some []) : queued tm i = [] := by
  rw [queued, h]
  rfl

theorem live_of_empty (h : tm.inbox i = some []) : tm.Live i := live_iff_inbox.2 ⟨[], h⟩

theorem Inv.init (hmain : tm.inbox mainTask = some []) (hterminal : tm.inbox terminal = some []) :
    Inv terminal { tm := tm } (keycodes (Keyboard.expected [])) where
  text := ⟨rfl, ⟨fun _ h => absurd h List.not_mem_nil, List.not_mem_nil⟩, rfl⟩
  mainLive := live_of_empty hmain
  terminalLive := live_of_empty hterminal
  order := by
    show _ = [] ++ queued tm terminal ++ [] ++ queued tm mainTask
    rw [queued_of_empty hmain, queued_of_empty hterminal]
    rfl
  mainAsleep _ := ⟨hmain, rfl⟩
  terminalAsleep _ _ := hterminal

end Typing

open Typing

/-- In whatever order the interrupt, the two loops, the command and the other tasks take their
turns: the keys that have been pressed are those that have been received, followed by those in the
terminal's queue, in the hands of the main task, and in its queue. The lines that are executed, and
what the commands read, are what has been typed. When the main task is asleep, all keys are at the
terminal, and when the terminal is asleep too and not in `WaitFinish`, it has received them. -/
theorem keystrokes_delivered {terminal : Nat} {tm : TaskManager} {es : List Event} {st : Typing}
    (hne : terminal ≠ mainTask)
    (hmain : tm.inbox mainTask = some []) (hterminal : tm.inbox terminal = some [])
    (hrun : Run (Step terminal) { tm := tm } es st) :
    st.Inv terminal (keycodes (Keyboard.expected (scancodes es))) ∧
      (Asleep st.tm mainTask →
        keycodes (Keyboard.expected (scancodes es)) = st.received.map (·.2) ++
          queued st.tm terminal) ∧
      (Asleep st.tm mainTask → Asleep st.tm terminal → st.waiting = false →
        keycodes (Keyboard.expected (scancodes es)) = st.received.map (·.2)) := by
  have hinv := (Inv.init hmain hterminal).run hne ⟨rfl, rfl, rfl⟩ hrun
  rw [List.nil_append] at hinv
  have hterm : Asleep st.tm mainTask →
      keycodes (Keyboard.expected (scancodes es)) = st.received.map (·.2) ++
        queued st.tm terminal := fun hma => by
    obtain ⟨hnil, hmsg⟩ := hinv.mainAsleep hma
    have horder := hinv.order
    rw [queued_of_empty hnil, hmsg, List.append_nil] at horder
    exact horder.trans (List.append_nil _)
  refine ⟨hinv, hterm, fun hma hta hw => ?_⟩
  rw [hterm hma, queued_of_empty (hinv.terminalAsleep hta hw), List.append_nil]

/-- The letter a and Enter are typed, and the line is executed. -/
theorem keystrokes_delivered_line :
    ∃ tm st, (TaskManager.new 0 0 0).newTask.wakeup 3 (-1) = some tm ∧
    Run (Step 3) { tm := tm } [.keyboardInterrupt 0x1e, .mainReceive {}, .keyboardInterrupt 0x9e,
      .keyboardInterrupt 0x1c, .mainHandle,
      .terminalReceive {}, .mainReceive {}, .mainHandle, .terminalReceive {}] st ∧
        st.lines = [[97]] ∧
    st.Inv 3 (keycodes (Keyboard.expected [0x1e, 0x9e, 0x1c])) := by
  have hrun : ∃ tm st, (TaskManager.new 0 0 0).newTask.wakeup 3 (-1) = some tm ∧ tm.inbox mainTask =
      some [] ∧ tm.inbox 3 = some [] ∧
      Run (Step 3) { tm := tm } [.keyboardInterrupt 0x1e, .mainReceive {}, .keyboardInterrupt 0x9e,
        .keyboardInterrupt 0x1c,
        .mainHandle, .terminalReceive {}, .mainReceive {}, .mainHandle, .terminalReceive {}] st ∧
          st.lines = [[97]] :=
    ⟨_, _, rfl, rfl, rfl,
      .cons ⟨trivial, rfl⟩
      (.cons ⟨rfl, rfl⟩ (.cons ⟨trivial, rfl⟩ (.cons ⟨trivial, rfl⟩ (.cons ⟨nofun, rfl⟩
      (.cons ⟨rfl, rfl⟩ (.cons ⟨rfl, rfl⟩ (.cons ⟨nofun, rfl⟩ (.cons ⟨rfl, rfl⟩ (.nil _))))))))),
        rfl⟩
  obtain ⟨tm, st, hboot, hmain, hterminal, hrun, hlines⟩ := hrun
  exact ⟨tm, st, hboot, hrun, hlines, (keystrokes_delivered (by decide) hmain hterminal hrun).1⟩

end Moxia
