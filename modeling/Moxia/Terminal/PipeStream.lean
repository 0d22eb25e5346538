import Moxia.Lib.Stream
import Moxia.Terminal.Pipeline

/-!
# The pipe carries a stream

`Pipeline.stream` is the stream the two sides see. `Flow` says where the bytes that are written but
not returned are: first those left over in `data_`, then the chunks in the subtask's queue, then
what the current `Write` still has to send; and a zero-length message is in the queue exactly while
the end of the stream is under way. Every event is a step of the stream or leaves it alone.
-/

namespace Moxia

open Lib

namespace Pipeline

variable {st st' : Pipeline}

def unsent (st : Pipeline) : List UInt8 :=
  match st.writer with
  | .write w => w.unsent
  | _ => []

/-- The stream the pipe implements. -/
def stream (st : Pipeline) : Stream UInt8 where
  written := st.written
  reads := st.reads.map (·.2)
  finished := st.isFinished

/-- Where the bytes are while the subtask is live: `cs` are the chunks under way in `msgs`. -/
structure Flow (st : Pipeline) (msgs : List Message) (cs : List (List UInt8)) : Prop where
  inbox : st.tm.inbox st.subtask = some msgs
  sized : ∀ data len, .kPipe data len ∈ msgs → len.toNat ≤ 16
  chunks : chunks msgs = cs ++ if st.isFinished && !st.pipe.closed then [[]] else []
  nonempty : ∀ c ∈ cs, c ≠ []
  bytes : st.stream.returned ++ (st.pipe.leftover ++ (cs.flatten ++ st.unsent)) = st.written
  len_le : st.pipe.len ≤ 16
  closed : st.pipe.closed = true → st.isFinished = true ∧ st.pipe.len = 0 ∧ cs = []
  loop : ∀ len, st.reader = .read len → st.pipe.len = 0 ∧ st.pipe.closed = false ∧ 1 ≤ len
  eof : [] ∈ st.stream.reads → st.pipe.closed = true

structure StreamInv (st : Pipeline) : Prop where
  ok : st.stream.Ok
  fits : ∀ r ∈ st.reads, r.2.length ≤ r.1
  flow : st.reader ≠ .finished → ∃ msgs cs, Flow st msgs cs

theorem unsent_of_isFinished (h : st.isFinished = true) : st.unsent = [] := by
  rw [isFinished] at h
  rw [unsent]
  split <;> simp_all

theorem Flow.closed_of_writing {msgs cs} (h : Flow st msgs cs) (hfin : st.isFinished = false) :
    st.pipe.closed = false := by
  by_contra hc
  have := (h.closed (by simpa using hc)).1
  rw [hfin] at this
  cases this

theorem Flow.sized_snoc {msgs cs} (h : Flow st msgs cs) {data : Vector UInt8 16} {len : UInt8}
    (hle : len.toNat ≤ 16) :
    ∀ d l, .kPipe d l ∈ msgs ++ [.kPipe data len] → l.toNat ≤ 16 := by
  intro d l hmem
  rcases List.mem_append.1 hmem with hmem | hmem
  · exact h.sized d l hmem
  · cases List.mem_singleton.1 hmem
    exact hle

theorem Flow.of_tm {msgs msgs' cs} (h : Flow st msgs cs) {tm : TaskManager}
    (hin : tm.inbox st.subtask = some msgs') (hch : Moxia.chunks msgs' = Moxia.chunks msgs)
    (hsz : ∀ data len, .kPipe data len ∈ msgs' → len.toNat ≤ 16) :
    Flow { st with tm := tm } msgs' cs :=
  { h with inbox := hin, sized := hsz, chunks := hch.trans h.chunks }

/-! ### The writer's side -/

theorem StreamInv.write (h : StreamInv st) {buf : List UInt8}
    (hs : st.step (.write buf) = some st') : StreamInv st' := by
  obtain ⟨hw, rfl⟩ := step_write hs
  have hfin : st.isFinished = false := by rw [isFinished, hw]
  have hun : st.unsent = [] := by rw [unsent, hw]
  refine ⟨?_, h.fits, fun hr => ?_⟩
  · have := h.ok.step (.write buf hfin)
    rw [stream, hfin] at this
    exact this
  · obtain ⟨msgs, cs, hf⟩ := h.flow hr
    have hb := hf.bytes
    rw [hun, List.append_nil] at hb
    have hopen := hf.closed_of_writing hfin
    refine ⟨msgs, cs, { hf with chunks := ?_, bytes := ?_, closed := fun hc => ?_ }⟩
    · have := hf.chunks
      rw [hfin] at this
      exact this
    · show st.stream.returned ++ (st.pipe.leftover ++ (cs.flatten ++ buf.drop 0)) =
        st.written ++ buf
      rw [← hb, List.drop_zero]
      simp only [List.append_assoc]
    · cases hopen.symm.trans hc

theorem StreamInv.writeTurn (h : StreamInv st)
    (hs : st.step .writeTurn = some st') : StreamInv st' := by
  obtain ⟨w, hw, hs⟩ := step_writeTurn hs
  have hfin : st.isFinished = false := by rw [isFinished, hw]
  have hun : st.unsent = w.unsent := by rw [unsent, hw]
  have hok := h.ok
  rw [stream, hfin] at hok
  rcases hs with ⟨hlt, msg, w', tm, hn', htm, rfl⟩ | ⟨hlt, rfl⟩
  · obtain ⟨data, len, w', hn, hpos, hle, hbytes⟩ := PipeWrite.nextMessage_spec hlt
    rw [hn'] at hn
    cases hn
    refine ⟨hok, h.fits, fun hr => ?_⟩
    obtain ⟨msgs, cs, hf⟩ := h.flow hr
    have hin := TaskManager.inbox_sendMessageTo htm
    have hopen := hf.closed_of_writing hfin
    have hch := hf.chunks
    have hb := hf.bytes
    rw [hfin] at hch
    rw [hun] at hb
    refine ⟨msgs ++ [.kPipe data len], cs ++ [data.toList.take len.toNat],
      { hf with inbox := ?_, sized := hf.sized_snoc hle, chunks := ?_, nonempty := ?_, bytes := ?_,
                closed := fun hc => ?_ }⟩
    · rw [hin, Function.update_self, hf.inbox]
      rfl
    · rw [chunks_append, hch]
      simp [isFinished]
    · intro c hc
      rcases List.mem_append.1 hc with hc | hc
      · exact hf.nonempty c hc
      · rw [List.mem_singleton.1 hc]
        have hlen : len.toNat ≠ 0 := fun h0 => hpos (UInt8.toNat_inj.1 h0)
        intro hnil
        have := congrArg List.length hnil
        simp at this
        omega
    · rw [← hbytes] at hb
      show st.stream.returned ++ (st.pipe.leftover ++
        ((cs ++ [data.toList.take len.toNat]).flatten ++ w'.unsent)) = st.written
      rw [← hb]
      simp only [List.flatten_append, List.flatten_cons, List.flatten_nil, List.append_assoc,
        List.append_nil]
    · cases hopen.symm.trans hc
  · refine ⟨hok, h.fits, fun hr => ?_⟩
    obtain ⟨msgs, cs, hf⟩ := h.flow hr
    have hnil : w.unsent = [] := List.drop_eq_nil_of_le (by omega)
    have hch := hf.chunks
    have hb := hf.bytes
    rw [hfin] at hch
    rw [hun, hnil] at hb
    refine ⟨msgs, cs, { hf with chunks := hch, bytes := hb, closed := fun hc => ?_ }⟩
    cases (hf.closed_of_writing hfin).symm.trans hc

theorem StreamInv.finishWrite (h : StreamInv st)
    (hs : st.step .finishWrite = some st') : StreamInv st' := by
  obtain ⟨hw, tm, htm, rfl⟩ := step_finishWrite hs
  have hfin : st.isFinished = false := by rw [isFinished, hw]
  have hun : st.unsent = [] := by rw [unsent, hw]
  refine ⟨h.ok.step .finish, h.fits, fun hr => ?_⟩
  obtain ⟨msgs, cs, hf⟩ := h.flow hr
  have hin := TaskManager.inbox_sendMessageTo htm
  have hch := hf.chunks
  have hb := hf.bytes
  rw [hfin] at hch
  rw [hun] at hb
  have hopen := hf.closed_of_writing hfin
  refine ⟨msgs ++ [finishMessage], cs,
    { hf with inbox := ?_, sized := hf.sized_snoc (by decide), chunks := ?_, bytes := hb,
              closed := fun hc => ?_ }⟩
  · rw [hin, Function.update_self, hf.inbox]
    rfl
  · rw [chunks_append, hch]
    simp [isFinished, hopen, finishMessage]
  · rw [hopen] at hc
    cases hc

theorem StreamInv.waitFinish (h : StreamInv st) {cpu : TaskContext}
    (hs : st.step (.waitFinish cpu) = some st') : StreamInv st' := by
  obtain ⟨hw, r, tm, cpu', hwait, rfl⟩ := step_waitFinish hs
  have hfin : st.isFinished = true := by rw [isFinished, hw]
  have hun : st.unsent = [] := by rw [unsent, hw]
  set writer := if r.isSome then Writer.done else .finished with hwr
  have hfin' : isFinished { st with tm := tm, writer := writer } = true := by
    rw [isFinished, hwr]
    cases r <;> rfl
  have hun' : unsent { st with tm := tm, writer := writer } = [] := unsent_of_isFinished hfin'
  refine ⟨?_, h.fits, fun hr => ?_⟩
  · rw [stream, hfin']
    have := h.ok
    rw [stream, hfin] at this
    exact this
  · obtain ⟨msgs, cs, hf⟩ := h.flow hr
    have hch := hf.chunks
    have hb := hf.bytes
    rw [hfin] at hch
    rw [hun] at hb
    refine ⟨msgs, cs, { hf with inbox := ?_, chunks := ?_, bytes := ?_, closed := fun hc =>
      ⟨hfin', (hf.closed hc).2⟩ }⟩
    · rw [← hf.inbox, ← TaskManager.inbox_waitFinish hwait]
    · rw [hfin']
      exact hch
    · rw [hun']
      exact hb

/-! ### The reader's side -/

theorem fits_snoc (h : StreamInv st) {len : Nat} {bytes : List UInt8} (hb : bytes.length ≤ len) :
    ∀ r ∈ st.reads ++ [(len, bytes)], r.2.length ≤ r.1 := by
  intro r hr
  rcases List.mem_append.1 hr with hr | hr
  · exact h.fits r hr
  · rw [List.mem_singleton.1 hr]
    exact hb

theorem stream_snoc (st : Pipeline) (len : Nat) (bytes : List UInt8) (pipe : PipeDescriptor) :
    (st.afterRead len (some bytes) pipe).stream =
      { st.stream with reads := st.stream.reads ++ [bytes] } := by
  show ({ written := _, reads := (st.reads ++ [(len, bytes)]).map (·.2), finished := _ } :
    Stream UInt8) = _
  rw [List.map_append]
  rfl

theorem Flow.closed_eq_false {msgs cs} (h : Flow st msgs cs) (hpos : 0 < st.pipe.len) :
    st.pipe.closed = false := by
  by_contra hc
  have := (h.closed (by simpa using hc)).2.1
  omega

/-- `Read` returns the next bytes of the stream, taken out of `data_` or out of a chunk. -/
theorem StreamInv.returned (h : StreamInv st) {msgs msgs' cs cs'} (hf : Flow st msgs cs)
    (hopen : st.pipe.closed = false) {tm : TaskManager} (hin : tm.inbox st.subtask = some msgs')
    (hsz : ∀ data len, .kPipe data len ∈ msgs' → len.toNat ≤ 16)
    (hch : Moxia.chunks msgs' = cs' ++ if st.isFinished then [[]] else []) (hcs : ∀ c ∈ cs', c ≠ [])
    {len : Nat} {bytes : List UInt8} {pipe : PipeDescriptor} (hne : bytes ≠ [])
    (hfit : bytes.length ≤ len)
    (hcut : bytes ++ (pipe.leftover ++ cs'.flatten) = st.pipe.leftover ++ cs.flatten)
    (hle : pipe.len ≤ 16) (hcl : pipe.closed = false) :
    StreamInv (afterRead { st with tm := tm } len (some bytes) pipe) := by
  have hb : st.stream.returned ++ bytes ++ (pipe.leftover ++ (cs'.flatten ++ st.unsent)) =
    st.written := by
    rw [← hf.bytes, ← List.append_assoc pipe.leftover, List.append_assoc,
      ← List.append_assoc bytes, hcut]
    simp only [List.append_assoc]
  refine ⟨?_, fits_snoc h hfit, fun _ => ⟨msgs', cs', ?_⟩⟩
  · rw [stream_snoc]
    exact h.ok.step (.read hne ⟨_, hb⟩)
  · refine { inbox := hin, sized := hsz, chunks := ?_, nonempty := hcs, bytes := ?_, len_le := hle,
             closed := fun hc => ?_, loop := ?_, eof := fun hmem => ?_ }
    · show Moxia.chunks msgs' = cs' ++ if st.isFinished && !pipe.closed then [[]] else []
      rw [hch, hcl, Bool.not_false, Bool.and_true]
    · rw [stream_snoc, Stream.returned_snoc]
      exact hb
    · exact absurd (hc.symm.trans hcl) (by decide)
    · intro _ hl
      cases hl
    · rw [stream_snoc] at hmem
      rcases List.mem_append.1 hmem with hmem | hmem
      · exact absurd ((hf.eof hmem).symm.trans hopen) (by decide)
      · exact absurd (List.mem_singleton.1 hmem).symm hne

theorem StreamInv.ended (h : StreamInv st) {msgs} (hf : Flow st msgs []) (hlen : st.pipe.len = 0)
    (hfin : st.isFinished = true) {tm : TaskManager} {msgs' : List Message}
    (hin : tm.inbox st.subtask = some msgs')
    (hsz : ∀ data len, .kPipe data len ∈ msgs' → len.toNat ≤ 16) (hch : Moxia.chunks msgs' = [])
    {len : Nat} {pipe : PipeDescriptor} (hpipe : pipe = { st.pipe with closed := true }) :
    StreamInv (afterRead { st with tm := tm } len (some []) pipe) := by
  have hb : st.stream.returned = st.written := by
    have := hf.bytes
    rw [PipeDescriptor.leftover_of_len hlen, unsent_of_isFinished hfin] at this
    simpa using this
  have hleft : pipe.leftover = [] := PipeDescriptor.leftover_of_len (by rw [hpipe]; exact hlen)
  refine ⟨?_, fits_snoc h (Nat.zero_le _), fun _ => ⟨msgs', [], ?_⟩⟩
  · rw [stream_snoc]
    exact h.ok.step (.eof hfin hb)
  · refine { inbox := hin, sized := hsz, chunks := ?_, nonempty := hf.nonempty, bytes := ?_,
             len_le := ?_,
             closed := fun _ => ⟨hfin, ?_, rfl⟩, loop := ?_, eof := fun _ => ?_ }
    · show Moxia.chunks msgs' = [] ++ if st.isFinished && !pipe.closed then [[]] else []
      rw [hch, hpipe]
      simp
    · rw [stream_snoc, Stream.returned_snoc, List.append_nil]
      show st.stream.returned ++ (pipe.leftover ++ ([] ++ st.unsent)) = st.written
      rw [hleft, unsent_of_isFinished hfin, hb]
      simp
    · show pipe.len ≤ 16
      rw [hpipe]
      exact hf.len_le
    · show pipe.len = 0
      rw [hpipe]
      exact hlen
    · intro _ hl
      cases hl
    · show pipe.closed = true
      rw [hpipe]

theorem StreamInv.read (h : StreamInv st) {len : Nat} (hlen : 1 ≤ len)
    (hs : st.step (.read len) = some st') : StreamInv st' := by
  obtain ⟨hr, r, pipe, hread, rfl⟩ := step_read hs
  obtain ⟨msgs, cs, hf⟩ := h.flow (by rw [hr]; exact fun h => by cases h)
  by_cases hpos : 0 < st.pipe.len
  · -- bytes are left over from the last message
    have hopen := hf.closed_eq_false hpos
    obtain ⟨bytes, pipe', hread', hne, hfit, hcut, hle, hcl⟩ :=
      PipeDescriptor.readLeftover_of_pos hf.len_le hpos hlen
    rw [hread] at hread'
    cases hread'
    refine h.returned hf hopen hf.inbox hf.sized ?_ hf.nonempty hne hfit ?_ hle (hcl.trans hopen)
    · rw [hf.chunks, hopen, Bool.not_false, Bool.and_true]
    · rw [← List.append_assoc, hcut]
  have hzero : st.pipe.len = 0 := by omega
  cases hc : st.pipe.closed with
  | true =>
    obtain ⟨hfin, -, rfl⟩ := hf.closed hc
    rw [PipeDescriptor.readLeftover_of_closed hzero hc] at hread
    cases hread
    refine h.ended hf hzero hfin hf.inbox hf.sized ?_ ?_
    · rw [hf.chunks, hc]
      simp
    · rw [← hc]
  | false =>
    -- the loop is entered
    rw [PipeDescriptor.readLeftover_of_open hzero hc] at hread
    cases hread
    refine ⟨h.ok, h.fits, fun _ => ⟨msgs, cs, { hf with loop := fun l hl => ?_ }⟩⟩
    cases hl
    exact ⟨hzero, hc, hlen⟩

/-- Behind the last chunk there is at most the end of the stream. -/
theorem cons_eq_end {α : Type} {x : List α} {xs : List (List α)} {b : Bool}
    (h : x :: xs = [] ++ if b then [[]] else []) :
    b = true ∧ x = [] ∧ xs = [] := by
  cases b with
  | false => cases h
  | true => exact ⟨rfl, List.cons.inj h⟩

theorem StreamInv.readTurn (h : StreamInv st) {cpu : TaskContext}
    (hs : st.step (.readTurn cpu) = some st') : StreamInv st' := by
  obtain ⟨len, hr, hs⟩ := step_readTurn hs
  obtain ⟨msgs, cs, hf⟩ := h.flow (by rw [hr]; exact fun h => by cases h)
  obtain ⟨hzero, hopen, hlen⟩ := hf.loop len hr
  rcases hs with ⟨tm, tm', cpu', hrecv, hsleep, rfl⟩ | ⟨msg, tm, r, pipe, hrecv, hmsg, rfl⟩
  · -- no message: the subtask sleeps
    obtain ⟨-, -, rfl⟩ | ⟨_, _, heq, -⟩ := TaskManager.inbox_receiveMessage hrecv
    swap
    · cases heq
    exact ⟨h.ok, h.fits, fun _ => ⟨msgs, cs, hf.of_tm
      (by rw [TaskManager.inbox_sleep hsleep]; exact hf.inbox) rfl hf.sized⟩⟩
  obtain ⟨heq, -⟩ | ⟨_, rest, heq, hin, hin', -, -⟩ := TaskManager.inbox_receiveMessage hrecv
  · cases heq
  cases heq
  rw [hf.inbox] at hin
  obtain rfl := Option.some.inj hin
  have hin₂ : tm.inbox st.subtask = some rest := by rw [hin', Function.update_self]
  have hsz : ∀ data len, .kPipe data len ∈ rest → len.toNat ≤ 16 := fun d l hmem =>
    hf.sized d l (List.mem_cons_of_mem _ hmem)
  rcases msg.pipeBytes_cases with hnone | ⟨data, n, rfl⟩
  · -- a message of another type is dropped
    rw [PipeDescriptor.readMessage_of_none hnone] at hmsg
    cases hmsg
    have hf' := hf.of_tm hin₂ (chunks_cons_of_none hnone rest).symm hsz
    refine ⟨h.ok, h.fits, fun _ => ⟨rest, cs, { hf' with loop := fun l hl => ?_ }⟩⟩
    cases hl
    exact ⟨hzero, hopen, hlen⟩
  have hch := hf.chunks
  rw [chunks_kPipe, hopen, Bool.not_false, Bool.and_true] at hch
  have hn : n.toNat ≤ 16 := hf.sized data n List.mem_cons_self
  by_cases hn0 : n = 0
  · -- the end of the stream
    subst hn0
    rw [PipeDescriptor.readMessage_of_zero] at hmsg
    cases hmsg
    cases cs with
    | cons c cs =>
      obtain ⟨rfl, -⟩ := List.cons.inj hch
      exact absurd rfl (hf.nonempty _ List.mem_cons_self)
    | nil =>
      obtain ⟨hfin, -, hrest⟩ := cons_eq_end hch
      exact h.ended hf hzero hfin hin₂ hsz hrest rfl
  · obtain ⟨bytes, pipe', hmsg', hne, hfit, hcut, hle, hcl⟩ :=
      PipeDescriptor.readMessage_of_pos st.pipe data hn hn0 hlen
    rw [hmsg] at hmsg'
    cases hmsg'
    have htake : data.toList.take n.toNat ≠ [] := by
      rw [← hcut]
      exact List.append_ne_nil_of_left_ne_nil hne _
    cases cs with
    | nil => exact absurd (cons_eq_end hch).2.1 htake
    | cons c cs =>
      rw [List.cons_append] at hch
      obtain ⟨rfl, hch'⟩ := List.cons.inj hch
      refine h.returned hf hopen hin₂ hsz hch'
        (fun c hc => hf.nonempty c (List.mem_cons_of_mem _ hc)) hne hfit ?_
        hle (hcl.trans hopen)
      rw [PipeDescriptor.leftover_of_len hzero, List.flatten_cons, ← List.append_assoc, hcut,
        List.nil_append]

/-! ### The rest of the system -/

theorem StreamInv.finish (h : StreamInv st) {exitCode : Int}
    (hs : st.step (.finish exitCode) = some st') : StreamInv st' := by
  obtain ⟨-, tm, cpu, -, rfl⟩ := step_finish hs
  exact ⟨h.ok, h.fits, fun hr => absurd rfl hr⟩

theorem StreamInv.other (h : StreamInv st) {op : TaskManager.Op} (hen : st.Enabled (.other op))
    (hs : st.step (.other op) = some st') : StreamInv st' := by
  obtain ⟨tm, hop, rfl⟩ := step_other hs
  refine ⟨h.ok, h.fits, fun hr => ?_⟩
  obtain ⟨msgs, cs, hf⟩ := h.flow hr
  rcases inbox_other hen hop hf.inbox with hin | ⟨msg, hnone, hin⟩
  · exact ⟨msgs, cs, hf.of_tm hin rfl hf.sized⟩
  · refine ⟨msgs ++ [msg], cs, hf.of_tm hin ?_ fun data len hmem => ?_⟩
    · rw [chunks_append, chunks_cons_of_none hnone, chunks_nil, List.append_nil]
    · rcases List.mem_append.1 hmem with hmem | hmem
      · exact hf.sized data len hmem
      · rw [← List.mem_singleton.1 hmem] at hnone
        cases hnone

theorem StreamInv.step (h : StreamInv st) {e : Event} (hs : Step st e st') : StreamInv st' := by
  obtain ⟨hen, hs⟩ := hs
  cases e with
  | write buf => exact h.write hs
  | writeTurn => exact h.writeTurn hs
  | finishWrite => exact h.finishWrite hs
  | waitFinish cpu => exact h.waitFinish hs
  | read len => exact h.read hen.2 hs
  | readTurn cpu => exact h.readTurn hs
  | finish exitCode => exact h.finish hs
  | other op => exact h.other hen hs

/-- The pipe starts with an empty stream. The subtask is new: ids are not reused. -/
theorem streamInv_start {tm : TaskManager} (hfresh : tm.find (tm.latestId + 1) = none)
    {cr3 stackEnd taskTerminal termDesc : UInt64} {pipeData : Vector UInt8 16}
    (hstart : start tm cr3 stackEnd taskTerminal termDesc pipeData = some st) : StreamInv st := by
  obtain ⟨parent, -, hstart⟩ := Option.bind_eq_some_iff.1 hstart
  obtain ⟨tm', hw, hstart⟩ := Option.bind_eq_some_iff.1 hstart
  cases hstart
  refine ⟨.init, by simp, fun _ => ⟨[], [], ?_⟩⟩
  have hin : tm'.inbox (tm.latestId + 1) = some [] := by
    have hctx : (tm.newTask.modify tm.newTask.latestId
        (·.initContext cr3 stackEnd taskTerminal termDesc)).inbox = tm.newTask.inbox :=
      TaskManager.inbox_modify (fun _ => rfl) fun _ => rfl
    rw [TaskManager.inbox_wakeup hw, hctx,
      TaskManager.inbox_of_find (TaskManager.find_newTask_self hfresh)]
  refine { inbox := hin, sized := by simp, chunks := by simp [isFinished], nonempty := by simp,
           bytes := by simp [stream, Stream.returned, PipeDescriptor.leftover, unsent],
           len_le := Nat.zero_le _, closed := ?_, loop := ?_, eof := ?_ }
  · intro hc
    cases hc
  · intro _ hl
    cases hl
  · simp [stream]

/-- The reader's view of the pipe. -/
structure PipeOk (st : Pipeline) : Prop where
  /-- Nothing lost, duplicated or reordered; 0 is returned only at the end, and then always. -/
  stream : st.stream.Ok
  /-- No `Read` has written past its buffer. -/
  fits : ∀ r ∈ st.reads, r.2.length ≤ r.1
  /-- No `Read` can go past the end of `data_` or of a message. -/
  bounds : st.reader ≠ .finished → ∀ len, 1 ≤ len → (st.pipe.readLeftover len).isSome ∧
    ∀ msg rest, st.tm.inbox st.subtask = some (msg :: rest) → (st.pipe.readMessage len msg).isSome
  /-- After a `Read` that returned 0, the next one returns 0 at once. -/
  stays : st.reader ≠ .finished → [] ∈ st.stream.reads → ∀ len,
    st.pipe.readLeftover len = some (some [], st.pipe)

theorem StreamInv.pipeOk (h : StreamInv st) : PipeOk st where
  stream := h.ok
  fits := h.fits
  bounds hr len hlen := by
    obtain ⟨msgs, cs, hf⟩ := h.flow hr
    constructor
    · by_cases hpos : 0 < st.pipe.len
      · obtain ⟨_, _, hread, -⟩ := PipeDescriptor.readLeftover_of_pos hf.len_le hpos hlen
        rw [hread]
        rfl
      · rw [PipeDescriptor.readLeftover, if_neg hpos]
        split <;> rfl
    · intro msg rest hin
      rw [hf.inbox] at hin
      obtain rfl := Option.some.inj hin
      rcases msg.pipeBytes_cases with hnone | ⟨data, n, rfl⟩
      · rw [PipeDescriptor.readMessage_of_none hnone]
        rfl
      · by_cases hn0 : n = 0
        · subst hn0
          rw [PipeDescriptor.readMessage_of_zero]
          rfl
        · obtain ⟨_, _, hmsg, -⟩ := PipeDescriptor.readMessage_of_pos st.pipe data
            (hf.sized data n List.mem_cons_self) hn0 hlen
          rw [hmsg]
          rfl
  stays hr hmem len := by
    obtain ⟨msgs, cs, hf⟩ := h.flow hr
    have hc := hf.eof hmem
    exact PipeDescriptor.readLeftover_of_closed (hf.closed hc).2.1 hc

end Pipeline

open Pipeline

/-- In every run of `L | R`, however the two sides are interleaved with each other and with the rest
of the system, the reader gets the written bytes in order, and reads 0 exactly from their end on. -/
theorem pipe_stream {tm : TaskManager} (hfresh : tm.find (tm.latestId + 1) = none)
    {cr3 stackEnd taskTerminal termDesc : UInt64} {pipeData : Vector UInt8 16} {st₀ st : Pipeline}
    (hstart : start tm cr3 stackEnd taskTerminal termDesc pipeData = some st₀) {es : List Event}
    (hrun : Run Pipeline.Step st₀ es st) : PipeOk st :=
  (hrun.inv (fun _ _ _ h hs => StreamInv.step h hs) (streamInv_start hfresh hstart)).pipeOk

/-- The boot task as the parent: three bytes are written, and the subtask has read two of them. -/
theorem pipe_stream_two_bytes : ∃ st, st.reads = [(2, [1, 2])] ∧ PipeOk st := by
  let tm := TaskManager.new 0 0 0
  have hexec : ((start tm 0 0 0 0 (Vector.replicate 16 0)).bind fun st₀ =>
      Run.exec Enabled Pipeline.step st₀ [.write [1, 2, 3], .writeTurn, .writeTurn,
        .other (.wakeup 1 0),
        .other (.switchTask {}), .read 2, .readTurn {}]).map (·.reads) =
          some [(2, [1, 2])] := by decide
  obtain ⟨st, hst, hreads⟩ := Option.map_eq_some_iff.1 hexec
  obtain ⟨st₀, hstart, hst⟩ := Option.bind_eq_some_iff.1 hst
  have hfresh : tm.find (tm.latestId + 1) = none := rfl
  exact ⟨st, hreads, pipe_stream hfresh hstart (Run.of_exec hst)⟩

end Moxia
