import Moxia.Lib.Buffer
import Moxia.Task.Manager

/-!
# `PipeDescriptor` (`terminal.hpp`, `terminal.cpp`)

The two sides of a pipe, cut at the points where interrupts are enabled: what `Read` does before its
loop and with one received message, and the chunk one turn of the loop in `Write` sends. `none`
stands for an access past the end of a 16-byte array.
-/

namespace Moxia

open Lib

/-- `class PipeDescriptor` without the reference to the reading task. -/
structure PipeDescriptor where
  data : Vector UInt8 16
  len : Nat := 0
  closed : Bool := false

namespace PipeDescriptor

/-- The bytes left over from the last message. -/
def leftover (p : PipeDescriptor) : List UInt8 := p.data.toList.take p.len

/-- `Read` up to its loop: the bytes copied to the caller, unless a message has to be received. -/
def readLeftover (p : PipeDescriptor) (len : Nat) : Option (Option (List UInt8) × PipeDescriptor) :=
  if p.len > 0 then do
    let copyBytes := min p.len len
    let bytes ← slice p.data 0 copyBytes
    let len := p.len - copyBytes
    -- memmove(data_, &data_[copy_bytes], len_)
    let data ← copyFront p.data (← slice p.data copyBytes len)
    some (some bytes, { p with data := data, len := len })
  else if p.closed then some (some [], p)
  else some (none, p)

/-- The turn of the loop in `Read` that received `msg`: the bytes copied to the caller, or another
turn. -/
def readMessage (p : PipeDescriptor) (len : Nat) :
    Message → Option (Option (List UInt8) × PipeDescriptor)
  | .kPipe msgData msgLen =>
    if msgLen = 0 then some (some [], { p with closed := true })
    else do
      let copyBytes := min msgLen.toNat len
      let bytes ← slice msgData 0 copyBytes
      let len := msgLen.toNat - copyBytes
      let data ← copyFront p.data (← slice msgData copyBytes len)
      some (some bytes, { p with data := data, len := len })
  | _ => some (none, p)

end PipeDescriptor

/-- The local variables of `Write`: the message it fills, the caller's buffer and `sent_bytes`. -/
structure PipeWrite where
  msgData : Vector UInt8 16 := Vector.replicate 16 0
  buf : List UInt8
  sentBytes : Nat := 0
deriving DecidableEq

namespace PipeWrite

/-- One turn of the loop in `Write`: the message to send. -/
def nextMessage (w : PipeWrite) : Option (Message × PipeWrite) := do
  let len := min (w.buf.length - w.sentBytes) 16
  let msgData ← copyFront w.msgData ((w.buf.drop w.sentBytes).take len)
  some (.kPipe msgData (UInt8.ofNat len),
    { w with msgData := msgData, sentBytes := w.sentBytes + len })

/-- The bytes of the buffer that are still to be sent. -/
def unsent (w : PipeWrite) : List UInt8 := w.buf.drop w.sentBytes

end PipeWrite

/-- The message `FinishWrite` sends. -/
def finishMessage : Message := .kPipe (Vector.replicate 16 0) 0

/-- The bytes a pipe message carries. -/
def Message.pipeBytes : Message → Option (List UInt8)
  | .kPipe data len => some (data.toList.take len.toNat)
  | _ => none

theorem Message.pipeBytes_cases (msg : Message) :
    msg.pipeBytes = none ∨ ∃ data len, msg = .kPipe data len := by
  cases msg with
  | kPipe data len => exact .inr ⟨data, len, rfl⟩
  | kTimerTimeout | kKeyboardPush => exact .inl rfl

/-- The chunks that wait in a queue. -/
def chunks (msgs : List Message) : List (List UInt8) := msgs.filterMap Message.pipeBytes

@[simp] theorem chunks_nil : chunks [] = [] := rfl

@[simp] theorem chunks_append (msgs msgs' : List Message) :
    chunks (msgs ++ msgs') = chunks msgs ++ chunks msgs' :=
  List.filterMap_append

@[simp] theorem chunks_kPipe (data : Vector UInt8 16) (len : UInt8) (msgs : List Message) :
    chunks (.kPipe data len :: msgs) = data.toList.take len.toNat :: chunks msgs := rfl

theorem chunks_cons_of_none {msg : Message} (h : msg.pipeBytes = none) (msgs : List Message) :
    chunks (msg :: msgs) = chunks msgs := by
  rw [chunks, List.filterMap_cons, h, chunks]

/-! ### What the two sides do to the bytes -/

/-- An array of `n` leftover bytes is cut: the first `k` go to the caller, the others to the
front. -/
theorem cut_spec (src dst : Vector UInt8 16) {n k : Nat} (hn : n ≤ 16) (hk : k ≤ n) :
    ∃ bytes rest dst', slice src 0 k = some bytes ∧ slice src k (n - k) = some rest ∧
      copyFront dst rest = some dst' ∧ bytes.length = k ∧
      bytes ++ dst'.toList.take (n - k) = src.toList.take n := by
  have hlen : ((src.toList.drop k).take (n - k)).length = n - k := by simp; omega
  obtain ⟨dst', hcopy, htake⟩ := copyFront_eq dst ((src.toList.drop k).take (n - k)) (by omega)
  refine ⟨_, _, dst', slice_eq src (by omega), slice_eq src (by omega), hcopy, by simp; omega, ?_⟩
  rw [hlen] at htake
  rw [htake, ← take_split src hk]

namespace PipeDescriptor

variable {p : PipeDescriptor} {len : Nat}

theorem leftover_of_len (h : p.len = 0) : p.leftover = [] := by simp [leftover, h]

theorem readLeftover_of_pos (hp : p.len ≤ 16) (hpos : 0 < p.len) (hlen : 1 ≤ len) :
    ∃ bytes p', p.readLeftover len = some (some bytes, p') ∧ bytes ≠ [] ∧ bytes.length ≤ len ∧
      bytes ++ p'.leftover = p.leftover ∧ p'.len ≤ 16 ∧ p'.closed = p.closed := by
  obtain ⟨bytes, rest, data, hs, hr, hc, hlb, hcut⟩ :=
    cut_spec p.data p.data hp (Nat.min_le_left p.len len)
  refine ⟨bytes, { p with data := data, len := p.len - min p.len len }, ?_,
    ?_, by omega, hcut, ?_, rfl⟩
  · rw [readLeftover, if_pos hpos]
    simp [hs, hr, hc]
  · rintro rfl
    rw [List.length_nil] at hlb
    omega
  · show p.len - min p.len len ≤ 16
    omega

theorem readLeftover_of_closed (hp : p.len = 0) (hc : p.closed = true) :
    p.readLeftover len = some (some [], p) := by
  rw [readLeftover, if_neg (by omega), if_pos hc]

theorem readLeftover_of_open (hp : p.len = 0) (hc : p.closed = false) :
    p.readLeftover len = some (none, p) := by
  rw [readLeftover, if_neg (by omega), if_neg (by simp [hc])]

theorem readMessage_of_pos (p : PipeDescriptor) (data : Vector UInt8 16) {n : UInt8}
    (hn : n.toNat ≤ 16)
    (hpos : n ≠ 0) (hlen : 1 ≤ len) :
    ∃ bytes p', p.readMessage len (.kPipe data n) = some (some bytes, p') ∧ bytes ≠ [] ∧
      bytes.length ≤ len ∧ bytes ++ p'.leftover = data.toList.take n.toNat ∧ p'.len ≤ 16 ∧
      p'.closed = p.closed := by
  have hpos' : 0 < n.toNat := Nat.pos_of_ne_zero fun h => hpos (UInt8.toNat_inj.1 h)
  obtain ⟨bytes, rest, data', hs, hr, hc, hlb, hcut⟩ :=
    cut_spec data p.data hn (Nat.min_le_left n.toNat len)
  refine ⟨bytes, { p with data := data', len := n.toNat - min n.toNat len }, ?_,
    ?_, by omega, hcut, ?_, rfl⟩
  · rw [readMessage, if_neg hpos]
    simp [hs, hr, hc]
  · rintro rfl
    rw [List.length_nil] at hlb
    omega
  · show n.toNat - min n.toNat len ≤ 16
    omega

theorem readMessage_of_zero {data : Vector UInt8 16} :
    p.readMessage len (.kPipe data 0) = some (some [], { p with closed := true }) := by
  rw [readMessage, if_pos rfl]

theorem readMessage_of_none {msg : Message} (h : msg.pipeBytes = none) :
    p.readMessage len msg = some (none, p) := by
  cases msg with
  | kPipe data n => cases h
  | kTimerTimeout | kKeyboardPush => rfl

end PipeDescriptor

/-- One turn of the loop in `Write` sends the next 1 to 16 bytes. -/
theorem PipeWrite.nextMessage_spec {w : PipeWrite} (h : w.sentBytes < w.buf.length) :
    ∃ data len w', w.nextMessage = some (.kPipe data len, w') ∧ len ≠ 0 ∧ len.toNat ≤ 16 ∧
      data.toList.take len.toNat ++ w'.unsent = w.unsent := by
  set n := min (w.buf.length - w.sentBytes) 16 with hn
  have hlen : ((w.buf.drop w.sentBytes).take n).length = n := by simp; omega
  obtain ⟨data, hc, htake⟩ := copyFront_eq w.msgData ((w.buf.drop w.sentBytes).take n) (by omega)
  rw [hlen] at htake
  have hnat : (UInt8.ofNat n).toNat = n := by
    rw [UInt8.toNat_ofNat']
    omega
  refine ⟨data, UInt8.ofNat n, { w with msgData := data, sentBytes := w.sentBytes + n }, ?_,
    ?_, by omega, ?_⟩
  · simp [nextMessage, ← hn, hc]
  · intro h0
    have := congrArg UInt8.toNat h0
    rw [hnat] at this
    simp at this
    omega
  · rw [hnat, htake, unsent, unsent, ← List.drop_drop, List.take_append_drop]

end Moxia
