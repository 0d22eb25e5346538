import Moxia.Memory.MemoryMap
import Mathlib.Data.Nat.Bits

/-!
# The frame allocator (`memory_manager.hpp`, `memory_manager.cpp`)

`BitmapMemoryManager` keeps one bit a frame in 64-bit lines. `getBit` and `setBit` are `none` where
the source indexes `alloc_map_` outside its `kFrameCount / kBitsPerMapLine` lines. Frames are plain
numbers (`FrameID::ID`), a pointer to a frame is its number times `kBytesPerFrame`.
-/

namespace Moxia

/-- `Error::Code` -/
inductive Error
  | kSuccess | kNoEnoughMemory | kNoSuchTask | kInvalidFormat | kFull | kIsDirectory
  | kNoSuchDirectory
deriving DecidableEq, Repr

def kBytesPerFrame : Nat := 4096
def kMaxPhysicalMemoryBytes : Nat := 128 * 1024 * 1024 * 1024
def kFrameCount : Nat := kMaxPhysicalMemoryBytes / kBytesPerFrame
def kBitsPerMapLine : Nat := 64

structure BitmapMemoryManager where
  /-- `alloc_map_`, by line; only the first `kFrameCount / kBitsPerMapLine` lines exist. -/
  allocMap : Nat → BitVec 64
  rangeBegin : Nat
  rangeEnd : Nat

namespace BitmapMemoryManager

/-- The constructor: all bits clear, the range is the whole map. -/
def new : BitmapMemoryManager := ⟨fun _ => 0, 0, kFrameCount⟩

def getBit (m : BitmapMemoryManager) (frame : Nat) : Option Bool :=
  let lineIndex := frame / kBitsPerMapLine
  let bitIndex := frame % kBitsPerMapLine
  if lineIndex < kFrameCount / kBitsPerMapLine then
    some (m.allocMap lineIndex &&& (1#64 <<< bitIndex) != 0#64)
  else none

def setBit (m : BitmapMemoryManager) (frame : Nat) (allocated : Bool) :
    Option BitmapMemoryManager :=
  let lineIndex := frame / kBitsPerMapLine
  let bitIndex := frame % kBitsPerMapLine
  if lineIndex < kFrameCount / kBitsPerMapLine then
    let line := m.allocMap lineIndex
    let line' := if allocated then line ||| (1#64 <<< bitIndex) else line &&& ~~~(1#64 <<< bitIndex)
    some { m with allocMap := fun i => if i = lineIndex then line' else m.allocMap i }
  else none

/-- The loop `for (i = 0; i < num_frames; ++i) SetBit(start_frame + i, allocated)` of
`MarkAllocated` and `Free`. -/
def setBits (m : BitmapMemoryManager) (allocated : Bool) (startFrame : Nat) :
    Nat → Option BitmapMemoryManager
  | 0 => some m
  | numFrames + 1 => do
    let m' ← m.setBits allocated startFrame numFrames
    m'.setBit (startFrame + numFrames) allocated

def markAllocated (m : BitmapMemoryManager) (startFrame numFrames : Nat) :
    Option BitmapMemoryManager :=
  m.setBits true startFrame numFrames

def free (m : BitmapMemoryManager) (startFrame numFrames : Nat) : Option BitmapMemoryManager :=
  m.setBits false startFrame numFrames

def setMemoryRange (m : BitmapMemoryManager) (rangeBegin rangeEnd : Nat) : BitmapMemoryManager :=
  { m with rangeBegin := rangeBegin, rangeEnd := rangeEnd }

/-- How the inner loop of `Allocate` ends. -/
inductive RunScan
  /-- `start_frame_id + i >= range_end_` -/
  | outOfRange
  /-- the bit of `start_frame_id + i` is set -/
  | busy (i : Nat)
  /-- `i == num_frames` -/
  | found
deriving DecidableEq, Repr

/-- The inner loop of `Allocate`, entered at `i` with `left = num_frames - i`. -/
def scanRun (m : BitmapMemoryManager) (startFrame i : Nat) : Nat → Option RunScan
  | 0 => some .found
  | left + 1 =>
    if startFrame + i ≥ m.rangeEnd then some .outOfRange
    else do
      let bit ← m.getBit (startFrame + i)
      if bit then some (.busy i) else m.scanRun startFrame (i + 1) left

/-- The outer loop of `Allocate` from `start_frame_id`. A round that does not return moves the start
forward, and past `range_end_` it returns for `num_frames > 0` (`fuel` bounds the rounds). -/
def allocateFrom (m : BitmapMemoryManager) (numFrames : Nat) :
    (fuel startFrame : Nat) → Option (Except Error (Nat × BitmapMemoryManager))
  | 0, _ => none
  | fuel + 1, startFrame => do
    match ← m.scanRun startFrame 0 numFrames with
    | .outOfRange => some (.error .kNoEnoughMemory)
    | .found => do
      let m' ← m.markAllocated startFrame numFrames
      some (.ok (startFrame, m'))
    | .busy i => m.allocateFrom numFrames fuel (startFrame + i + 1)

def allocate (m : BitmapMemoryManager) (numFrames : Nat) :
    Option (Except Error (Nat × BitmapMemoryManager)) :=
  m.allocateFrom numFrames (m.rangeEnd - m.rangeBegin + 1) m.rangeBegin

end BitmapMemoryManager

end Moxia
