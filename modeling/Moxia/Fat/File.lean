import Moxia.Fat.Volume

/-!
# Open files (`fat::FileDescriptor`)

`size_t` is 64 bits wide; the differences of the source that can go below zero wrap around. A buffer
is the memory it points to, and its length: what `Write` copies from behind its end is recorded.
-/

namespace Moxia.Fat

open Lib

/-- `class FileDescriptor`; a fresh one has all positions zero. -/
structure FileDescriptor where
  fatEntry : Slot
  rdOff : Nat := 0
  rdCluster : Nat := 0
  rdClusterOff : Nat := 0
  wrOff : Nat := 0
  wrCluster : Nat := 0
  wrClusterOff : Nat := 0

namespace FileDescriptor

/-! ### Read -/

/-- The variables of the loop in `Read`, the bytes copied so far and the clusters touched. -/
structure ReadState where
  cluster : Nat
  clusterOff : Nat
  bytes : List UInt8 := []
  touched : List Nat := []

def ReadState.total (st : ReadState) : Nat := st.bytes.length

/-- The body of the loop in `Read`. -/
def readStep (v : Volume) (len : Nat) (st : ReadState) : Option ReadState :=
  if v.InRange st.cluster then
    let n := min (len - st.total) (v.bytesPerCluster - st.clusterOff)
    let bytes := st.bytes ++ (List.range n).map fun i => v.data st.cluster (st.clusterOff + i)
    let touched := st.touched ++ [st.cluster]
    if st.clusterOff + n = v.bytesPerCluster then do
      let next ← v.nextCluster st.cluster
      some { cluster := next, clusterOff := 0, bytes := bytes, touched := touched }
    else
      some { cluster := st.cluster, clusterOff := st.clusterOff + n, bytes := bytes,
             touched := touched }
  else none

def readLoop (v : Volume) (len : Nat) : Nat → ReadState → Option ReadState
  | 0, st => if st.total < len then none else some st
  | fuel + 1, st =>
      if st.total < len then (readStep v len st).bind (readLoop v len fuel) else some st

/-- `len = std::min(len, fat_entry_.file_size - rd_off_)` -/
def readLen (v : Volume) (fd : FileDescriptor) (len : Nat) : Nat :=
  min len ((v.fileSize fd.fatEntry + 2 ^ 64 - fd.rdOff) % 2 ^ 64)

def startRead (v : Volume) (fd : FileDescriptor) : Nat :=
  if fd.rdCluster = 0 then v.firstCluster fd.fatEntry else fd.rdCluster

/-- `Read`: the bytes put into the buffer, the clusters they come from, and the descriptor after
it. -/
def read (v : Volume) (fd : FileDescriptor) (len : Nat) :
    Option (List UInt8 × List Nat × FileDescriptor) := do
  let len := fd.readLen v len
  let st ← readLoop v len len { cluster := fd.startRead v, clusterOff := fd.rdClusterOff }
  some (st.bytes, st.touched,
    { fd with rdOff := fd.rdOff + st.total, rdCluster := st.cluster,
              rdClusterOff := st.clusterOff })

/-! ### Write -/

def numCluster (v : Volume) (bytes : Nat) : Nat :=
  (bytes + v.bytesPerCluster - 1) / v.bytesPerCluster

/-- The variables of the loop in `Write`; the bytes of the buffer below `srcEnd` have been read. -/
structure WriteState where
  vol : Volume
  cluster : Nat
  clusterOff : Nat
  total : Nat := 0
  srcEnd : Nat := 0

/-- The advance at the end of a cluster: to the next one of the chain, or to a new one. -/
def advance (v : Volume) (cluster rest : Nat) : Option (Volume × Nat) := do
  let nextCluster ← v.nextCluster cluster
  if nextCluster = kEndOfClusterchain then v.extendCluster cluster (numCluster v rest)
  else some (v, nextCluster)

/-- The copy in the body of the loop. -/
def writeChunk (buf : Nat → UInt8) (len : Nat) (st : WriteState) : Option WriteState :=
  if st.vol.InRange st.cluster then
    let n := min len (st.vol.bytesPerCluster - st.clusterOff)
    some { vol := st.vol.store st.cluster st.clusterOff n fun i => buf (st.total + i)
           cluster := st.cluster
           clusterOff := st.clusterOff + n
           total := st.total + n
           srcEnd := max st.srcEnd (st.total + n) }
  else none

/-- The body of the loop in `Write`. -/
def writeStep (buf : Nat → UInt8) (len : Nat) (st : WriteState) : Option WriteState :=
  if st.clusterOff = st.vol.bytesPerCluster then
    (advance st.vol st.cluster (len - st.total)).bind fun (vol, cluster) =>
      writeChunk buf len { st with vol := vol, cluster := cluster, clusterOff := 0 }
  else writeChunk buf len st

def writeLoop (buf : Nat → UInt8) (len : Nat) : Nat → WriteState → Option WriteState
  | 0, st => if st.total < len then none else some st
  | fuel + 1, st =>
      if st.total < len then (writeStep buf len st).bind (writeLoop buf len fuel) else some st

/-- The first cluster to write to; an empty file gets a chain. -/
def startWrite (v : Volume) (fd : FileDescriptor) (len : Nat) : Option (Volume × Nat) :=
  if fd.wrCluster = 0 then
    if v.firstCluster fd.fatEntry ≠ 0 then some (v, v.firstCluster fd.fatEntry)
    else (v.allocateClusterchain (numCluster v len)).map fun (v, cluster) =>
      (v.setFirstCluster fd.fatEntry cluster, cluster)
  else some (v, fd.wrCluster)

/-- What `Write` returns and leaves behind. -/
structure Written where
  vol : Volume
  fd : FileDescriptor
  total : Nat
  srcEnd : Nat

def write (v : Volume) (fd : FileDescriptor) (buf : Nat → UInt8) (len : Nat) : Option Written := do
  let (v, cluster) ← fd.startWrite v len
  let st ← writeLoop buf len len { vol := v, cluster := cluster, clusterOff := fd.wrClusterOff }
  let wrOff := fd.wrOff + st.total
  some { vol := st.vol.setFileSize fd.fatEntry wrOff
         fd := { fd with wrOff := wrOff, wrCluster := st.cluster, wrClusterOff := st.clusterOff }
         total := st.total
         srcEnd := st.srcEnd }

end FileDescriptor

end Moxia.Fat
