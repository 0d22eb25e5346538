import Moxia.Lib.Bytes
import Mathlib.Logic.Function.Basic

/-!
# FAT32 volumes (`fat.hpp`, `fat.cpp`)

The mapped volume image: the BPB, the words of the first FAT and the bytes of the data clusters,
which are numbered from 2. Reading or writing a FAT word or a cluster the volume does not have is
`none`. Loops over a chain or over the FAT get fuel for as many turns as the volume has clusters;
running out of it is `none`, too.
-/

namespace Moxia.Fat

open Lib

def kEndOfClusterchain : Nat := 0x0fffffff

/-- The fields of `struct BPB` the file system reads. -/
structure BPB where
  bytesPerSector : UInt16
  sectorsPerCluster : UInt8
  reservedSectorCount : UInt16
  numFats : UInt8
  fatSize32 : UInt32
  rootCluster : UInt32

structure Volume where
  bpb : BPB
  /-- The number of data clusters: they are 2, …, `numClusters + 1`. -/
  numClusters : Nat
  fat : Nat → Nat
  data : Nat → Nat → UInt8

/-- A place for a directory entry: the `index`-th in a cluster. -/
structure Slot where
  cluster : Nat
  index : Nat
deriving DecidableEq

/-- `sizeof(DirectoryEntry)` -/
def kEntrySize : Nat := 32

def Slot.offset (s : Slot) : Nat := s.index * kEntrySize

def isEndOfClusterchain (cluster : Nat) : Bool := 0x0ffffff8 ≤ cluster

namespace Volume

def bytesPerCluster (v : Volume) : Nat := v.bpb.bytesPerSector.toNat * v.bpb.sectorsPerCluster.toNat

def rootCluster (v : Volume) : Nat := v.bpb.rootCluster.toNat

/-- A cluster of the volume, so that `GetSectorByCluster` points into the image. -/
def InRange (v : Volume) (cluster : Nat) : Prop := 2 ≤ cluster ∧ cluster < v.numClusters + 2

instance (v : Volume) (cluster : Nat) : Decidable (v.InRange cluster) :=
  inferInstanceAs (Decidable (_ ∧ _))

/-- `fat[cluster]` -/
def readFat (v : Volume) (cluster : Nat) : Option Nat :=
  if cluster < v.numClusters + 2 then some (v.fat cluster) else none

def setFat (v : Volume) (cluster word : Nat) : Volume :=
  { v with fat := Function.update v.fat cluster word }

/-- `memcpy` into a cluster. -/
def store (v : Volume) (cluster off n : Nat) (src : Nat → UInt8) : Volume :=
  { v with data := Function.update v.data cluster (Lib.store (v.data cluster) off n src) }

def nextCluster (v : Volume) (cluster : Nat) : Option Nat := do
  let next ← v.readFat cluster
  some (if isEndOfClusterchain next then kEndOfClusterchain else next)

/-- The first loop of `ExtendCluster`: the last cluster of the chain. -/
def lastCluster (v : Volume) (eocCluster : Nat) : Nat → Option Nat
  | 0 => none
  | fuel + 1 => do
    let next ← v.readFat eocCluster
    if isEndOfClusterchain next then some eocCluster else v.lastCluster next fuel

/-- The second loop of `ExtendCluster`: `n` free clusters from `candidate` on are linked to
`current`. -/
def linkFree (v : Volume) (current candidate n : Nat) : Nat → Option (Volume × Nat)
  | 0 => if n = 0 then some (v.setFat current kEndOfClusterchain, current) else none
  | fuel + 1 =>
    if n = 0 then some (v.setFat current kEndOfClusterchain, current)
    else do
      let word ← v.readFat candidate
      if word ≠ 0 then v.linkFree current (candidate + 1) n fuel
      else (v.setFat current candidate).linkFree candidate (candidate + 1) (n - 1) fuel

/-- `ExtendCluster`: `n` clusters are appended to a chain; the last of them is returned. -/
def extendCluster (v : Volume) (eocCluster n : Nat) : Option (Volume × Nat) := do
  let last ← v.lastCluster eocCluster (v.numClusters + 2)
  v.linkFree last 2 n v.numClusters

/-- The loop of `AllocateClusterchain`: the first free cluster from `firstCluster` on. -/
def firstFree (v : Volume) (firstCluster : Nat) : Nat → Option Nat
  | 0 => none
  | fuel + 1 => do
    let word ← v.readFat firstCluster
    if word = 0 then some firstCluster else v.firstFree (firstCluster + 1) fuel

def allocateClusterchain (v : Volume) (n : Nat) : Option (Volume × Nat) := do
  let firstCluster ← v.firstFree 2 v.numClusters
  let v := v.setFat firstCluster kEndOfClusterchain
  if n > 1 then
    let (v, _) ← v.extendCluster firstCluster (n - 1)
    some (v, firstCluster)
  else some (v, firstCluster)

/-! The fields of `struct DirectoryEntry` that are read or written. -/

def name (v : Volume) (s : Slot) (i : Nat) : UInt8 := v.data s.cluster (s.offset + i)

def attr (v : Volume) (s : Slot) : UInt8 := v.data s.cluster (s.offset + 11)

/-- `FirstCluster()`, from the two halves. -/
def firstCluster (v : Volume) (s : Slot) : Nat :=
  loadLE (v.data s.cluster) (s.offset + 26) 2 + 2 ^ 16 * loadLE (v.data s.cluster) (s.offset + 20) 2

def fileSize (v : Volume) (s : Slot) : Nat := loadLE (v.data s.cluster) (s.offset + 28) 4

/-- Assigning an integer of `n` bytes to the field at `off`. -/
def setField (v : Volume) (s : Slot) (off n x : Nat) : Volume :=
  v.store s.cluster (s.offset + off) n fun i => UInt8.ofNat (x / 256 ^ i)

def setFirstCluster (v : Volume) (s : Slot) (cluster : Nat) : Volume :=
  (v.setField s 26 2 (cluster % 2 ^ 16)).setField s 20 2 (cluster / 2 ^ 16 % 2 ^ 16)

def setFileSize (v : Volume) (s : Slot) (size : Nat) : Volume := v.setField s 28 4 size

end Volume

/-! `enum class Attribute` -/

def kVolumeID : UInt8 := 0x08
def kDirectory : UInt8 := 0x10
def kLongName : UInt8 := 0x0f

end Moxia.Fat
