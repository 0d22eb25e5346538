import Moxia.Fat.WellFormed

/-!
# Paths and directories (`fat.cpp`)

Looking for a file and creating one take a path apart each in its own way: `FindFile` from the
front, `CreateFile` at the last slash; `NameIsEqual` and `SetFileName` each make the 11 bytes of a
name. A component that does not fit into `char path_elem[13]` is `none`.
-/

namespace Moxia.Fat

open Lib

/-- The characters of a C string. -/
structure CString where
  chars : List UInt8
  noNul : 0 ∉ chars

def slash : UInt8 := 0x2f
def dot : UInt8 := 0x2e
def space : UInt8 := 0x20

def toupper (c : UInt8) : UInt8 := if 0x61 ≤ c ∧ c ≤ 0x7a then c - 0x20 else c

/-- The index of the last `c`. -/
def strrchr (c : UInt8) : List UInt8 → Option Nat
  | [] => none
  | x :: xs =>
    match strrchr c xs with
    | some i => some (i + 1)
    | none => if x = c then some 0 else none

/-- The name `SetFileName` puts into an entry: the base before the last dot and what follows it. -/
def fileName (name : List UInt8) (i : Nat) : UInt8 :=
  match strrchr dot name with
  | some k =>
    if i < 8 then if i < k then toupper (name.getD i 0) else space
    else if k + 1 + (i - 8) < name.length then toupper (name.getD (k + 1 + (i - 8)) 0) else space
  | none => if i < 8 ∧ i < name.length then toupper (name.getD i 0) else space

/-- The loop of `NameIsEqual`: every dot goes on at the extension. -/
def name83Loop : List UInt8 → Nat → (Nat → UInt8) → Nat → UInt8
  | [], _, name83 => name83
  | c :: name, i83, name83 =>
    if i83 < 11 then
      if c = dot then name83Loop name 8 name83
      else name83Loop name (i83 + 1) (Function.update name83 i83 (toupper c))
    else name83

/-- The name `NameIsEqual` compares with. -/
def name83 (name : List UInt8) : Nat → UInt8 := name83Loop name 0 fun _ => space

/-- The component before the first slash, and what follows the slash. -/
def nextPathElement (path : List UInt8) : List UInt8 × Option (List UInt8) :=
  if slash ∈ path then (path.takeWhile (· ≠ slash), some (path.dropWhile (· ≠ slash)).tail)
    else (path, none)

/-- The path without the slash at its start. -/
def strip (path : List UInt8) : List UInt8 := if path.head? = some slash then path.tail else path

/-- The path up to its last slash, and the name behind it. -/
def splitPath (path : List UInt8) : List UInt8 × List UInt8 :=
  match strrchr slash path with
  | some k => (path.take k, path.drop (k + 1))
  | none => ([], path)

/-- `char path_elem[13]` -/
def kMaxPathElem : Nat := 12

inductive Error
  | kIsDirectory
  | kNoSuchDirectory
  | kNoEnoughMemory
deriving DecidableEq

namespace Volume

def nameIsEqual (v : Volume) (s : Slot) (name : List UInt8) : Prop :=
  ∀ i, i < 11 → v.name s i = name83 name i

instance (v : Volume) (s : Slot) (name : List UInt8) : Decidable (v.nameIsEqual s name) :=
  inferInstanceAs (Decidable (∀ i, i < 11 → v.name s i = name83 name i))

/-- The first slot of a cluster that satisfies `p`. -/
def findSlot (v : Volume) (cluster : Nat) (p : Slot → Bool) : Option Slot :=
  ((List.range v.slotsPerCluster).map fun i => ⟨cluster, i⟩).find? p

/-- The loop of `FindFile` through a directory, which ends at the first unused slot. -/
def scanDir (v : Volume) (name : List UInt8) (cluster : Nat) : Nat → Option (Option Slot)
  | 0 => none
  | fuel + 1 =>
    if cluster = kEndOfClusterchain then some none
    else if v.InRange cluster then
      match v.findSlot cluster fun s => v.name s 0 = 0 ∨ v.nameIsEqual s name with
      | some s => some (if v.name s 0 = 0 then none else some s)
      | none => (v.nextCluster cluster).bind fun next => v.scanDir name next fuel
    else none

/-- `FindFile`: the entry, if there is one, and whether a slash follows its name. -/
def findFileLoop (v : Volume) : Nat → List UInt8 → Nat → Option (Option Slot × Bool)
  | 0, _, _ => none
  | fuel + 1, path, directoryCluster =>
    let directoryCluster := if path.head? = some slash ∨ directoryCluster = 0 then v.rootCluster
      else directoryCluster
    match nextPathElement (strip path) with
    | (pathElem, nextPath) =>
      if pathElem.length ≤ kMaxPathElem then
        (v.scanDir pathElem directoryCluster (v.numClusters + 1)).bind fun
          | none => some (none, nextPath.isSome)
          | some s =>
            match nextPath with
            | some nextPath =>
              if v.attr s = kDirectory ∧ nextPath ≠ [] then
                v.findFileLoop fuel nextPath (v.firstCluster s)
              else some (some s, true)
            | none => some (some s, false)
      else none

def findFile (v : Volume) (path : List UInt8) : Option (Option Slot × Bool) :=
  v.findFileLoop (path.length + 1) path 0

/-- The loop of `AllocateEntry`: the first slot that is unused or deleted, or the first one of a new
cluster. -/
def allocateEntryLoop (v : Volume) (dirCluster : Nat) : Nat → Option (Volume × Slot)
  | 0 => none
  | fuel + 1 =>
    if v.InRange dirCluster then
      match v.findSlot dirCluster fun s => v.name s 0 = 0 ∨ v.name s 0 = 0xe5 with
      | some s => some (v, s)
      | none => do
        let next ← v.nextCluster dirCluster
        if next = kEndOfClusterchain then
          let (v, cluster) ← v.extendCluster dirCluster 1
          some (v.store cluster 0 v.bytesPerCluster fun _ => 0, ⟨cluster, 0⟩)
        else v.allocateEntryLoop next fuel
    else none

def allocateEntry (v : Volume) (dirCluster : Nat) : Option (Volume × Slot) :=
  v.allocateEntryLoop dirCluster v.numClusters

def setFileName (v : Volume) (s : Slot) (name : List UInt8) : Volume :=
  v.store s.cluster s.offset 11 (fileName name)

/-- The directory a new file goes to. -/
def parentDir (v : Volume) (parent : List UInt8) : Option (Except Error Nat) :=
  if parent = [] then some (.ok v.rootCluster)
  else (v.findFile parent).map fun
    | (none, _) => .error .kNoSuchDirectory
    | (some s, _) => .ok (v.firstCluster s)

/-- What `CreateFile` sets of a new entry. -/
def setEntry (v : Volume) (s : Slot) (filename : List UInt8) : Volume :=
  (v.setFileName s filename).setFileSize s 0

/-- A new entry in a directory. -/
def newFile (v : Volume) (dirCluster : Nat) (filename : List UInt8) : Option (Volume × Slot) :=
  (v.allocateEntry dirCluster).map fun (v, s) => (v.setEntry s filename, s)

def createFile (v : Volume) (path : List UInt8) : Option (Except Error (Volume × Slot)) :=
  let (parent, filename) := splitPath path
  if slash ∈ path ∧ filename = [] then some (.error .kIsDirectory)
  else (v.parentDir parent).bind fun
    | .error e => some (.error e)
    | .ok dirCluster => (v.newFile dirCluster filename).map .ok

end Volume

end Moxia.Fat
