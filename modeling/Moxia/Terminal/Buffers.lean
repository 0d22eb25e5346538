import Moxia.App.FileBuffer
import Moxia.Fat.Listing
import Moxia.Fat.ReadPaths
import Mathlib.Data.Nat.Digits.Defs

/-!
# Buffers of fixed size

`path_elem`, `name`, the arguments of an application and the buffers that `PrintToFD` and `printk`
format into have fixed sizes. The functions here do what those of the file system and of the
terminal do, and log how many bytes they write into these buffers. A walk that overruns `path_elem`
ends there.
-/

namespace Moxia

open Lib

/-- The characters of a string literal. -/
def chars (s : String) : List UInt8 := s.toList.map fun c => UInt8.ofNat c.toNat

/-- What `Name()` finds in `code_names_`, whose order is not that of the codes. -/
def Error.name : Error → List UInt8
  | .kSuccess => chars "kSuccess"
  | .kNoEnoughMemory => chars "kNoEnoughEmpty"
  | .kNoSuchTask => chars "kNoSuchTask"
  | .kInvalidFormat => chars "kInvalidFormat"
  | .kFull => chars "kIsDirectory"
  | .kIsDirectory => chars "kNoSuchDirectory"
  | .kNoSuchDirectory => chars "kFull"

def Fat.Error.code : Fat.Error → Moxia.Error
  | .kIsDirectory => .kIsDirectory
  | .kNoSuchDirectory => .kNoSuchDirectory
  | .kNoEnoughMemory => .kNoEnoughMemory

/-- What is done with a buffer of fixed size; terminators count. -/
inductive BufferUse
  /-- `NextPathElement` writes the first `n` bytes of `char path_elem[13]`. -/
  | pathElem (n : Nat)
  /-- `FormatName` writes the first `n` bytes of `char name[13]`. -/
  | name (n : Nat)
  /-- `MakeArgVector` writes the first `n` entries of `argv`. -/
  | argv (n : Nat)
  /-- `MakeArgVector` writes the first `n` bytes of `argbuf`. -/
  | argbuf (n : Nat)
  /-- `MakeArgVector` returns. -/
  | makeArgVector (cmd : List UInt8) (firstArg : Option (List UInt8)) (err : Error)
  /-- `vsprintf` writes the first `n` bytes of `char s[128]`. -/
  | printToFD (n : Nat)
  /-- `vsprintf` writes the first `n` bytes of `char s[1024]`. -/
  | printk (n : Nat)

/-- What `vsprintf` writes for a text of these pieces. -/
def formatted (pieces : List (List UInt8)) : Nat := pieces.flatten.length + 1

/-- A computation, with its uses of buffers in order. -/
abbrev Buffers (α : Type) := Log BufferUse α

namespace Fat.Volume

variable (v : Volume)

/-- `FindFile`; compare `findFileLoop`. -/
def findFileLoopUses : Nat → List UInt8 → Nat → Buffers (Option Slot × Bool)
  | 0, _, _ => ⟨[], none⟩
  | fuel + 1, path, directoryCluster =>
    let directoryCluster := if path.head? = some slash ∨ directoryCluster = 0 then v.rootCluster
      else directoryCluster
    match nextPathElement (strip path) with
    | (pathElem, nextPath) =>
      Log.bind ⟨[.pathElem (pathElem.length + 1)],
          if pathElem.length ≤ kMaxPathElem then
            v.scanDir pathElem directoryCluster (v.numClusters + 1) else none⟩ fun
        | none => ⟨[], some (none, nextPath.isSome)⟩
        | some s =>
          match nextPath with
          | some nextPath =>
            if v.attr s = kDirectory ∧ nextPath ≠ [] then
              findFileLoopUses fuel nextPath (v.firstCluster s)
            else ⟨[], some (some s, true)⟩
          | none => ⟨[], some (some s, false)⟩

def findFileUses (path : List UInt8) : Buffers (Option Slot × Bool) :=
  v.findFileLoopUses (path.length + 1) path 0

/-- `CreateFile`: only the `FindFile` for the directory uses a buffer of fixed size. -/
def createFileUses (path : List UInt8) : Buffers (Except Error (Volume × Slot)) :=
  let (parent, filename) := splitPath path
  let entries := if (slash ∈ path ∧ filename = []) ∨ parent = [] then [] else
    (v.findFileUses parent).entries
  ⟨entries, v.createFile path⟩

/-- `FormatName` into a `char name[13]`: the eight characters of the base and a terminator are
copied there first. -/
def formatNameUse (s : Slot) : BufferUse := .name (max 9 ((v.formatName s).length + 1))

/-- `ListAllEntries`, one cluster; compare `listSlots`. -/
def listSlotsUses : List Slot → List BufferUse
  | [] => []
  | s :: slots =>
    if v.name s 0 = 0 then []
    else if v.name s 0 = 0xe5 then listSlotsUses slots
    else if v.attr s = kLongName then listSlotsUses slots
    else [v.formatNameUse s, .printk (formatted [v.formatName s, chars "\n"])] ++
      listSlotsUses slots

def listAllEntriesUses (dirCluster : Nat) : Nat → Buffers Unit
  | 0 => ⟨[], none⟩
  | fuel + 1 =>
    if dirCluster = kEndOfClusterchain then ⟨[], some ()⟩
    else if v.InRange dirCluster then
      let slots := (List.range v.slotsPerCluster).map fun i => ⟨dirCluster, i⟩
      if (v.listSlots slots).2 then ⟨v.listSlotsUses slots, some ()⟩
      else Log.bind ⟨v.listSlotsUses slots, v.nextCluster dirCluster⟩ fun next =>
        listAllEntriesUses next fuel
    else ⟨[], none⟩

/-- The loop of `cat`; compare `catLoop`. -/
def catLoopUses : Nat → Nat → Nat → Buffers Unit
  | 0, _, _ => ⟨[], none⟩
  | fuel + 1, cluster, remainBytes =>
    if cluster ≠ 0 ∧ cluster ≠ kEndOfClusterchain then
      if v.InRange cluster then
        let n := min v.bytesPerCluster remainBytes
        let chars := (List.range n).map fun i => [v.data cluster i]
        Log.bind ⟨chars.map fun c => .printToFD (formatted [c]), v.nextCluster cluster⟩ fun next =>
          catLoopUses fuel next (remainBytes - n)
      else ⟨[], none⟩
    else ⟨[], some ()⟩

end Fat.Volume

namespace Terminal

open Fat

/-- What a command meets. -/
structure Machine where
  volume : Volume
  mmu : Mmu
  /-- `last_exit_code` -/
  lastExitCode : BitVec 32
  /-- The string at address 0, which a null pointer leads to. -/
  atNull : CString
  /-- The string that is found in the place of an argument that a call of `PrintToFD` leaves out. -/
  missing : CString
  /-- Where the buffer of a file is. -/
  address : Nat
  argbuf : Nat → UInt8
  callApp : ArgVector → Nat → Mmu → Option (Int × Mmu)
  resetCR3 : Nat
  /-- What `WaitFinish` returns for a subtask. -/
  waitFinish : Moxia.Error

/-- What `%s` prints; a null pointer is `(null)`. -/
def percentS (s : Option (List UInt8)) : List UInt8 := s.getD (chars "(null)")

/-- What `%d` prints. -/
def percentD (x : BitVec 32) : List UInt8 :=
  (if x.toInt < 0 then chars "-" else []) ++
    if x.toInt = 0 then chars "0" else (Nat.digits 10 x.toInt.natAbs).reverse.map fun d =>
      UInt8.ofNat (0x30 + d)

namespace Machine

variable (m : Machine)

/-- The string that a pointer leads to. -/
def string (p : Option (List UInt8)) : List UInt8 := p.getD m.atNull.chars

/-- `file_buf` -/
def fileBuf (v : Volume) (s : Slot) : FileBuffer := ⟨m.address, .ofNat (v.fileSize s)⟩

/-- What `LoadFile` has read is in the buffer. -/
def filled (v : Volume) (s : Slot) (bytes : List UInt8) : Mmu :=
  { m.mmu with mem := fun f o =>
      if m.address ≤ 4096 * f + o ∧ 4096 * f + o < m.address + v.fileSize s then
        bytes.getD (4096 * f + o - m.address) 0
      else m.mmu.mem f o }

/-- What `MakeArgVector` does in `ExecuteFile`. -/
def makeArgVectorUses (cmd : List UInt8) (arg : Option (List UInt8)) : List BufferUse :=
  match makeArgVector cmd arg 32 3840 m.argbuf with
  | some (a, err) => [.argv a.argc, .argbuf a.argbufIndex, .makeArgVector cmd arg err]
  | none => []

/-- `ExecuteFile` -/
def executeFileUses (v : Volume) (s : Slot) (cmd : List UInt8) (arg : Option (List UInt8)) :
    Buffers (Except Moxia.Error Int) :=
  Log.bind ⟨[], v.loadFile (v.fileSize s) s⟩ fun (bytes, _) =>
    let file := m.fileBuf v s
    let mmu := m.filled v s bytes
    let entries := match (file.startFile mmu).result with
      | some (.ok (), _) => m.makeArgVectorUses cmd arg
      | _ => []
    ⟨entries,
      (file.executeFile ⟨cmd, arg, m.argbuf, m.callApp, m.resetCR3⟩ mmu).result.map Prod.fst⟩

/-- The redirection: the volume the command goes on with, if it goes on. -/
def redirectUses : Descriptor Unit → Buffers (Option Volume)
  | .file redirDest =>
    Log.bind (m.volume.findFileUses redirDest) fun
      | (none, _) => Log.bind (m.volume.createFileUses redirDest) fun
        | .error err =>
          ⟨[.printToFD (formatted [chars "failed to create a redirect file: ", err.code.name,
            chars "\n"])], some none⟩
        | .ok (v, _) => ⟨[], some (some v)⟩
      | (some s, postSlash) =>
        if m.volume.attr s = kDirectory ∨ postSlash = true then
          ⟨[.printToFD (formatted [chars "cannot redirect to a directory\n"])], some none⟩
        else ⟨[], some (some m.volume)⟩
  | _ => ⟨[], some (some m.volume)⟩

def echoUses (arg : Option (List UInt8)) : List BufferUse :=
  [if (arg.map (List.take 2)) = some (chars "$?") then
    .printToFD (formatted [percentD m.lastExitCode])
    else .printToFD (formatted [percentS arg]),
   .printToFD (formatted [chars "\n"])]

def lsUses (v : Volume) (arg : Option (List UInt8)) : Buffers Unit :=
  if m.string arg = [] then v.listAllEntriesUses v.rootCluster (v.numClusters + 1)
  else Log.bind (v.findFileUses (m.string arg)) fun
    | (none, _) =>
        ⟨[.printToFD (formatted [chars "Not such file or directory: ", percentS arg, chars "\n"])],
        some ()⟩
    | (some s, postSlash) =>
      if v.attr s = kDirectory then v.listAllEntriesUses (v.firstCluster s) (v.numClusters + 1)
      else if postSlash then
        ⟨[v.formatNameUse s,
          .printToFD (formatted [v.formatName s, chars " is not a directory\n"])], some ()⟩
      else ⟨[v.formatNameUse s, .printToFD (formatted [m.missing.chars, chars "\n"])], some ()⟩

def catUses (v : Volume) (arg : Option (List UInt8)) : Buffers Unit :=
  Log.bind (v.findFileUses (m.string arg)) fun
    | (none, _) =>
        ⟨[.printToFD (formatted [chars "no such file: ", percentS arg, chars "\n"])], some ()⟩
    | (some s, _) => v.catLoopUses (v.numClusters + 1) (v.firstCluster s) (v.fileSize s)

def otherUses (v : Volume) (cmd : List UInt8) (arg : Option (List UInt8)) : Buffers Unit :=
  Log.bind (v.findFileUses cmd) fun
    | (none, _) => ⟨[.printk (formatted [chars "command not found: ", cmd, chars "\n"])], some ()⟩
    | (some s, postSlash) =>
      if v.attr s ≠ kDirectory ∧ postSlash = true then
        ⟨[v.formatNameUse s, .printk (formatted [v.formatName s, chars " is not a directory\n"])],
          some ()⟩
      else Log.bind (m.executeFileUses v s cmd arg) fun
        | .error err =>
            ⟨[.printk (formatted [chars "failed to exec file: ", err.name, chars "\n"])], some ()⟩
        | .ok _ => ⟨[], some ()⟩

/-- The command itself. -/
def commandUses (v : Volume) (cmd : List UInt8) (arg : Option (List UInt8)) : Buffers Unit :=
  if cmd = chars "echo" then ⟨m.echoUses arg, some ()⟩
  else if cmd = chars "clear" then ⟨[], some ()⟩
  else if cmd = chars "ls" then m.lsUses v arg
  else if cmd = chars "cat" then m.catUses v arg
  else m.otherUses v cmd arg

/-- `ExecuteCommand`; what the descriptors it is given are does not matter. -/
def executeCommandUses (line : List UInt8) : Buffers Unit :=
  let setup := executeCommand line (Vector.replicate 3 ())
  Log.bind (m.redirectUses (getElem setup.files 1 stdout_lt)) fun
    | none => ⟨[], some ()⟩
    | some v => Log.bind (m.commandUses v setup.cmd setup.arg) fun _ =>
      if setup.subtask.isSome ∧ m.waitFinish ≠ .kSuccess then
        ⟨[.printk (formatted [chars "failed to wait finish: ", m.waitFinish.name, chars "\n"])],
          some ()⟩
      else ⟨[], some ()⟩

/-- `syscall::open` -/
def openUses (path : CString) (flags : BitVec 32) : Buffers Unit :=
  if path.chars = chars "@stdin" then ⟨[], some ()⟩
  else Log.bind (m.volume.findFileUses path.chars) fun
    | (none, _) =>
      if flags &&& 3 = 0 then ⟨[], some ()⟩
      else Log.bind (m.volume.createFileUses path.chars) fun _ => ⟨[], some ()⟩
    | _ => ⟨[], some ()⟩

end Machine

/-- Where a text comes in. -/
inductive Input
  | open (path : CString) (flags : BitVec 32)
  | executeCommand (line : List UInt8)

def Input.uses (m : Machine) : Input → Buffers Unit
  | .open path flags => m.openUses path flags
  | .executeCommand line => m.executeCommandUses line

end Terminal

end Moxia
