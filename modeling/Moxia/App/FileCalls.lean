import Moxia.App.Loader
import Moxia.Fat.Descriptors
import Moxia.Fat.Names
import Moxia.Terminal.Buffers

/-!
# System calls on files

`read`, `write` and `open` on the descriptors of a task. As long as the lengths are right and there
is room, an application cannot tell the volume from a store of files: names lead to files of bytes,
and a descriptor is no more than two offsets. All replies of a run are those of the store
(`files_refine`), which has one reply for a call (`Serves.reply_unique`).
-/

namespace Moxia.Syscall

open Lib Fat Volume FileDescriptor

def E2BIG : Nat := 7
def ENOENT : Nat := 2
def EISDIR : Nat := 21
def ENOSPC : Nat := 28

/-- What stands in `task.Files()`. -/
inductive OpenFile
  /-- A `TerminalFileDescriptor` or a `PipeDescriptor`. -/
  | device
  | file (fd : FileDescriptor)

/-- The task of an application, and the volume. -/
structure Process where
  vol : Volume
  files : List (Option OpenFile) := []

structure Reply extends Mmu.SyscallResult where
  bytes : List UInt8 := []

def fail (error : Nat) : Reply := { value := 0, error := error }

inductive Call
  /-- A terminal or a pipe hands out the bytes `device` if it is asked. -/
  | read (arg1 arg3 : UInt64) (device : List UInt8)
  | write (arg1 : UInt64) (buf : Nat → UInt8) (arg3 : UInt64)
  | openPath (path : CString) (arg2 : UInt64)

/-- `const int fd = arg1`, if it is not negative. -/
def readIndex (arg1 : UInt64) : Option Nat :=
  let fd := (BitVec.ofNat 32 arg1.toNat).toInt
  if fd < 0 then none else some fd.toNat

namespace Process

def opened (st : Process) (fd : Nat) : Option OpenFile := st.files[fd]?.join

def read (st : Process) (arg1 arg3 : UInt64) (device : List UInt8) : Option (Reply × Process) :=
  match readIndex arg1 with
  | none => some (fail Mmu.EBADF, st)
  | some fd => match st.opened fd with
    | none => some (fail Mmu.EBADF, st)
    | some .device => some ({ value := device.length, error := 0, bytes := device }, st)
    | some (.file file) => (file.read st.vol arg3.toNat).map fun (bytes, _, file) =>
      ({ value := bytes.length, error := 0, bytes := bytes },
        { st with files := st.files.set fd (some (.file file)) })

def write (st : Process) (arg1 : UInt64) (buf : Nat → UInt8) (arg3 : UInt64) :
    Option (Reply × Process) :=
  if 1024 < arg3.toNat then some (fail E2BIG, st)
  else match st.opened arg1.toNat with
    | none => some (fail Mmu.EBADF, st)
    | some .device => some ({ value := arg3.toNat, error := 0 }, st)
    | some (.file file) => (file.write st.vol buf arg3.toNat).map fun r =>
      ({ value := r.total, error := 0 },
        { vol := r.vol, files := st.files.set arg1.toNat (some (.file r.fd)) })

/-- `AllocateFD` -/
def allocateFD (files : List (Option OpenFile)) : Nat × List (Option OpenFile) :=
  match files.findIdx? Option.isNone with
  | some i => (i, files)
  | none => (files.length, files ++ [none])

/-- A descriptor of the entry in `s`. -/
def install (st : Process) (s : Slot) : Reply × Process :=
  let (fd, files) := allocateFD st.files
  ({ value := fd, error := 0 }, { st with files := files.set fd (some (.file { fatEntry := s })) })

def stdinPath : List UInt8 := chars "@stdin"

/-- What `open` makes of the result of `CreateFile`. -/
def openCreated (st : Process) : Except Fat.Error (Volume × Slot) → Reply × Process
  | .error .kIsDirectory => (fail EISDIR, st)
  | .error .kNoSuchDirectory => (fail ENOENT, st)
  | .error .kNoEnoughMemory => (fail ENOSPC, st)
  | .ok (vol, file) => { st with vol := vol }.install file

def openPath (st : Process) (path : CString) (arg2 : UInt64) : Option (Reply × Process) :=
  if path.chars = stdinPath then some ({ value := 0, error := 0 }, st)
  else (st.vol.findFile path.chars).bind fun
    | (some file, postSlash) =>
      if st.vol.attr file ≠ kDirectory ∧ postSlash = true then some (fail ENOENT, st) else
        some (st.install file)
    | (none, _) =>
      -- `flags & O_ACCMODE`
      if arg2.toNat % 4 = 0 then some (fail ENOENT, st)
      else (st.vol.createFile path.chars).map st.openCreated

def call (st : Process) : Call → Option (Reply × Process)
  | .read arg1 arg3 device => st.read arg1 arg3 device
  | .write arg1 buf arg3 => st.write arg1 buf arg3
  | .openPath path arg2 => st.openPath path arg2

/-! ## Runs -/

inductive Event
  /-- `ExecuteFile` puts `files` into `task.Files()`; `files[1]` may be a file. -/
  | start (stdout : Option Slot)
  | call (c : Call) (reply : Reply)
  | exit

/-- A file is created under the name it is looked up by, in the directory it has been looked up
in. -/
structure Creates (v : Volume) (path : List UInt8) : Prop where
  ok : CreateOk v path
  sameName : ∀ i, i < 11 → fileName (splitPath path).2 i = name83 (splitPath path).2 i
  noPostSlash : postSlash (splitPath path).1 = false

/-- Descriptors are those of regular files, paths can be walked, and `Read`, `Write` and
`CreateFile` are called where they do what they should. -/
def Allowed (st : Process) : Call → Prop
  | .read arg1 arg3 _ =>
      ∀ fd file, readIndex arg1 = some fd → st.opened fd = some (.file file) →
      ReadOk st.vol file arg3.toNat
  | .write arg1 _ arg3 =>
      ∀ file, st.opened arg1.toNat = some (.file file) → CanWrite st.vol file arg3.toNat
  | .openPath path arg2 => path.chars ≠ stdinPath → Walkable path.chars ∧
    (∀ s b, st.vol.findFile path.chars = some (some s, b) →
      st.vol.Live s ∧ ¬ st.vol.IsDirectory s) ∧
    ∀ b, st.vol.findFile path.chars = some (none, b) → arg2.toNat % 4 ≠ 0 →
      EntryFits st.vol path.chars ∧
      ∀ d, st.vol.parentDir (splitPath path.chars).1 = some (.ok d) → Creates st.vol path.chars

/-- `files` of `ExecuteFile` -/
def stdFiles (stdout : Option Slot) : List (Option OpenFile) :=
  [some .device, some (stdout.elim .device fun s => .file { fatEntry := s }), some .device]

def Step (st : Process) : Event → Process → Prop
  | .start stdout, st' =>
    st.files = [] ∧ (∀ s, stdout = some s → st.vol.Live s ∧ ¬ st.vol.IsDirectory s) ∧
    st' = { st with files := stdFiles stdout }
  | .call c reply, st' => st.Allowed c ∧ st.call c = some (reply, st')
  | .exit, st' => st' = { st with files := [] }

end Process

/-! ## A store of files -/

structure Store extends Files Slot UInt8 where
  names : Names

def setFd (σ : Store) (fd : Nat) (d : Descriptor Slot) : Store :=
  { σ with fds := Function.update σ.fds fd (some (.file d)) }

def setFile (σ : Store) (s : Slot) (f : File UInt8) : Store :=
  { σ with file := Function.update σ.file s (some f) }

def addName (σ : Store) (d : Nat) (name : List UInt8) (s : Slot) : Store :=
  { σ with names := σ.names.add d name s }

/-- The descriptors of a fresh application. -/
def stdHandles (stdout : Option Slot) (fd : Nat) : Option (Handle Slot) :=
  if fd = 1 then some (stdout.elim .device fun s => .file { file := s }) else if fd < 3 then
    some .device else none

/-- The lowest descriptor that is not in use. -/
def Lowest (σ : Store) (fd : Nat) : Prop := (σ.fds fd).isNone = true ∧ ∀ j, j < fd →
    (σ.fds j).isSome = true

/-- What keeps `open` from giving a descriptor. -/
inductive OpenFails (N : Names) (path : List UInt8) (flags : Nat) : Nat → Prop
  /-- A slash follows the name of a file. -/
  | noDirectory {s : Slot} (hfind : N.find path = (some s, true)) (hdir : N.dir s = none) :
      OpenFails N path flags ENOENT
  | missing {b : Bool} (hfind : N.find path = (none, b)) (hflags : flags % 4 = 0) :
      OpenFails N path flags ENOENT
  | noParent {b : Bool} (hfind : N.find path = (none, b)) (hflags : flags % 4 ≠ 0)
      (hname : slash ∈ path → (splitPath path).2 ≠ []) (hne : (splitPath path).1 ≠ [])
      (hparent : (N.find (splitPath path).1).1 = none) : OpenFails N path flags ENOENT
  | isDirectory {b : Bool} (hfind : N.find path = (none, b)) (hflags : flags % 4 ≠ 0)
      (hname : slash ∈ path ∧ (splitPath path).2 = []) : OpenFails N path flags EISDIR

/-- How the store answers the calls. -/
inductive Serves : Store → Process.Event → Store → Prop
  | start {σ : Store} {stdout : Option Slot} (h : ∀ s, stdout = some s → (σ.file s).isSome = true) :
      Serves σ (.start stdout) { σ with fds := stdHandles stdout }
  | exit {σ : Store} : Serves σ .exit { σ with fds := fun _ => none }
  | readBad {σ : Store} {arg1 arg3 : UInt64} {device : List UInt8}
      (h : ∀ fd, readIndex arg1 = some fd → σ.fds fd = none) :
      Serves σ (.call (.read arg1 arg3 device) (fail Mmu.EBADF)) σ
  | readDevice {σ : Store} {arg1 arg3 : UInt64} {device : List UInt8} {fd : Nat}
      (hfd : readIndex arg1 = some fd)
      (h : σ.fds fd = some .device) :
      Serves σ (.call (.read arg1 arg3 device) { value := device.length, error := 0,
                                                 bytes := device }) σ
  | read {σ : Store} {arg1 arg3 : UInt64} {device bytes : List UInt8} {fd : Nat}
      {d : Descriptor Slot} {f : File UInt8}
      (hfd : readIndex arg1 = some fd) (h : σ.fds fd = some (.file d)) (hf : σ.file d.file = some f)
      (hbytes : bytes = f.read d.rd arg3.toNat) :
      Serves σ (.call (.read arg1 arg3 device) { value := bytes.length, error := 0,
                                                 bytes := bytes })
        (setFd σ fd { d with rd := d.rd + bytes.length })
  | tooBig {σ : Store} {arg1 arg3 : UInt64} {buf : Nat → UInt8} (h : 1024 < arg3.toNat) :
      Serves σ (.call (.write arg1 buf arg3) (fail E2BIG)) σ
  | writeBad {σ : Store} {arg1 arg3 : UInt64} {buf : Nat → UInt8} (hlen : arg3.toNat ≤ 1024)
      (h : σ.fds arg1.toNat = none) : Serves σ (.call (.write arg1 buf arg3) (fail Mmu.EBADF)) σ
  | writeDevice {σ : Store} {arg1 arg3 : UInt64} {buf : Nat → UInt8} (hlen : arg3.toNat ≤ 1024)
      (h : σ.fds arg1.toNat = some .device) :
      Serves σ (.call (.write arg1 buf arg3) { value := arg3.toNat, error := 0 }) σ
  | write {σ : Store} {arg1 arg3 : UInt64} {buf : Nat → UInt8} {d : Descriptor Slot}
      {f : File UInt8}
      (hlen : arg3.toNat ≤ 1024) (h : σ.fds arg1.toNat = some (.file d))
      (hf : σ.file d.file = some f) :
      Serves σ (.call (.write arg1 buf arg3) { value := arg3.toNat, error := 0 })
        (setFd (setFile σ d.file (f.write d.wr ((List.range arg3.toNat).map buf))) arg1.toNat
          { d with wr := d.wr + arg3.toNat })
  | stdin {σ : Store} {path : CString} {arg2 : UInt64} (h : path.chars = Process.stdinPath) :
      Serves σ (.call (.openPath path arg2) { value := 0, error := 0 }) σ
  | openFailed {σ : Store} {path : CString} {arg2 : UInt64} {error : Nat}
      (hpath : path.chars ≠ Process.stdinPath)
      (h : OpenFails σ.names path.chars arg2.toNat error) :
      Serves σ (.call (.openPath path arg2) (fail error)) σ
  | opened {σ : Store} {path : CString} {arg2 : UInt64} {fd : Nat} {s : Slot} {b : Bool}
      (hpath : path.chars ≠ Process.stdinPath) (hfind : σ.names.find path.chars = (some s, b))
      (hb : b = true → σ.names.dir s ≠ none) (hfd : Lowest σ fd) (hs : (σ.file s).isSome = true) :
      Serves σ (.call (.openPath path arg2) { value := fd, error := 0 }) (setFd σ fd { file := s })
  | created {σ : Store} {path : CString} {arg2 : UInt64} {fd d : Nat} {s : Slot} {b : Bool}
      (hpath : path.chars ≠ Process.stdinPath) (hfind : σ.names.find path.chars = (none, b))
      (hflags : arg2.toNat % 4 ≠ 0)
      (hname : slash ∈ path.chars → (splitPath path.chars).2 ≠ [])
      (hparent : σ.names.IsParent (splitPath path.chars).1 d)
      (hfd : Lowest σ fd) (hs : σ.file s = none) :
      Serves σ (.call (.openPath path arg2) { value := fd, error := 0 })
        (setFd (addName (setFile σ s {}) d (splitPath path.chars).2 s) fd { file := s })

theorem Lowest.unique {σ : Store} {fd fd' : Nat} (h : Lowest σ fd)
    (h' : Lowest σ fd') : fd = fd' := by
  rcases Nat.lt_trichotomy fd fd' with hlt | heq | hlt
  · exact absurd (h'.2 fd hlt) (by rw [Option.isNone_iff_eq_none.1 h.1]; exact Bool.false_ne_true)
  · exact heq
  · exact absurd (h.2 fd' hlt) (by rw [Option.isNone_iff_eq_none.1 h'.1]; exact Bool.false_ne_true)

namespace OpenFails

variable {N : Names} {path : List UInt8} {flags error error' : Nat}

theorem not_opened {s : Slot} {b : Bool} (h : OpenFails N path flags error)
    (hfind : N.find path = (some s, b)) :
    b = true ∧ N.dir s = none := by
  cases h with
  | noDirectory hfind' hdir =>
    cases hfind.symm.trans hfind'
    exact ⟨rfl, hdir⟩
  | missing hfind' | noParent hfind' | isDirectory hfind' => cases hfind.symm.trans hfind'

theorem not_created {b : Bool} {d : Nat} (h : OpenFails N path flags error)
    (hfind : N.find path = (none, b))
    (hflags : flags % 4 ≠ 0) (hname : slash ∈ path → (splitPath path).2 ≠ []) :
    ¬ N.IsParent (splitPath path).1 d := by
  cases h with
  | noDirectory hfind' => cases hfind.symm.trans hfind'
  | missing _ hflags' => exact absurd hflags' hflags
  | noParent _ _ _ hne hparent =>
    rintro (⟨hnil, -⟩ | ⟨-, t, b, ht, -⟩)
    · exact hne hnil
    · rw [ht] at hparent
      cases hparent
  | isDirectory _ _ hdir => exact absurd hdir.2 (hname hdir.1)

theorem unique (h : OpenFails N path flags error)
    (h' : OpenFails N path flags error') : error = error' := by
  cases h with
  | noDirectory hfind =>
    cases h' with
    | noDirectory | missing | noParent => rfl
    | isDirectory hfind' => cases hfind.symm.trans hfind'
  | missing _ hflags =>
    cases h' with
    | noDirectory | missing | noParent => rfl
    | isDirectory _ hflags' => exact absurd hflags hflags'
  | noParent _ _ hname =>
    cases h' with
    | noDirectory | missing | noParent => rfl
    | isDirectory _ _ hdir => exact absurd hdir.2 (hname hdir.1)
  | isDirectory hfind hflags hdir =>
    cases h' with
    | isDirectory => rfl
    | noDirectory hfind' => cases hfind.symm.trans hfind'
    | missing _ hflags' => exact absurd hflags' hflags
    | noParent _ _ hname => exact absurd hdir.2 (hname hdir.1)

end OpenFails

/-- The store has one reply for a call. -/
theorem Serves.reply_unique {σ σ₁ σ₂ : Store} {c : Call} {reply reply' : Reply}
    (h : Serves σ (.call c reply) σ₁)
    (h' : Serves σ (.call c reply') σ₂) : reply = reply' := by
  cases h with
  | readBad hbad =>
    cases h' with
    | readBad => rfl
    | readDevice hfd h | read hfd h => cases (hbad _ hfd).symm.trans h
  | readDevice hfd hdev =>
    cases h' with
    | readBad hbad => cases (hbad _ hfd).symm.trans hdev
    | readDevice => rfl
    | read hfd' h =>
      cases hfd.symm.trans hfd'
      cases hdev.symm.trans h
  | read hfd hopen hf hbytes =>
    cases h' with
    | readBad hbad => cases (hbad _ hfd).symm.trans hopen
    | readDevice hfd' hdev =>
      cases hfd.symm.trans hfd'
      cases hopen.symm.trans hdev
    | read hfd' hopen' hf' hbytes' =>
      cases hfd.symm.trans hfd'
      cases hopen.symm.trans hopen'
      cases hf.symm.trans hf'
      rw [hbytes, hbytes']
  | tooBig hbig =>
    cases h' with
    | tooBig => rfl
    | writeBad hlen | writeDevice hlen | write hlen => exact absurd hlen (Nat.not_le_of_lt hbig)
  | writeBad hlen hbad =>
    cases h' with
    | tooBig hbig => exact absurd hlen (Nat.not_le_of_lt hbig)
    | writeBad => rfl
    | writeDevice _ h | write _ h => cases hbad.symm.trans h
  | writeDevice hlen hdev =>
    cases h' with
    | tooBig hbig => exact absurd hlen (Nat.not_le_of_lt hbig)
    | writeBad _ hbad => cases hbad.symm.trans hdev
    | writeDevice | write => rfl
  | write hlen hopen =>
    cases h' with
    | tooBig hbig => exact absurd hlen (Nat.not_le_of_lt hbig)
    | writeBad _ hbad => cases hbad.symm.trans hopen
    | writeDevice | write => rfl
  | stdin hstdin =>
    cases h' with
    | stdin => rfl
    | openFailed hpath | opened hpath | created hpath => exact absurd hstdin hpath
  | openFailed hpath hfails =>
    cases h' with
    | stdin hstdin => exact absurd hstdin hpath
    | openFailed _ hfails' => rw [hfails.unique hfails']
    | opened _ hfind hb =>
      obtain ⟨htrue, hnone⟩ := hfails.not_opened hfind
      exact absurd hnone (hb htrue)
    | created _ hfind hflags hname hparent =>
        exact absurd hparent (hfails.not_created hfind hflags hname)
  | opened hpath hfind hb hfd =>
    cases h' with
    | stdin hstdin => exact absurd hstdin hpath
    | openFailed _ hfails =>
      obtain ⟨htrue, hnone⟩ := hfails.not_opened hfind
      exact absurd hnone (hb htrue)
    | opened _ _ _ hfd' => rw [hfd.unique hfd']
    | created _ hfind' => cases hfind.symm.trans hfind'
  | created hpath hfind hflags hname hparent hfd =>
    cases h' with
    | stdin hstdin => exact absurd hstdin hpath
    | openFailed _ hfails => exact absurd hparent (hfails.not_created hfind hflags hname)
    | opened _ hfind' => cases hfind.symm.trans hfind'
    | created _ _ _ _ _ hfd' => rw [hfd.unique hfd']

/-! ## The calls refine it -/

def OpenFile.handle : OpenFile → Handle Slot
  | .device => .device
  | .file fd => .file { file := fd.fatEntry, rd := fd.rdOff, wr := fd.wrOff }

/-- The names and the regular files of the volume are those of `σ`, and the descriptors are where
those of `σ` are. -/
structure Refines (σ : Store) (st : Process) : Prop where
  wellFormed : st.vol.WellFormed
  named : Named σ.names st.vol
  file : ∀ s, (σ.file s).isSome = true ↔ st.vol.Live s ∧ ¬ st.vol.IsDirectory s
  stored : ∀ s f, σ.file s = some f → Stored st.vol s f
  fds : ∀ i, σ.fds i = (st.opened i).map OpenFile.handle
  placed : ∀ i fd, st.opened i = some (.file fd) → ∃ f l pos, σ.file fd.fatEntry = some f ∧
    st.vol.EntryChain fd.fatEntry l ∧
    Placed st.vol fd f l pos

variable {σ : Store} {N : Names} {st st' : Process} {fd fd' : FileDescriptor} {s : Slot}
  {o : Option Slot} {i : Nat} {v' : Volume}
  {l ext : List Nat} {f : File UInt8} {file : OpenFile}

theorem Process.opened_set (hi : i < st.files.length) (j : Nat) :
    Process.opened { st with files := st.files.set i (some file) } j = if j = i then some file else
      st.opened j := by
  rw [opened, opened]
  dsimp only
  by_cases hj : j = i
  · subst hj
    rw [List.getElem?_set_self hi, if_pos rfl, Option.join_some]
  · rw [List.getElem?_set_ne (Ne.symm hj), if_neg hj]

theorem Process.lt_of_opened (h : st.opened i = some file) : i < st.files.length := by
  by_contra hle
  rw [opened, List.getElem?_eq_none (Nat.le_of_not_lt hle)] at h
  cases h

/-- `AllocateFD` gives the first place that is not in use. -/
theorem allocateFD_spec (files : List (Option OpenFile)) :
    (Process.allocateFD files).1 < (Process.allocateFD files).2.length ∧
    (∀ j : Nat, (Process.allocateFD files).2[j]?.join = files[j]?.join) ∧
    files[(Process.allocateFD files).1]?.join = none ∧
    ∀ j, j < (Process.allocateFD files).1 → (files[j]?.join).isSome = true := by
  rw [Process.allocateFD]
  cases hfind : files.findIdx? Option.isNone with
  | some i =>
    obtain ⟨hi, hnone, hbefore⟩ := List.findIdx?_eq_some_iff_getElem.1 hfind
    refine ⟨hi, fun _ => rfl, ?_, fun j hj => ?_⟩
    · rw [List.getElem?_eq_getElem hi, Option.join_some]
      exact Option.isNone_iff_eq_none.1 hnone
    · rw [List.getElem?_eq_getElem (Nat.lt_trans hj hi), Option.join_some]
      simpa [Option.isSome_iff_ne_none] using hbefore j hj
  | none =>
    have hall := List.findIdx?_eq_none_iff.1 hfind
    refine ⟨by simp, fun j => ?_, ?_, fun j hj => ?_⟩
    · rcases Nat.lt_trichotomy j files.length with hj | rfl | hj
      · rw [List.getElem?_append_left hj]
      · simp
      · rw [List.getElem?_eq_none (by rw [List.length_append]; exact hj),
          List.getElem?_eq_none (Nat.le_of_lt hj)]
    · rw [List.getElem?_eq_none (Nat.le_refl _), Option.join_none]
    · rw [List.getElem?_eq_getElem hj, Option.join_some]
      simpa using hall _ (List.getElem_mem hj)

/-- The call comes to its end, and a reply of the files of bytes is the one it gives. -/
def Answered (σ : Store) (st : Process) (c : Call) : Prop :=
  ∃ reply st' σ', st.call c = some (reply, st') ∧ Serves σ (.call c reply) σ' ∧ Refines σ' st'

namespace Refines

theorem set (h : Refines σ st) (hi : i < st.files.length) {pos : Nat}
    (hf : σ.file fd.fatEntry = some f)
    (hl : st.vol.EntryChain fd.fatEntry l) (hp : Placed st.vol fd f l pos) :
    Refines (setFd σ i { file := fd.fatEntry, rd := fd.rdOff, wr := fd.wrOff })
      { st with files := st.files.set i (some (.file fd)) } := by
  refine ⟨h.wellFormed, h.named, h.file, h.stored, fun j => ?_, fun j fd' hj => ?_⟩
  · rw [Process.opened_set hi]
    by_cases hji : j = i
    · subst hji
      rw [if_pos rfl]
      exact Function.update_self ..
    · rw [if_neg hji]
      exact (Function.update_of_ne hji ..).trans (h.fds j)
  · rw [Process.opened_set hi] at hj
    split at hj
    · cases hj
      exact ⟨f, l, pos, hf, hl, hp⟩
    · exact h.placed j fd' hj

theorem grown (h : Refines σ st) (hg : Grows st.vol v' s o l ext) (hN : Named N v')
    (hstored : Stored v' s f)
    (hown : ∀ f', σ.file s = some f' → f'.bytes.length ≤ f.bytes.length ∧ st.vol.EntryChain s l ∧
    v'.EntryChain s (l ++ ext)) :
    Refines { setFile σ s f with names := N } { st with vol := v' } := by
  have hk := Mounted.OthersKept.of_grows hg h.wellFormed
  have hB := hg.extend.bytesPerCluster
  refine ⟨hg.wellFormed h.wellFormed, hN, fun t => ?_, fun t f' ht => ?_, h.fds, fun i fd hfd => ?_⟩
  · show (Function.update σ.file s (some f) t).isSome = true ↔ v'.Live t ∧ ¬ v'.IsDirectory t
    by_cases hne : t = s
    · subst hne
      rw [Function.update_self]
      exact ⟨fun _ => ⟨(hk.live t).2 (.inr rfl), hg.regular⟩, fun _ => rfl⟩
    · rw [Function.update_of_ne hne, h.file, hk.live, or_iff_left hne]
      exact and_congr_right fun ht => not_congr (hk.entries t ht hne).isDirectory.symm
  · by_cases hne : t = s
    · subst hne
      cases (Function.update_self ..).symm.trans ht
      exact hstored
    · have ht : σ.file t = some f' := (Function.update_of_ne hne ..).symm.trans ht
      obtain ⟨hlive, hreg⟩ := (h.file t).1 (by rw [ht]; rfl)
      obtain ⟨m, hm⟩ := h.wellFormed.chain t hlive
      exact (h.stored t f' ht).other hm (hk.files t m hlive hne hreg hm).1 hB
        (hk.entries t hlive hne).fileSize fun c hc =>
        hg.files t m c hlive hne hreg hm hc
  · obtain ⟨f', m, pos, hf', hm, hp⟩ := h.placed i fd hfd
    by_cases hne : fd.fatEntry = s
    · obtain ⟨hle, hl, hl'⟩ := hown f' (hne ▸ hf')
      obtain rfl := hm.unique (hne ▸ hl)
      refine ⟨f, m ++ ext, pos, ?_, hne ▸ hl', hp.append hB hle⟩
      exact hne ▸ Function.update_self ..
    · obtain ⟨hlive, hreg⟩ := (h.file _).1 (by rw [hf']; rfl)
      have hp' : Placed v' fd f' (m ++ []) pos := hp.append hB (Nat.le_refl _)
      refine ⟨f', m, pos, ?_, (hk.files _ m hlive hne hreg hm).1, List.append_nil m ▸ hp'⟩
      exact (Function.update_of_ne hne ..).trans hf'

theorem fds_none (h : Refines σ st) (hi : st.opened i = none) : σ.fds i = none := by
  rw [h.fds, hi, Option.map_none]

theorem fds_some (h : Refines σ st) (hi : st.opened i = some file) :
    σ.fds i = some file.handle := by
  rw [h.fds, hi, Option.map_some]

theorem read {arg1 arg3 : UInt64} {device : List UInt8} (h : Refines σ st)
    (hok : st.Allowed (.read arg1 arg3 device)) :
    Answered σ st (.read arg1 arg3 device) := by
  rw [Answered, Process.call, Process.read]
  cases hfd : readIndex arg1 with
  | none => exact ⟨_, _, σ, rfl, .readBad (fun fd hfd' => by cases hfd.symm.trans hfd'), h⟩
  | some i =>
    dsimp only
    cases hopen : st.opened i with
    | none =>
      have hbad : ∀ fd, readIndex arg1 = some fd → σ.fds fd = none := fun fd hfd' => by
        cases hfd.symm.trans hfd'
        exact h.fds_none hopen
      exact ⟨_, _, σ, rfl, .readBad hbad, h⟩
    | some file =>
      cases file with
      | device => exact ⟨_, _, σ, rfl, .readDevice hfd (h.fds_some hopen), h⟩
      | file fd =>
        obtain ⟨f, l, pos, hf, hl, hp⟩ := h.placed i fd hopen
        have hs := h.stored _ f hf
        have hlive := ((h.file fd.fatEntry).1 (by rw [hf]; rfl)).1
        obtain ⟨bytes, touched, fd', hrun, -, hbytes, -, hreader, hfd', hrd, -⟩ :=
          read_spec (h.wellFormed.fileAt hlive hl)
          (h.wellFormed.size _ l hlive hl) rfl hp.reader (hok i fd hfd hopen)
        obtain ⟨hentry, hwrOff, hwriter, hoff⟩ : fd'.fatEntry = fd.fatEntry ∧ fd'.wrOff = fd.wrOff ∧
            WriterAt st.vol fd' l pos ∧ fd'.wrClusterOff = fd.wrClusterOff := by
          rw [hfd']
          exact ⟨rfl, rfl, ⟨hp.writer.place, hp.writer.off_le, hp.writer.wrOff_le⟩, rfl⟩
        have hp' : Placed st.vol fd' f l pos := by
          refine ⟨hreader, hwriter, ?_, ?_⟩
          · rw [hwrOff, hoff]
            exact hp.place
          · rw [hwrOff]
            exact hp.wrOff_le
        have hserves : Serves σ (.call (.read arg1 arg3 device) _) _ :=
          .read hfd (h.fds_some hopen) hf (hs.contents hl ▸ hbytes)
        have hset := h.set (Process.lt_of_opened hopen) (hentry.symm ▸ hf) (hentry.symm ▸ hl) hp'
        rw [hentry, hrd, hwrOff] at hset
        exact ⟨_, _, _, congrArg (Option.map _) hrun, hserves, hset⟩

theorem write {arg1 arg3 : UInt64} {buf : Nat → UInt8} (h : Refines σ st)
    (hok : st.Allowed (.write arg1 buf arg3)) :
    Answered σ st (.write arg1 buf arg3) := by
  rw [Answered, Process.call, Process.write]
  by_cases hbig : 1024 < arg3.toNat
  · rw [if_pos hbig]
    exact ⟨_, _, σ, rfl, .tooBig hbig, h⟩
  rw [if_neg hbig]
  have hlen := Nat.le_of_not_lt hbig
  cases hopen : st.opened arg1.toNat with
  | none => exact ⟨_, _, σ, rfl, .writeBad hlen (h.fds_none hopen), h⟩
  | some file =>
    cases file with
    | device => exact ⟨_, _, σ, rfl, .writeDevice hlen (h.fds_some hopen), h⟩
    | file fd =>
      obtain ⟨f, l, pos, hf, hl, hp⟩ := h.placed _ fd hopen
      have hs := h.stored _ f hf
      obtain ⟨hlive, hreg⟩ := (h.file fd.fatEntry).1 (by rw [hf]; rfl)
      obtain ⟨r, ext, pos₁, pos₂, hrun, htotal, -, hwr, hstored, hp'⟩ :=
        hs.write (h.wellFormed.fileAt hlive hl) hp (hok fd hopen) buf
      have hg := hwr.grows h.wellFormed hlive hreg hl
      have hhead : SameHead st.vol r.vol fd.fatEntry := fun i hi => hwr.entry _ (.inl (by omega))
      have hgrown := h.grown hg (h.named.write h.wellFormed hg hhead) hstored fun f' hf' => by
        cases hf.symm.trans hf'
        refine ⟨?_, hl, hwr.file.chain⟩
        rw [File.length_write hp.wrOff_le]
        exact Nat.le_max_left _ _
      have hi := Process.lt_of_opened hopen
      have hfile : (setFile σ fd.fatEntry (f.write fd.wrOff ((List.range arg3.toNat).map buf))).file
          r.fd.fatEntry =
          some (f.write fd.wrOff ((List.range arg3.toNat).map buf)) := by
        rw [hwr.fatEntry]
        exact Function.update_self ..
      have hset := hgrown.set hi hfile (hwr.fatEntry.symm ▸ hwr.file.chain) hp'
      rw [hwr.fatEntry, hwr.reader.1, hwr.wrOff, htotal] at hset
      have hserves : Serves σ (.call (.write arg1 buf arg3) _) _ :=
        .write hlen (h.fds_some hopen) hf
      refine ⟨{ value := arg3.toNat, error := 0 }, _, _, ?_, hserves, hset⟩
      dsimp only
      rw [hrun, Option.map_some, htotal]

theorem install (h : Refines σ st) (hs : (σ.file s).isSome = true) : ∃ fd st', Lowest σ fd ∧
    st.install s = ({ value := fd, error := 0 }, st') ∧ Refines (setFd σ fd { file := s }) st' := by
  obtain ⟨hlt, hsame, hnone, hbefore⟩ := allocateFD_spec st.files
  have hopened : ∀ j, Process.opened { st with files := (Process.allocateFD st.files).2 } j =
    st.opened j := hsame
  have hfiles : Refines σ { st with files := (Process.allocateFD st.files).2 } :=
    ⟨h.wellFormed, h.named, h.file, h.stored, fun i => (hopened i).symm ▸ h.fds i,
      fun i fd hi => h.placed i fd ((hopened i).symm.trans hi)⟩
  obtain ⟨f, hf⟩ := Option.isSome_iff_exists.1 hs
  obtain ⟨l, hl⟩ := h.wellFormed.chain s ((h.file s).1 hs).1
  have hp : Placed st.vol { fatEntry := s } f l 0 := .fresh _ _ _ _
  refine ⟨(Process.allocateFD st.files).1, _, ⟨?_, fun j hj => ?_⟩, rfl, hfiles.set hlt hf hl hp⟩
  · rw [h.fds_none hnone]
    rfl
  · rw [h.fds, Option.isSome_map]
    exact hbefore j hj

theorem created {path : CString} {d : Nat} {b : Bool} (h : Refines σ st)
    (hpath : Walkable path.chars)
    (hfind : σ.names.find path.chars = (none, b))
    (hname : slash ∈ path.chars → (splitPath path.chars).2 ≠ [])
    (hparent : st.vol.parentDir (splitPath path.chars).1 = some (.ok d))
    (hok : Process.Creates st.vol path.chars)
    (hrun : st.vol.createFile path.chars = some (.ok (v', s))) : σ.file s = none ∧
      σ.names.IsParent (splitPath path.chars).1 d ∧
      Refines (addName (setFile σ s {}) d (splitPath path.chars).2 s) { st with vol := v' } := by
  obtain ⟨d', v₁, hparent', halloc, rfl⟩ := createFile_ok hrun
  cases hparent.symm.trans hparent'
  obtain ⟨hd, hnameOk, hclear⟩ := hok.ok d hparent
  obtain ⟨l, hl⟩ := h.wellFormed.dirChain hd
  obtain ⟨ext, ha⟩ := (allocateEntry_spec h.wellFormed hl).1 v₁ s halloc
  have hnul := not_mem_filename path.noNul
  obtain ⟨o, ho, hg⟩ :=
    ha.grows h.wellFormed hd hl hnul hnameOk (ha.clear h.wellFormed fun hf => hclear l s hl hf)
  have hnone : σ.file s = none := Option.not_isSome_iff_eq_none.1 fun hs =>
    ha.not_live ((h.file s).1 hs).1
  obtain ⟨hisParent, hentry⟩ :=
    h.named.isParent h.wellFormed hpath hname (congrArg Prod.fst hfind) hok.noPostSlash hd hparent
  have hlookup : st.vol.lookup l (splitPath path.chars).2 = none := by
    have hdel := hpath.filename_noDeleted hname
    rwa [h.named.entry d l _ hd hl hdel] at hentry
  have hN := h.named.create h.wellFormed hd hl ha hg ho hnul hlookup hok.sameName
  refine ⟨hnone, hisParent, h.grown hg hN (.fresh setEntry_fileSize) fun f' hf' => ?_⟩
  cases hnone.symm.trans hf'

theorem openMissing {path : CString} {arg2 : UInt64} {b : Bool} (h : Refines σ st)
    (hstdin : path.chars ≠ Process.stdinPath)
    (hpath : Walkable path.chars) (hfind : σ.names.find path.chars = (none, b))
    (hflags : arg2.toNat % 4 ≠ 0)
    (hroom : EntryFits st.vol path.chars)
    (hcreates : ∀ d, st.vol.parentDir (splitPath path.chars).1 = some (.ok d) →
    Process.Creates st.vol path.chars) :
    ∃ reply st' σ', (st.vol.createFile path.chars).map st.openCreated = some (reply, st') ∧
      Serves σ (.call (.openPath path arg2) reply) σ' ∧ Refines σ' st' := by
  obtain ⟨r, hrun⟩ := exists_createFile h.wellFormed hpath hroom
  by_cases hdir : slash ∈ path.chars ∧ (splitPath path.chars).2 = []
  · rw [createFile_isDirectory hdir] at hrun ⊢
    exact ⟨_, _, σ, rfl, .openFailed hstdin (.isDirectory hfind hflags hdir), h⟩
  have hname : slash ∈ path.chars → (splitPath path.chars).2 ≠ [] :=
    fun hmem hnil => hdir ⟨hmem, hnil⟩
  rw [hrun, Option.map_some]
  obtain ⟨err | d, hparent⟩ := hpath.exists_parentDir h.wellFormed hname
  · obtain ⟨rfl, hne, hnone⟩ := h.named.noParent h.wellFormed hpath hname hparent
    rw [createFile_of_filename hname, hparent] at hrun
    cases hrun
    exact ⟨_, _, σ, rfl, .openFailed hstdin (.noParent hfind hflags hname hne hnone), h⟩
  · rcases r with err | ⟨v', s⟩
    · exact absurd hrun (createFile_ne_error hname hparent)
    obtain ⟨hnone, hisParent, hcreated⟩ :=
      h.created hpath hfind hname hparent (hcreates d hparent) hrun
    have hs : ((addName (setFile σ s {}) d (splitPath path.chars).2 s).file s).isSome = true := by
      rw [show (addName (setFile σ s {}) d (splitPath path.chars).2 s).file s = some {} from
        Function.update_self ..]
      rfl
    obtain ⟨fd, st', hlow, hinstall, hrefines⟩ := hcreated.install hs
    exact ⟨_, _, _, congrArg some hinstall, .created hstdin hfind hflags hname hisParent hlow hnone,
      hrefines⟩

theorem openPath {path : CString} {arg2 : UInt64} (h : Refines σ st)
    (hok : st.Allowed (.openPath path arg2)) :
    Answered σ st (.openPath path arg2) := by
  rw [Answered, Process.call, Process.openPath]
  by_cases hstdin : path.chars = Process.stdinPath
  · rw [if_pos hstdin]
    exact ⟨_, _, σ, rfl, .stdin hstdin, h⟩
  rw [if_neg hstdin]
  obtain ⟨hpath, hfile, hcreate⟩ := hok hstdin
  obtain ⟨hfind, hlisted⟩ := h.named.findFile h.wellFormed hpath
  rcases hN : σ.names.find path.chars with ⟨_ | s, postSlash⟩ <;> rw [hN] at hfind hlisted <;>
    rw [hfind, Option.bind_some]
  · dsimp only
    by_cases hflags : arg2.toNat % 4 = 0
    · rw [if_pos hflags]
      exact ⟨_, _, σ, rfl, .openFailed hstdin (.missing hN hflags), h⟩
    · rw [if_neg hflags]
      obtain ⟨hroom, hcreates⟩ := hcreate postSlash hfind hflags
      exact h.openMissing hstdin hpath hN hflags hroom hcreates
  · have hdir := h.named.dir s (hlisted s rfl)
    have hattr : σ.names.dir s = none ↔ st.vol.attr s ≠ kDirectory := by
      rw [hdir, dirOf]
      by_cases ha : st.vol.attr s = kDirectory
      · rw [if_pos ha]
        exact iff_of_false (Option.some_ne_none _) (not_not_intro ha)
      · rw [if_neg ha]
        exact iff_of_true rfl ha
    dsimp only
    by_cases hslash : st.vol.attr s ≠ kDirectory ∧ postSlash = true
    · rw [if_pos hslash]
      exact ⟨_, _, σ, rfl, .openFailed hstdin (.noDirectory (hslash.2 ▸ hN) (hattr.2 hslash.1)), h⟩
    · rw [if_neg hslash]
      have hs := (h.file s).2 (hfile s postSlash hfind)
      obtain ⟨fd, st', hlow, hinstall, hrefines⟩ := h.install hs
      have hb : postSlash = true → σ.names.dir s ≠ none :=
        fun hb hnone => hslash ⟨hattr.1 hnone, hb⟩
      exact ⟨_, _, _, congrArg some hinstall, .opened hstdin hN hb hlow hs, hrefines⟩

theorem answered {c : Call} (h : Refines σ st) (hok : st.Allowed c) : Answered σ st c := by
  cases c with
  | read arg1 arg3 device => exact h.read hok
  | write arg1 buf arg3 => exact h.write hok
  | openPath path arg2 => exact h.openPath hok

theorem start {stdout : Option Slot} (h : Refines σ st)
    (hs : ∀ s, stdout = some s → st.vol.Live s ∧ ¬ st.vol.IsDirectory s) :
    Refines { σ with fds := stdHandles stdout } { st with files := Process.stdFiles stdout } := by
  refine ⟨h.wellFormed, h.named, h.file, h.stored, fun i => ?_, fun i fd hi => ?_⟩
  · rcases i with _ | _ | _ | i
    · rfl
    · cases stdout <;> rfl
    · rfl
    · have hnone : stdHandles stdout (i + 3) = none := by
        rw [stdHandles, if_neg (show ¬ i + 3 = 1 by omega), if_neg (show ¬ i + 3 < 3 by omega)]
      exact hnone
  · obtain ⟨rfl, s, rfl, rfl⟩ : i = 1 ∧ ∃ s, stdout = some s ∧ fd = { fatEntry := s } := by
      rw [Process.opened, Process.stdFiles] at hi
      rcases i with _ | _ | _ | i
      · cases hi
      · cases stdout with
        | none => cases hi
        | some s =>
          cases hi
          exact ⟨rfl, s, rfl, rfl⟩
      · cases hi
      · cases hi
    obtain ⟨f, hf⟩ := Option.isSome_iff_exists.1 ((h.file s).2 (hs s rfl))
    obtain ⟨l, hl⟩ := h.wellFormed.chain s (hs s rfl).1
    exact ⟨f, l, 0, hf, hl, .fresh _ _ _ _⟩

theorem step {e : Process.Event} (h : Refines σ st) (hstep : st.Step e st') :
    ∃ σ', Serves σ e σ' ∧ Refines σ' st' := by
  cases e with
  | start stdout =>
    obtain ⟨-, hs, rfl⟩ := hstep
    exact ⟨_, .start fun s hstdout => (h.file s).2 (hs s hstdout), h.start hs⟩
  | call c reply =>
    obtain ⟨hok, hcall⟩ := hstep
    obtain ⟨reply', st'', σ', hcall', hserves, hrefines⟩ := h.answered hok
    cases hcall.symm.trans hcall'
    exact ⟨σ', hserves, hrefines⟩
  | exit =>
    cases hstep
    have hnone : ∀ i, Process.opened { st with files := [] } i = none := fun i => rfl
    exact ⟨_, .exit, h.wellFormed, h.named, h.file, h.stored, fun i => by rw [hnone]; rfl,
      fun i fd hi => by cases (hnone i).symm.trans hi⟩

end Refines

/-- A volume is a store of files. -/
theorem exists_refines {v : Volume} (hwf : v.WellFormed) : ∃ σ, Refines σ { vol := v } := by
  classical
  have hfile : ∀ s, ∃ o : Option (File UInt8), (o.isSome = true ↔ v.Live s ∧ ¬ v.IsDirectory s) ∧
    ∀ f, o = some f → Stored v s f := by
    intro s
    by_cases hs : v.Live s ∧ ¬ v.IsDirectory s
    · obtain ⟨l, hl⟩ := hwf.chain s hs.1
      have hstored := Stored.of_contents hl (hwf.size s l hs.1 hl)
      exact ⟨some _, iff_of_true rfl hs, fun f hf => Option.some.inj hf ▸ hstored⟩
    · exact ⟨none, iff_of_false (by decide) hs, fun f hf => by cases hf⟩
  choose file hsome hstored using hfile
  exact ⟨⟨⟨file, fun _ => none⟩, v.names⟩, hwf, Volume.named hwf, hsome, hstored, fun _ => rfl,
    fun i fd hi => by cases hi⟩

/-- Whatever an application calls, the replies are those of a store of files, the files on the
volume hold what those of the store do, and the next call comes to its end with the only reply that
the store has for it. -/
theorem files_refine {v : Volume} (hwf : v.WellFormed) {es : List Process.Event} {st : Process}
    (hrun : Run Process.Step { vol := v } es st) :
    ∃ σ σ', Refines σ { vol := v } ∧ Run Serves σ es σ' ∧ st.vol.WellFormed ∧
      (∀ s f l, σ'.file s = some f → st.vol.EntryChain s l → st.vol.contents s l = f.contents) ∧
      ∀ c, st.Allowed c → ∃ reply st', st.call c = some (reply, st') ∧
        (∃ σ₁, Serves σ' (.call c reply) σ₁) ∧
        ∀ reply' σ₁, Serves σ' (.call c reply') σ₁ → reply' = reply := by
  obtain ⟨σ, hσ⟩ := exists_refines hwf
  obtain ⟨σ', hserves, hσ'⟩ := hrun.simulate (fun _ _ _ _ hσ hstep => hσ.step hstep) hσ
  refine ⟨σ, σ', hσ, hserves, hσ'.wellFormed, fun s f l hf hl => (hσ'.stored s f hf).contents hl,
    fun c hok => ?_⟩
  obtain ⟨reply, st', σ₁, hcall, hserves, -⟩ := hσ'.answered hok
  exact ⟨reply, st', hcall, ⟨σ₁, hserves⟩, fun _ _ h => h.reply_unique hserves⟩

/-- `a` -/
def pathOfA : CString := ⟨[0x61], by decide⟩

/-- An application opens the file `A` and reads two bytes. -/
theorem files_refine_oneFile : ∃ st σ σ', Run Process.Step { vol := oneFile } [.start none,
      .call (.openPath pathOfA 0) { value := 3, error := 0 },
        .call (.read 3 2 []) { value := 2, error := 0, bytes := [0, 0] }] st ∧
    Refines σ { vol := oneFile } ∧
      Run Serves σ [.start none, .call (.openPath pathOfA 0) { value := 3, error := 0 },
      .call (.read 3 2 []) { value := 2, error := 0, bytes := [0, 0] }] σ' := by
  have hfind : oneFile.findFile pathOfA.chars = some (some ⟨2, 0⟩, false) := by decide +kernel
  let st₁ : Process := { vol := oneFile, files := Process.stdFiles none }
  let st₂ : Process :=
    { vol := oneFile, files := Process.stdFiles none ++ [some (.file { fatEntry := ⟨2, 0⟩ })] }
  have hstart : Process.Step { vol := oneFile } (.start none) st₁ :=
    ⟨rfl, (fun s hs => by cases hs), rfl⟩
  have hopen : Process.Step st₁ (.call (.openPath pathOfA 0) { value := 3, error := 0 }) st₂ := by
    refine ⟨fun _ => ⟨⟨by decide, by decide⟩, fun s b hs => ?_, fun b hs => by
      cases hfind.symm.trans hs⟩, ?_⟩
    · cases hfind.symm.trans hs
      exact ⟨oneFile_live, by decide +kernel⟩
    · rw [Process.call, Process.openPath, if_neg (by decide), hfind, Option.bind_some]
      have hinstall : st₁.install ⟨2, 0⟩ = ({ value := 3, error := 0 }, st₂) := rfl
      exact (if_neg (by simp)).trans (congrArg some hinstall)
  obtain ⟨⟨bytes, touched, fd⟩, hread, rfl⟩ : ∃ r,
    FileDescriptor.read oneFile { fatEntry := ⟨2, 0⟩ } 2 = some r ∧ r.1 = [0, 0] :=
    Option.map_eq_some_iff.1 (by decide +kernel)
  have hcall : Process.Step st₂ (.call (.read 3 2 []) { value := 2, error := 0, bytes := [0, 0] })
      { st₂ with files := st₂.files.set 3 (some (.file fd)) } := by
    have hindex : readIndex 3 = some 3 := by decide
    have hopened : st₂.opened 3 = some (.file { fatEntry := ⟨2, 0⟩ }) := rfl
    refine ⟨fun i file hi hfile => ?_, ?_⟩
    · cases hindex.symm.trans hi
      cases hopened.symm.trans hfile
      decide +kernel
    · rw [Process.call, Process.read, hindex]
      dsimp only
      rw [hopened]
      exact congrArg (Option.map _) hread
  have hrun := Run.cons hstart (.cons hopen (.single hcall))
  obtain ⟨σ, σ', hσ, hserves, -⟩ := files_refine oneFile_wellFormed hrun
  exact ⟨_, σ, σ', hrun, hσ, hserves⟩

end Moxia.Syscall
