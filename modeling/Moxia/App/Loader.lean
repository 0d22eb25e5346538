import Moxia.Lib.Run
import Moxia.Paging.Mmu

/-!
# Loading an application (`elf.hpp`, `LoadELF`) and `syscall::read`

An image is what the file's buffer holds, by offset. The loader does not look at the size of the
file, so that an image also tells what lies behind the buffer's end.
-/

namespace Moxia

open Lib

def ET_EXEC : Nat := 2
def PT_LOAD : Nat := 1

/-- `Elf64_Phdr` -/
structure Elf64Phdr where
  pType : Nat
  pOffset : Nat
  pVaddr : Nat
  pFilesz : Nat
  pMemsz : Nat
deriving DecidableEq

abbrev ElfImage := Nat → UInt8

namespace ElfImage

/-- A number of `n` bytes. Pointers into the image are taken modulo `2 ^ 64`. -/
def field (image : ElfImage) (offset n : Nat) : Nat := loadLE (fun o => image (o % 2 ^ 64)) offset n

/-- `memcmp(e_ident, "\x7f" "ELF", 4) == 0` -/
def isElf (image : ElfImage) : Bool :=
  image 0 = 0x7f ∧ image 1 = 0x45 ∧ image 2 = 0x4c ∧ image 3 = 0x46

def eType (image : ElfImage) : Nat := image.field 16 2
def eEntry (image : ElfImage) : Nat := image.field 24 8
def ePhoff (image : ElfImage) : Nat := image.field 32 8
def ePhnum (image : ElfImage) : Nat := image.field 56 2

def headerAt (image : ElfImage) (offset : Nat) : Elf64Phdr :=
  { pType := image.field offset 4, pOffset := image.field (offset + 8) 8,
    pVaddr := image.field (offset + 16) 8,
    pFilesz := image.field (offset + 32) 8, pMemsz := image.field (offset + 40) 8 }

/-- `GetProgramHeader(ehdr)[i]` -/
def programHeader (image : ElfImage) (i : Nat) : Elf64Phdr := image.headerAt (image.ePhoff + 56 * i)

def programHeaders (image : ElfImage) : List Elf64Phdr :=
  (List.range image.ePhnum).map image.programHeader

def getFirstLoadAddress (image : ElfImage) : Nat :=
  match image.programHeaders.find? fun phdr => phdr.pType = PT_LOAD with
  | some phdr => phdr.pVaddr
  | none => 0

/-- `n` bytes of the file, from `offset` on. -/
def bytes (image : ElfImage) (offset n : Nat) : List UInt8 := (List.range n).map fun k =>
    image ((offset + k) % 2 ^ 64)

end ElfImage

namespace Mmu

/-- `num_4kpages` -/
def loadPages (phdr : Elf64Phdr) : Nat := (phdr.pMemsz + 4095) % 2 ^ 64 / 4096

/-- What `CopyLoadSegments` does with a header of type `PT_LOAD`. -/
def copyLoadSegment (image : ElfImage) (phdr : Elf64Phdr) (st : Mmu) : Result Unit :=
  Result.andThen (st.setupPageMaps ⟨phdr.pVaddr⟩ (loadPages phdr)) fun _ st =>
    let zeros := List.replicate ((phdr.pMemsz + 2 ^ 64 - phdr.pFilesz) % 2 ^ 64) 0
    (st.store phdr.pVaddr (image.bytes phdr.pOffset phdr.pFilesz)).bind fun st =>
      (st.store ((phdr.pVaddr + phdr.pFilesz) % 2 ^ 64) zeros).map fun st => (.ok (), st)

/-- The loop of `CopyLoadSegments`. -/
def copyLoadSegments (image : ElfImage) : List Elf64Phdr → Mmu → Result Unit
  | [], st => some (.ok (), st)
  | phdr :: phdrs, st =>
    if phdr.pType ≠ PT_LOAD then copyLoadSegments image phdrs st
    else Result.andThen (copyLoadSegment image phdr st) fun _ st => copyLoadSegments image phdrs st

def loadELF (image : ElfImage) (st : Mmu) : Result Unit :=
  if image.eType ≠ ET_EXEC then some (.error .kInvalidFormat, st)
  else if image.getFirstLoadAddress < 0xffff800000000000 then some (.error .kInvalidFormat, st)
  else copyLoadSegments image image.programHeaders st

/-- `SetupPML4`, but for the task's context. -/
def setupPML4 (st : Mmu) : Result Nat :=
  Result.andThen st.newPageMap fun pml4 st =>
    if identityFrames ≤ st.cr3 then none
    else
      let mem := Function.update st.mem pml4 (Lib.store (st.mem pml4) 0 (256 * 8) (st.mem st.cr3))
      some (.ok pml4, { st with mem := mem, cr3 := pml4 })

/-! ## The running application -/

/-- `args_frame_addr` and `stack_frame_addr` of `ExecuteFile`. -/
def argsFrameAddr : LinearAddress4Level := ⟨0xfffffffffffff000⟩
def stackFrameAddr : LinearAddress4Level := ⟨0xffffffffffffe000⟩

/-- `task.Files()`. An open file is given by the bytes that its `Read` puts into a buffer of a given
length. -/
abbrev Files := List (Option (Nat → List UInt8))

/-- `syscall::Result` -/
structure SyscallResult where
  value : Nat
  error : Nat
deriving DecidableEq

def EBADF : Nat := 9

/-- `task.Files()[fd]`, unless `fd < 0 || task.Files().size() <= fd || !task.Files()[fd]` -/
def openFile (files : Files) (arg1 : UInt64) : Option (Nat → List UInt8) :=
  let fd := (BitVec.ofNat 32 arg1.toNat).toInt
  if fd < 0 ∨ files.length ≤ fd.toNat then none else files[fd.toNat]?.join

/-- What goes into the buffer of the application. -/
def readBytes (files : Files) (arg1 arg3 : UInt64) : List UInt8 :=
  match openFile files arg1 with
  | some read => read arg3.toNat
  | none => []

/-- `syscall::read`; it does not return after a fault. -/
def read (st : Mmu) (files : Files) (arg1 arg2 arg3 : UInt64) : Mmu × Option SyscallResult :=
  match openFile files arg1 with
  | none => (st, some ⟨0, EBADF⟩)
  | some read => match st.storeBytes arg2.toNat (read arg3.toNat) with
    | (st, true) => (st, some ⟨(read arg3.toNat).length, 0⟩)
    | (st, false) => (st, none)

/-- What happens to memory from the end of `LoadELF` to the end of the application. -/
inductive AppEvent
  | argsPage
  | stackPage
  /-- A byte is written with the rights of the application: by itself, or to its page of
  arguments. -/
  | store (vaddr : UInt64) (b : UInt8)
  | read (files : Files) (arg1 arg2 arg3 : UInt64)

/-- `MakeArgVector` and `CallApp` go on from `st` to `st'`. A `read` that faults has written up to
the fault; nothing needs to be known of it but that. -/
inductive AppStep : Mmu → AppEvent → Mmu → Prop
  | argsPage {st st' : Mmu} (h : st.setupPageMaps argsFrameAddr 1 = some (.ok (), st')) :
      AppStep st .argsPage st'
  | stackPage {st st' : Mmu} (h : st.setupPageMaps stackFrameAddr 1 = some (.ok (), st')) :
      AppStep st .stackPage st'
  | store {st : Mmu} {vaddr : UInt64} {b : UInt8} {frame offset : Nat}
      (h : st.translate true vaddr.toNat = some (frame, offset)) :
      AppStep st (.store vaddr b) (st.poke frame offset b)
  | read {st st' : Mmu} {files : Files} {arg1 arg2 arg3 : UInt64} {result : Option SyscallResult}
      (h : st.read files arg1 arg2 arg3 = (st', result)) :
      AppStep st (.read files arg1 arg2 arg3) st'

end Mmu

end Moxia
