import Moxia.App.ExecuteFile
import Moxia.Lib.Log

/-!
# The buffer of a file

`file_buf` of `ExecuteFile` is memory like any other, and each header is read from there when it is
needed: also after segments have been copied. Here is the same code as in `Loader` and `ExecuteFile`
with the reads where the source has them, and with a log of what is read of the buffer and with
which lengths memory is written.
-/

namespace Moxia

open Lib

/-- What the loader does with the buffer of the file and with memory. -/
inductive Access
  /-- `n` bytes of the buffer are read, from `offset` on. -/
  | read (offset n : Nat)
  /-- `SetupPageMaps` is called. -/
  | map (num4kpages : Nat)
  /-- `memcpy` of `n` bytes of the buffer, from `offset` on -/
  | copy (offset n : Nat)
  /-- `memset` of `n` bytes, where `n` is computed as `p_memsz - p_filesz` -/
  | clear (n pMemsz pFilesz : Nat)
deriving DecidableEq

namespace Access

/-- What is read is in the buffer, and a length is what it is meant to be. -/
def Ok (fileSize : Nat) : Access → Prop
  | read offset n => offset + n ≤ fileSize
  | map _ => True
  | copy offset n => n = 0 ∨ offset + n ≤ fileSize
  | clear n pMemsz pFilesz => (n : Int) = pMemsz - pFilesz

/-- A field of the program header at `phdr`. -/
def field (phdr f n : Nat) : Access := .read ((phdr + f) % 2 ^ 64) n

end Access

/-- A run, with its accesses in order. -/
abbrev Logged (α : Type) := Log Access (Except Error α × Mmu)

namespace Logged

variable {α β : Type}

/-- `if (auto err = x) return err;` before `f` -/
def andThen (x : Logged α) (f : α → Mmu → Logged β) : Logged β := Log.bind x fun
  | (.error err, st) => ⟨[], some (.error err, st)⟩
  | (.ok a, st) => f a st

/-- What is read before `x`. -/
def reading (entries : List Access) (x : Logged α) : Logged α := ⟨entries ++ x.entries, x.result⟩

@[simp] theorem andThen_error (log : List Access) (err : Error) (st : Mmu)
    (f : α → Mmu → Logged β) :
    andThen ⟨log, some (.error err, st)⟩ f = ⟨log, some (.error err, st)⟩ := by
  rw [andThen, Log.bind_some, List.append_nil]

@[simp] theorem andThen_ok (log : List Access) (a : α) (st : Mmu) (f : α → Mmu → Logged β) :
    andThen ⟨log, some (.ok a, st)⟩ f = ⟨log ++ (f a st).entries, (f a st).result⟩ := rfl

/-- All accesses are in `P`, and the outcome is `r`. -/
structure Spec (P : Access → Prop) (x : Logged α) (r : Mmu.Result α) : Prop where
  entries : ∀ a ∈ x.entries, P a
  result : x.result = r

namespace Spec

variable {P : Access → Prop} {x : Logged α} {r : Mmu.Result α} {entries : List Access}

theorem mk_log (he : ∀ a ∈ entries, P a) : Spec P ⟨entries, r⟩ r := ⟨he, rfl⟩

theorem andThen {f : α → Mmu → Logged β} {g : α → Mmu → Mmu.Result β} (hx : Spec P x r)
    (hf : ∀ a st, r = some (.ok a, st) → Spec P (f a st) (g a st)) :
    Spec P (Logged.andThen x f) (Mmu.Result.andThen r g) := by
  obtain ⟨log, result⟩ := x
  obtain ⟨hlog, rfl⟩ := hx
  rcases result with _ | ⟨err | a, st⟩
  · exact ⟨hlog, rfl⟩
  · rw [andThen_error]
    exact ⟨hlog, rfl⟩
  · obtain ⟨hlog', hresult⟩ := hf a st rfl
    exact ⟨List.forall_mem_append.2 ⟨hlog, hlog'⟩, hresult⟩

theorem mk_andThen {f : α → Mmu → Logged β} {g : α → Mmu → Mmu.Result β} (he : ∀ a ∈ entries, P a)
    (hf : ∀ a st, r = some (.ok a, st) → Spec P (f a st) (g a st)) :
    Spec P (Logged.andThen ⟨entries, r⟩ f) (Mmu.Result.andThen r g) :=
  andThen (mk_log he) hf

theorem andThen_error {f : α → Mmu → Logged β} {err : Error} {st : Mmu}
    (hx : Spec P x (some (.error err, st))) :
    Spec P (Logged.andThen x f) (some (.error err, st)) :=
  hx.andThen (g := fun _ _ => none) fun _ _ h => by cases h

theorem reading (he : ∀ a ∈ entries, P a) (hx : Spec P x r) : Spec P (x.reading entries) r :=
  ⟨List.forall_mem_append.2 ⟨he, hx.entries⟩, hx.result⟩

end Spec

end Logged

namespace ElfImage

/-- A field of the program header `i`. -/
def readField (image : ElfImage) (i f n : Nat) : Access := .field (image.ePhoff + 56 * i) f n

/-- `GetFirstLoadAddress`, from the header of a list on. -/
def firstLoadReads (image : ElfImage) : List Nat → List Access
  | [] => []
  | i :: is =>
    image.readField i 0 4 :: if (image.programHeader i).pType = PT_LOAD then
      [image.readField i 16 8]
    else image.firstLoadReads is

/-- What `GetFirstLoadAddress` reads. -/
def getFirstLoadAddressLog (image : ElfImage) : List Access :=
  [.read 32 8, .read 56 2] ++ image.firstLoadReads (List.range image.ePhnum)

end ElfImage

/-- `file_buf`: `size` bytes from the address on that `&file_buf[0]` has. -/
structure FileBuffer where
  address : Nat
  size : UInt32

namespace FileBuffer

variable (file : FileBuffer)

def frame (o : Nat) : Nat := (file.address + o) % 2 ^ 64 / 4096

/-- What is in the buffer, and behind it. The heap is mapped to itself. -/
def image (st : Mmu) : ElfImage :=
  fun o => st.mem (file.frame o) ((file.address + o) % 2 ^ 64 % 4096)

/-- What `CopyLoadSegments` does with the header of type `PT_LOAD` that is `phdr` bytes behind the
start of the file. -/
def copyLoadSegment (phdr : Nat) (st : Mmu) : Logged Unit :=
  let header := (file.image st).headerAt phdr
  Logged.andThen ⟨[.field phdr 16 8, .field phdr 40 8, .map (Mmu.loadPages header)],
      st.setupPageMaps ⟨header.pVaddr⟩ (Mmu.loadPages header)⟩ fun _ st =>
    let header := (file.image st).headerAt phdr
    let dst := header.pVaddr
    Logged.andThen ⟨[.field phdr 8 8, .field phdr 16 8, .field phdr 32 8,
        .copy header.pOffset header.pFilesz],
        (st.store dst ((file.image st).bytes header.pOffset header.pFilesz)).map fun st =>
          (.ok (), st)⟩ fun _ st =>
      let header := (file.image st).headerAt phdr
      let length := (header.pMemsz + 2 ^ 64 - header.pFilesz) % 2 ^ 64
      ⟨[.field phdr 32 8, .field phdr 40 8, .clear length header.pMemsz header.pFilesz],
        (st.store ((dst + header.pFilesz) % 2 ^ 64) (List.replicate length 0)).map fun st =>
          (.ok (), st)⟩

/-- The loop of `CopyLoadSegments` from `i` on. There are less than `2 ^ 16` turns. -/
def copyLoop (ePhoff : Nat) : Nat → Nat → Mmu → Logged Unit
  | 0, _, st => ⟨[], some (.ok (), st)⟩
  | n + 1, i, st =>
    let phdr := ePhoff + 56 * i
    Logged.reading [.read 56 2] <|
      if i < (file.image st).ePhnum then
        Logged.reading [.field phdr 0 4] <|
          if ((file.image st).headerAt phdr).pType ≠ PT_LOAD then copyLoop ePhoff n (i + 1) st
          else Logged.andThen (file.copyLoadSegment phdr st) fun _ st =>
            copyLoop ePhoff n (i + 1) st
      else ⟨[], some (.ok (), st)⟩

def copyLoadSegments (st : Mmu) : Logged Unit :=
  Logged.reading [.read 32 8] (file.copyLoop (file.image st).ePhoff (2 ^ 16) 0 st)

def loadELF (st : Mmu) : Logged Unit :=
  Logged.reading [.read 16 2] <|
    if (file.image st).eType ≠ ET_EXEC then ⟨[], some (.error .kInvalidFormat, st)⟩
    else Logged.reading (file.image st).getFirstLoadAddressLog <|
      if (file.image st).getFirstLoadAddress < 0xffff800000000000 then
        ⟨[], some (.error .kInvalidFormat, st)⟩
      else file.copyLoadSegments st

/-- `ExecuteFile` from the end of `LoadFile` up to `MakeArgVector`. -/
def startFile (st : Mmu) : Logged Unit :=
  Logged.reading [.read 0 4] <|
    if (file.image st).isElf then
      Logged.andThen ⟨[], st.setupPML4⟩ fun _ st =>
      Logged.andThen (file.loadELF st) fun _ st =>
      ⟨[.map 1], st.setupPageMaps Mmu.argsFrameAddr 1⟩
    else ⟨[], some (.error .kInvalidFormat, st)⟩

/-- `ExecuteFile` from the end of `LoadFile` on. -/
def executeFile (env : Mmu.Environment) (st : Mmu) : Logged Int :=
  Logged.andThen (file.startFile st) fun _ st =>
  Logged.andThen ⟨[], st.makeArgs env⟩ fun argc st =>
  Logged.andThen ⟨[.map 1], st.setupPageMaps Mmu.stackFrameAddr 1⟩ fun _ st =>
  Logged.andThen ⟨[.read 24 8],
    (env.callApp argc (file.image st).eEntry st).map fun ret => (.ok ret.1, ret.2)⟩ fun ret st =>
  Logged.andThen ⟨(file.image st).getFirstLoadAddressLog,
    (st.cleanPageMaps ⟨(file.image st).getFirstLoadAddress⟩).map fun st => (.ok (), st)⟩ fun _ st =>
  ⟨[], (st.freePML4 env.resetCR3).map fun st => (.ok ret, st)⟩

end FileBuffer

/-! ## What stays in the buffer -/

namespace ElfImage

variable {image image' : ElfImage} {size offset n : Nat}

/-- The first `size` bytes are the same. -/
def Agrees (size : Nat) (image image' : ElfImage) : Prop := ∀ o, o < size → image' o = image o

theorem Agrees.symm (h : image.Agrees size image') : image'.Agrees size image :=
  fun o ho => (h o ho).symm

theorem Agrees.trans {image'' : ElfImage} (h : image.Agrees size image')
    (h' : image'.Agrees size image'') :
    image.Agrees size image'' := fun o ho => (h' o ho).trans (h o ho)

theorem Agrees.field (h : image.Agrees size image') (hsize : size < 2 ^ 64)
    (hok : (Access.read (offset % 2 ^ 64) n).Ok size) :
    image'.field offset n = image.field offset n := by
  rw [Access.Ok] at hok
  refine loadLE_congr fun o hlo hhi => h _ ?_
  omega

theorem Agrees.field' (h : image.Agrees size image') (hsize : size < 2 ^ 64)
    (hok : offset + n ≤ size) :
    image'.field offset n = image.field offset n :=
  h.field hsize (Nat.le_trans (Nat.add_le_add_right (Nat.mod_le ..) n) hok)

theorem Agrees.bytes (h : image.Agrees size image') (hsize : size < 2 ^ 64)
    (hok : (Access.copy offset n).Ok size) :
    image'.bytes offset n = image.bytes offset n := by
  rw [Access.Ok] at hok
  refine List.map_congr_left fun k hk => h _ ?_
  have := List.mem_range.1 hk
  omega

theorem Agrees.isElf (h : image.Agrees size image') (hsize : 4 ≤ size) :
    image'.isElf = image.isElf := by
  rw [ElfImage.isElf, ElfImage.isElf, h 0 (by omega), h 1 (by omega), h 2 (by omega),
    h 3 (by omega)]

/-- The type of a header is its first field. -/
theorem Agrees.pType (h : image.Agrees size image') (hsize : size < 2 ^ 64)
    (hok : (Access.field offset 0 4).Ok size) :
    (image'.headerAt offset).pType = (image.headerAt offset).pType := h.field hsize hok

theorem Agrees.headerAt (h : image.Agrees size image') (hsize : size < 2 ^ 64)
    (htype : (Access.field offset 0 4).Ok size)
    (hoffset : (Access.field offset 8 8).Ok size) (hvaddr : (Access.field offset 16 8).Ok size)
    (hfilesz : (Access.field offset 32 8).Ok size) (hmemsz : (Access.field offset 40 8).Ok size) :
    image'.headerAt offset = image.headerAt offset := by
  have hfirst : image'.field offset 4 = image.field offset 4 := h.pType hsize htype
  rw [ElfImage.headerAt, ElfImage.headerAt, hfirst, h.field hsize hoffset, h.field hsize hvaddr,
    h.field hsize hfilesz, h.field hsize hmemsz]

end ElfImage

end Moxia
