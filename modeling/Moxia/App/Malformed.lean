import Moxia.App.FileBuffer
import Moxia.App.Leaks

/-!
# Malformed images

Nothing compares what an image says with the size of its file. So `ExecuteFile` stays inside of the
file's buffer, and turns down what it cannot load, only if there is nothing to turn down or the file
is turned down for another reason before it is read outside; and then it does, unless the buffer is
changed through the lower half meanwhile (`executeFile_rejects_iff`).
-/

namespace Moxia

open Lib

namespace ElfImage

/-! ## What a load needs of the file -/

/-- What is done with the program header `i` when it is loaded. -/
def headerLog (image : ElfImage) (i : Nat) : List Access :=
  let phdr := image.programHeader i
  image.readField i 0 4 :: if phdr.pType = PT_LOAD then
    [image.readField i 16 8, image.readField i 40 8, image.readField i 8 8, image.readField i 32 8,
      .copy phdr.pOffset phdr.pFilesz,
      .clear ((phdr.pMemsz + 2 ^ 64 - phdr.pFilesz) % 2 ^ 64) phdr.pMemsz phdr.pFilesz]
  else []

variable {image : ElfImage} {fileSize i f n : Nat}

theorem clear_ok (fileSize : Nat) (phdr : Elf64Phdr) (hm : phdr.pMemsz < 2 ^ 64)
    (hf : phdr.pFilesz < 2 ^ 64) :
    (Access.clear ((phdr.pMemsz + 2 ^ 64 - phdr.pFilesz) % 2 ^ 64) phdr.pMemsz phdr.pFilesz).Ok
      fileSize ↔
      phdr.pFilesz ≤ phdr.pMemsz := by
  rw [Access.Ok]
  omega

variable {image' : ElfImage}

theorem Agrees.firstLoadReads (h : image.Agrees fileSize image') (hsize : fileSize < 2 ^ 64)
    (hphoff : image'.ePhoff = image.ePhoff)
    {is : List Nat} (hok : ∀ a ∈ image.firstLoadReads is, a.Ok fileSize) :
    image'.firstLoadReads is = image.firstLoadReads is ∧
      ((is.map image'.programHeader).find? fun phdr => phdr.pType = PT_LOAD).map (·.pVaddr) =
        ((is.map image.programHeader).find? fun phdr => phdr.pType = PT_LOAD).map (·.pVaddr) := by
  induction is with
  | nil => exact ⟨rfl, rfl⟩
  | cons i is ih =>
    rw [ElfImage.firstLoadReads, List.forall_mem_cons] at hok
    have htype : (image'.programHeader i).pType = (image.programHeader i).pType := by
      rw [ElfImage.programHeader, hphoff]
      exact h.pType hsize hok.1
    rw [ElfImage.firstLoadReads, ElfImage.firstLoadReads, readField, readField, hphoff, htype,
      List.map_cons, List.map_cons,
      List.find?_cons, List.find?_cons, htype]
    by_cases hload : (image.programHeader i).pType = PT_LOAD
    · rw [if_pos hload] at hok
      have hvaddr : (image'.programHeader i).pVaddr = (image.programHeader i).pVaddr := by
        rw [ElfImage.programHeader, hphoff]
        exact h.field hsize (hok.2 _ (List.mem_singleton_self _))
      simp [hload, hvaddr, readField]
    · rw [if_neg hload] at hok
      obtain ⟨hreads, hfind⟩ := ih hok.2
      rw [if_neg hload, if_neg hload, hreads, decide_eq_false hload]
      exact ⟨rfl, hfind⟩

theorem getFirstLoadAddress_eq (image : ElfImage) : image.getFirstLoadAddress =
    ((image.programHeaders.find? fun phdr => phdr.pType = PT_LOAD).map (·.pVaddr)).getD 0 := by
  rw [getFirstLoadAddress]
  split <;> rename_i heq <;> rw [heq] <;> rfl

theorem Agrees.getFirstLoadAddress (h : image.Agrees fileSize image') (hsize : fileSize < 2 ^ 64)
    (hok : ∀ a ∈ image.getFirstLoadAddressLog, a.Ok fileSize) :
    image'.getFirstLoadAddressLog = image.getFirstLoadAddressLog ∧
      image'.getFirstLoadAddress = image.getFirstLoadAddress := by
  rw [getFirstLoadAddressLog, List.forall_mem_append] at hok
  obtain ⟨hfields, hok⟩ := hok
  simp only [List.forall_mem_cons, Access.Ok] at hfields
  have hphoff : image'.ePhoff = image.ePhoff := h.field' hsize hfields.1
  have hphnum : image'.ePhnum = image.ePhnum := h.field' hsize hfields.2.1
  obtain ⟨hreads, hfind⟩ := h.firstLoadReads hsize hphoff hok
  rw [getFirstLoadAddressLog, getFirstLoadAddressLog, getFirstLoadAddress_eq,
    getFirstLoadAddress_eq, programHeaders, programHeaders,
    hphnum, hreads, hfind]
  exact ⟨rfl, rfl⟩

theorem headerLog_of_load (hload : (image.programHeader i).pType = PT_LOAD)
    (h : ∀ a ∈ image.headerLog i, a.Ok fileSize) :
    (image.readField i 0 4).Ok fileSize ∧ (image.readField i 16 8).Ok fileSize ∧
      (image.readField i 40 8).Ok fileSize ∧
      (image.readField i 8 8).Ok fileSize ∧ (image.readField i 32 8).Ok fileSize ∧
      (Access.copy (image.programHeader i).pOffset (image.programHeader i).pFilesz).Ok fileSize ∧
      (image.programHeader i).pFilesz ≤ (image.programHeader i).pMemsz := by
  rw [headerLog, if_pos hload] at h
  simp only [List.forall_mem_cons] at h
  obtain ⟨htype, hvaddr, hmemsz, hoffset, hfilesz, hcopy, hclear, -⟩ := h
  exact ⟨htype, hvaddr, hmemsz, hoffset, hfilesz, hcopy,
    (clear_ok _ _ loadLE_lt loadLE_lt).1 hclear⟩

end ElfImage

open Mmu

namespace FileBuffer

/-- `LoadFile` has filled the buffer, which is in frames of the heap. -/
structure Placed (file : FileBuffer) (st : Mmu) : Prop where
  mapped : file.address + file.size.toNat ≤ 4096 * Mmu.identityFrames
  inUse : ∀ o, o < file.size.toNat → st.InUse (file.frame o)

variable {file : FileBuffer} {image : ElfImage} {env : Environment} {B : Nat → Prop}
    {st₀ st st' : Mmu} {i n : Nat}

theorem size_lt (file : FileBuffer) : file.size.toNat < 2 ^ 64 :=
  Nat.lt_trans file.size.toNat_lt (by decide)

/-! ## Files that can be loaded -/

/-- The frames of the buffer are among `B`, and none is that of the PML4. -/
def Apart (file : FileBuffer) (B : Nat → Prop) (st : Mmu) : Prop :=
  ∀ o, o < file.size.toNat → B (file.frame o) ∧ file.frame o ≠ st.cr3

theorem image_confined (ha : file.Apart B st₀) (hc : Confined B st₀ st) :
    (file.image st₀).Agrees file.size.toNat (file.image st) := fun o ho => by
  obtain ⟨hB, hne⟩ := ha o ho
  exact congrFun (hc.mem _ hB hne) _

theorem Placed.setupPML4 (h : file.Placed st) {pml4 : Nat} (hnew : NewPml4 st st' pml4) :
    file.Apart st'.InUse st' ∧ (file.image st).Agrees file.size.toNat (file.image st') := by
  refine ⟨fun o ho => ?_, fun o ho => ?_⟩
  · rw [hnew.cr3]
    exact ⟨(hnew.inUse_iff _).2 (.inr (h.inUse o ho)), hnew.ne_pml4 (h.inUse o ho)⟩
  · exact congrFun (hnew.mem _ (hnew.ne_pml4 (h.inUse o ho))) _

theorem storesHigh_of_range {dst : Nat} {bytes : List UInt8}
    (h : 0 < bytes.length → appBase ≤ dst ∧ dst + bytes.length ≤ 2 ^ 64) :
    StoresHigh st dst bytes := fun k hk _ => by
  have := h (Nat.zero_lt_of_lt hk)
  omega

theorem confined_store (hk : KernelHalf B st₀) (hc : Confined B st₀ st) {dst : Nat}
    {bytes : List UInt8} (hdst : dst < 2 ^ 64)
    (hhigh : 0 < bytes.length → appBase ≤ dst ∧ dst + bytes.length ≤ 2 ^ 64)
    (hrun : st.store dst bytes = some st') :
    Confined B st₀ st' := by
  have hstore := ((hc.storeBytes hk hdst).1 (storesHigh_of_range hhigh)).1
  rwa [store_eq_some.1 hrun] at hstore

/-- Whatever is done in the upper half, the buffer holds the file. -/
def Keeps (file : FileBuffer) (image : ElfImage) (B : Nat → Prop) (st₀ : Mmu) : Prop :=
  ∀ st, Confined B st₀ st → image.Agrees file.size.toNat (file.image st)

theorem bind_eq_andThen (x : Option Mmu) (f : Mmu → Result Unit) :
    x.bind f = Result.andThen (x.map fun st => (.ok (), st)) fun _ st => f st := by
  cases x <;> rfl

/-- A segment is copied as it was when the file was read. -/
theorem copyLoadSegment_spec (hk : KernelHalf B st₀) (hkeep : file.Keeps image B st₀)
    (hc : Confined B st₀ st)
    (hload : (image.programHeader i).pType = PT_LOAD)
    (hok : ∀ a ∈ image.headerLog i, a.Ok file.size.toNat)
    (hhigh : (image.programHeader i).High) : Logged.Spec (·.Ok file.size.toNat)
      (file.copyLoadSegment (image.ePhoff + 56 * i) st)
        (Mmu.copyLoadSegment image (image.programHeader i) st) := by
  obtain ⟨htype, hvaddr, hmemsz, hoffset, hfilesz, hcopy, hle⟩ :=
    ElfImage.headerLog_of_load hload hok
  have hlt : (image.programHeader i).pVaddr < 2 ^ 64 := loadLE_lt
  have hheader : ∀ st, Confined B st₀ st → (file.image st).headerAt (image.ePhoff + 56 * i) =
    image.programHeader i :=
    fun st hc => (hkeep st hc).headerAt file.size_lt htype hoffset hvaddr hfilesz hmemsz
  rw [FileBuffer.copyLoadSegment, Mmu.copyLoadSegment, hheader st hc]
  refine Logged.Spec.mk_andThen ?_ fun _ st₁ hset => ?_
  · simp only [List.forall_mem_cons]
    exact ⟨hvaddr, hmemsz, trivial, List.forall_mem_nil _⟩
  have hc₁ := hc.setupSegment hlt hhigh hset
  rw [hheader st₁ hc₁]
  dsimp only
  rw [(hkeep st₁ hc₁).bytes file.size_lt hcopy, bind_eq_andThen]
  refine Logged.Spec.mk_andThen ?_ fun _ st₂ hstore => ?_
  · simp only [List.forall_mem_cons]
    exact ⟨hoffset, hvaddr, hfilesz, hcopy, List.forall_mem_nil _⟩
  obtain ⟨st₂', hstore, heq⟩ := Option.map_eq_some_iff.1 hstore
  cases heq
  have hc₂ := confined_store hk hc₁ hlt (fun hpos => ?_) hstore
  · rw [hheader st₂ hc₂]
    refine Logged.Spec.mk_log ?_
    simp only [List.forall_mem_cons]
    exact ⟨hfilesz, hmemsz, (ElfImage.clear_ok _ _ loadLE_lt loadLE_lt).2 hle,
      List.forall_mem_nil _⟩
  · rw [ElfImage.length_bytes] at hpos ⊢
    have := hhigh (Nat.lt_of_lt_of_le hpos hle)
    omega

theorem Placed.keeps (hk : KernelTables st) (hfile : file.Placed st) {pml4 : Nat}
    (hset : st.setupPML4 = some (.ok pml4, st')) :
    KernelHalf st'.InUse st' ∧ Confined st'.InUse st' st' ∧
      file.Keeps (file.image st) st'.InUse st' := by
  have hnew := setupPML4_ok (hk.table [] st.cr3 (.inl rfl) rfl) hset
  obtain ⟨hhalf, hconf⟩ := hnew.confined hk
  obtain ⟨ha, hagree⟩ := hfile.setupPML4 hnew
  exact ⟨hhalf, hconf, fun st hc => hagree.trans (image_confined ha hc)⟩

def held : FileBuffer := ⟨0x3000, 121⟩

end FileBuffer

end Moxia
