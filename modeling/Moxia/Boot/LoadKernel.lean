import Moxia.App.Loader

/-!
# The boot loader (`MoxiaLoaderPkg/Main.c`)

`UefiMain` from `CalcLoadAddressRange` to `CopyLoadSegments`. The file is in a buffer, and the
headers are read from there again while the segments are copied. `AllocatePages` is the firmware's
(`AllocatesAddress`): pages that it gives are not those of the buffer, so the headers stay as they
are.
-/

namespace Moxia

open Lib

namespace Boot

/-- Addresses are below `2 ^ 64`. -/
abbrev Ram := Nat → UInt8

/-- How far `a` is behind `start`. -/
def distance (start a : Nat) : Nat := (a + 2 ^ 64 - start) % 2 ^ 64

/-- `len` bytes from `dst` on are written. -/
structure Write where
  dst : Nat
  len : Nat

def Write.Touches (w : Write) (a : Nat) : Prop := a < 2 ^ 64 ∧ distance w.dst a < w.len

/-- The memory, and what has been written to it. -/
structure Loader where
  mem : Ram
  writes : List Write

namespace Loader

def copyMem (st : Loader) (dst src len : Nat) : Loader where
  mem a := if distance dst a < len then st.mem ((src + distance dst a) % 2 ^ 64) else st.mem a
  writes := st.writes ++ [⟨dst, len⟩]

def setMem (st : Loader) (dst len : Nat) (b : UInt8) : Loader where
  mem a := if distance dst a < len then b else st.mem a
  writes := st.writes ++ [⟨dst, len⟩]

end Loader

/-- What is behind the pointer `ehdr`. -/
def imageAt (mem : Ram) (ehdr : Nat) : ElfImage := fun o => mem ((ehdr + o) % 2 ^ 64)

structure AddressRange where
  first : Nat
  last : Nat

/-- The body of the loop of `CalcLoadAddressRange`. -/
def AddressRange.add (r : AddressRange) (phdr : Elf64Phdr) : AddressRange :=
  if phdr.pType ≠ PT_LOAD then r
  else ⟨min r.first phdr.pVaddr, max r.last ((phdr.pVaddr + phdr.pMemsz) % 2 ^ 64)⟩

/-- `num_pages` -/
def AddressRange.numPages (r : AddressRange) : Nat :=
  (r.last + 2 ^ 64 - r.first + 0xfff) % 2 ^ 64 / 0x1000

def calcLoadAddressRange (image : ElfImage) : AddressRange :=
  image.programHeaders.foldl .add ⟨2 ^ 64 - 1, 0⟩

/-- The body of the loop of `CopyLoadSegments`, for the header that is `phdr` bytes behind
`ehdr`. -/
def copyLoadSegment (ehdr phdr : Nat) (st : Loader) : Loader :=
  let header := (imageAt st.mem ehdr).headerAt phdr
  if header.pType ≠ PT_LOAD then st
  else
    let segmInFile := (ehdr + header.pOffset) % 2 ^ 64
    let st := st.copyMem header.pVaddr segmInFile header.pFilesz
    -- the header is read from memory once more
    let header := (imageAt st.mem ehdr).headerAt phdr
    let remainBytes := (header.pMemsz + 2 ^ 64 - header.pFilesz) % 2 ^ 64
    st.setMem ((header.pVaddr + header.pFilesz) % 2 ^ 64) remainBytes 0

/-- The loop from `i` on. There are less than `2 ^ 16` turns. -/
def copyLoop (ehdr ePhoff : Nat) : Nat → Nat → Loader → Loader
  | 0, _, st => st
  | n + 1, i, st =>
    if i < (imageAt st.mem ehdr).ePhnum then
      copyLoop ehdr ePhoff n (i + 1) (copyLoadSegment ehdr (ePhoff + 56 * i) st)
    else st

def copyLoadSegments (ehdr : Nat) (st : Loader) : Loader :=
  copyLoop ehdr (imageAt st.mem ehdr).ePhoff (2 ^ 16) 0 st

/-- `gBS->AllocatePages(AllocateAddress, EfiLoaderData, numPages, &first)`: the address and the
memory afterwards. -/
abbrev AllocatePages := Nat → Nat → Ram → Option (Nat × Ram)

structure Loaded where
  kernelFirstAddr : Nat
  numPages : Nat
  loader : Loader

/-- `none` is `Halt`. -/
def loadKernel (allocatePages : AllocatePages) (kernelEhdr : Nat) (mem : Ram) : Option Loaded :=
  let range := calcLoadAddressRange (imageAt mem kernelEhdr)
  (allocatePages range.numPages range.first mem).map fun r =>
    ⟨r.1, range.numPages, copyLoadSegments kernelEhdr ⟨r.2, []⟩⟩

/-! ## What is asked for -/

/-- What the firmware promises when it gives pages, while the `size` bytes at `buffer` are
allocated. -/
structure Allocated (buffer size numPages first : Nat) (mem : Ram) (first' : Nat)
    (mem' : Ram) : Prop where
  address : first' = first
  pos : 0 < numPages
  free : first + 0x1000 * numPages ≤ buffer ∨ buffer + size ≤ first
  kept : ∀ k, k < size → mem' (buffer + k) = mem (buffer + k)

def AllocatesAddress (allocatePages : AllocatePages) (buffer size : Nat) : Prop :=
  ∀ numPages first mem first' mem', allocatePages numPages first mem = some (first', mem') →
    Allocated buffer size numPages first mem first' mem'

/-- The buffer holds the file. -/
def Holds (mem : Ram) (buffer : Nat) (file : ElfImage) (size : Nat) : Prop :=
  buffer + size ≤ 2 ^ 64 ∧ ∀ k, k < size → mem (buffer + k) = file k

/-- A kernel of `size` bytes. -/
structure KernelImage (file : ElfImage) (size : Nat) : Prop where
  header : 64 ≤ size
  headers : file.ePhoff + 56 * file.ePhnum ≤ size
  load : ∃ phdr ∈ file.programHeaders, phdr.pType = PT_LOAD
  filesz : ∀ phdr ∈ file.programHeaders, phdr.pType = PT_LOAD → phdr.pFilesz ≤ phdr.pMemsz
  wrap : ∀ phdr ∈ file.programHeaders, phdr.pType = PT_LOAD → phdr.pVaddr + phdr.pMemsz < 2 ^ 64
  aligned : ∀ phdr ∈ file.programHeaders, phdr.pType = PT_LOAD →
    (∀ q ∈ file.programHeaders, q.pType = PT_LOAD → phdr.pVaddr ≤ q.pVaddr) → 0x1000 ∣ phdr.pVaddr

def InSegment (phdr : Elf64Phdr) (a : Nat) : Prop := phdr.pVaddr ≤ a ∧ a < phdr.pVaddr + phdr.pMemsz

/-- No two segments share an address. -/
def SegmentsDisjoint (file : ElfImage) : Prop :=
  ∀ i j, i < file.ePhnum → j < file.ePhnum → i ≠ j → (file.programHeader i).pType = PT_LOAD →
    (file.programHeader j).pType = PT_LOAD →
      ∀ a, ¬ (InSegment (file.programHeader i) a ∧ InSegment (file.programHeader j) a)

/-- The segment's bytes of the file, as far as the file goes, and zeros behind them. -/
structure Filled (mem : Ram) (file : ElfImage) (size : Nat) (phdr : Elf64Phdr) : Prop where
  file : ∀ k, k < phdr.pFilesz → phdr.pOffset + k < size →
    mem (phdr.pVaddr + k) = file (phdr.pOffset + k)
  zeros : ∀ k, phdr.pFilesz ≤ k → k < phdr.pMemsz → mem (phdr.pVaddr + k) = 0

variable {mem mem' : Ram} {buffer size : Nat} {file : ElfImage} {st : Loader} {phdr : Elf64Phdr}
    {a dst len i n first : Nat}

/-! ## Addresses -/

theorem distance_of_le (h : dst ≤ a) (ha : a < 2 ^ 64) : distance dst a = a - dst := by
  rw [distance]
  omega

theorem distance_lt_iff (hdst : dst + len < 2 ^ 64) (ha : a < 2 ^ 64) : distance dst a < len ↔
    dst ≤ a ∧ a < dst + len := by
  rw [distance]
  omega

theorem Write.touches_iff (hdst : dst + len < 2 ^ 64) : (Write.mk dst len).Touches a ↔
    dst ≤ a ∧ a < dst + len := by
  refine ⟨fun h => (distance_lt_iff hdst h.1).1 h.2, fun h => ?_⟩
  have ha : a < 2 ^ 64 := by omega
  exact ⟨ha, (distance_lt_iff hdst ha).2 h⟩

/-! ## The range -/

namespace AddressRange

variable {r : AddressRange} {phdrs : List Elf64Phdr}

theorem foldl_add (hload : ∀ phdr ∈ phdrs, phdr.pType = PT_LOAD →
    phdr.pVaddr + phdr.pMemsz < 2 ^ 64) :
    (phdrs.foldl add r).first ≤ r.first ∧ r.last ≤ (phdrs.foldl add r).last ∧
      ∀ phdr ∈ phdrs, phdr.pType = PT_LOAD → (phdrs.foldl add r).first ≤ phdr.pVaddr ∧
        phdr.pVaddr + phdr.pMemsz ≤ (phdrs.foldl add r).last := by
  induction phdrs generalizing r with
  | nil => exact ⟨Nat.le_refl _, Nat.le_refl _, List.forall_mem_nil _⟩
  | cons phdr phdrs ih =>
    obtain ⟨hhead, htail⟩ := List.forall_mem_cons.1 hload
    obtain ⟨hfirst, hlast, hall⟩ := ih (r := r.add phdr) htail
    rw [List.foldl_cons]
    have hadd : (r.add phdr).first ≤ r.first ∧ r.last ≤ (r.add phdr).last := by
      rw [add]
      split
      · exact ⟨Nat.le_refl _, Nat.le_refl _⟩
      · exact ⟨Nat.min_le_left .., Nat.le_max_left ..⟩
    refine ⟨Nat.le_trans hfirst hadd.1, Nat.le_trans hadd.2 hlast,
      List.forall_mem_cons.2 ⟨fun htype => ?_, hall⟩⟩
    have hnew : r.add phdr = ⟨min r.first phdr.pVaddr, max r.last (phdr.pVaddr + phdr.pMemsz)⟩ := by
      rw [add, if_neg (not_not.2 htype), Nat.mod_eq_of_lt (hhead htype)]
    rw [hnew] at hfirst hlast ⊢
    exact ⟨Nat.le_trans hfirst (Nat.min_le_right ..), Nat.le_trans (Nat.le_max_right ..) hlast⟩

/-- The first address is that of a segment, unless it is still the one from the start. -/
theorem foldl_first : (phdrs.foldl add r).first = r.first ∨
    ∃ phdr ∈ phdrs, phdr.pType = PT_LOAD ∧ (phdrs.foldl add r).first = phdr.pVaddr := by
  induction phdrs generalizing r with
  | nil => exact .inl rfl
  | cons phdr phdrs ih =>
    rw [List.foldl_cons]
    rcases ih (r := r.add phdr) with heq | ⟨q, hq, hload, heq⟩
    · rw [heq, add]
      split
      · exact .inl rfl
      · rename_i htype
        rcases Nat.le_total r.first phdr.pVaddr with hle | hle
        · exact .inl (Nat.min_eq_left hle)
        · exact .inr ⟨phdr, List.mem_cons_self, not_not.1 htype, Nat.min_eq_right hle⟩
    · exact .inr ⟨q, List.mem_cons_of_mem _ hq, hload, heq⟩

theorem foldl_last (hr : r.last < 2 ^ 64) : (phdrs.foldl add r).last < 2 ^ 64 := by
  induction phdrs generalizing r with
  | nil => exact hr
  | cons phdr phdrs ih =>
    refine ih ?_
    rw [add]
    split
    · exact hr
    · exact Nat.max_lt.2 ⟨hr, Nat.mod_lt _ (by decide)⟩

end AddressRange

theorem mem_programHeaders (hi : i < file.ePhnum) : file.programHeader i ∈ file.programHeaders :=
  List.mem_map.2 ⟨i, List.mem_range.2 hi, rfl⟩

theorem calcLoadAddressRange_spec (hkernel : KernelImage file size) :
    0x1000 ∣ (calcLoadAddressRange file).first ∧ (calcLoadAddressRange file).last < 2 ^ 64 ∧
      ∀ phdr ∈ file.programHeaders, phdr.pType = PT_LOAD →
        (calcLoadAddressRange file).first ≤ phdr.pVaddr ∧
        phdr.pVaddr + phdr.pMemsz ≤ (calcLoadAddressRange file).last := by
  obtain ⟨-, -, hall⟩ := AddressRange.foldl_add (r := ⟨2 ^ 64 - 1, 0⟩) hkernel.wrap
  refine ⟨?_, AddressRange.foldl_last (Nat.two_pow_pos 64), hall⟩
  have hattained : ∃ phdr ∈ file.programHeaders, phdr.pType = PT_LOAD ∧
    (calcLoadAddressRange file).first = phdr.pVaddr := by
    have hstart : (calcLoadAddressRange file).first = 2 ^ 64 - 1 ∨ ∃ phdr ∈ file.programHeaders,
      phdr.pType = PT_LOAD ∧ (calcLoadAddressRange file).first = phdr.pVaddr :=
        AddressRange.foldl_first
    rcases hstart with heq | hmem
    · obtain ⟨phdr, hphdr, hload⟩ := hkernel.load
      have hle : (calcLoadAddressRange file).first ≤ phdr.pVaddr := (hall phdr hphdr hload).1
      have hwrap := hkernel.wrap phdr hphdr hload
      exact ⟨phdr, hphdr, hload, by omega⟩
    · exact hmem
  obtain ⟨phdr, hphdr, hload, heq⟩ := hattained
  rw [heq]
  exact hkernel.aligned phdr hphdr hload fun q hq hqload => heq ▸ (hall q hq hqload).1

/-- The pages hold the range, unless there are none: then the sum in `num_pages` has wrapped
around. -/
theorem last_le_pages {r : AddressRange} (hle : r.first ≤ r.last) (hlast : r.last < 2 ^ 64)
    (hpos : 0 < r.numPages) :
    r.last ≤ r.first + 0x1000 * r.numPages := by
  rw [AddressRange.numPages] at *
  omega

/-! ## The headers in the buffer -/

theorem field_imageAt (h : Holds mem buffer file size) {off len : Nat} (hoff : off + len ≤ size) :
    (imageAt mem buffer).field off len = file.field off len := by
  obtain ⟨hend, hbytes⟩ := h
  refine loadLE_congr fun o _ ho => ?_
  have hlt : o % 2 ^ 64 = o := Nat.mod_eq_of_lt (by omega)
  have haddr : (buffer + o) % 2 ^ 64 = buffer + o := Nat.mod_eq_of_lt (by omega)
  rw [hlt, imageAt, haddr, hbytes o (by omega)]

theorem headerAt_imageAt (h : Holds mem buffer file size) {off : Nat} (hoff : off + 56 ≤ size) :
    (imageAt mem buffer).headerAt off = file.headerAt off := by
  have hfield : ∀ k len, k + len ≤ 56 → (imageAt mem buffer).field (off + k) len =
    file.field (off + k) len :=
    fun k len hk => field_imageAt h (by omega)
  have hfield4 : (imageAt mem buffer).field off 4 = file.field off 4 := field_imageAt h (by omega)
  rw [ElfImage.headerAt, hfield4, hfield 8 8 (by decide), hfield 16 8 (by decide),
    hfield 32 8 (by decide),
    hfield 40 8 (by decide)]
  rfl

/-! ## One segment -/

theorem Holds.write (h : Holds mem buffer file size)
    (hfree : dst + len ≤ buffer ∨ buffer + size ≤ dst)
    (hwrap : dst + len < 2 ^ 64) (hmem : ∀ a, a < 2 ^ 64 → ¬ distance dst a < len →
    mem' a = mem a) :
    Holds mem' buffer file size := by
  refine ⟨h.1, fun k hk => ?_⟩
  have hlt : buffer + k < 2 ^ 64 := by
    have := h.1
    omega
  rw [hmem _ hlt fun hdist => ?_, h.2 k hk]
  have := (distance_lt_iff hwrap hlt).1 hdist
  omega

/-- What `copyLoadSegment` does for the header `phdr` of the file. -/
structure SegmentCopied (buffer : Nat) (phdr : Elf64Phdr) (st st' : Loader) : Prop where
  writes : st'.writes = st.writes ++ [⟨phdr.pVaddr, phdr.pFilesz⟩,
    ⟨phdr.pVaddr + phdr.pFilesz, phdr.pMemsz - phdr.pFilesz⟩]
  file : ∀ k, k < phdr.pFilesz →
    st'.mem (phdr.pVaddr + k) = st.mem ((buffer + phdr.pOffset + k) % 2 ^ 64)
  zeros : ∀ k, phdr.pFilesz ≤ k → k < phdr.pMemsz → st'.mem (phdr.pVaddr + k) = 0
  kept : ∀ a, a < 2 ^ 64 → ¬ InSegment phdr a → st'.mem a = st.mem a

theorem copyLoadSegment_spec (h : Holds st.mem buffer file size) {off : Nat}
    (hoff : off + 56 ≤ size)
    (hphdr : file.headerAt off = phdr) (hload : phdr.pType = PT_LOAD)
    (hfilesz : phdr.pFilesz ≤ phdr.pMemsz)
    (hwrap : phdr.pVaddr + phdr.pMemsz < 2 ^ 64)
    (hfree : phdr.pVaddr + phdr.pMemsz ≤ buffer ∨ buffer + size ≤ phdr.pVaddr) :
    SegmentCopied buffer phdr st (copyLoadSegment buffer off st) := by
  have hheader : (imageAt st.mem buffer).headerAt off = phdr :=
    (headerAt_imageAt h hoff).trans hphdr
  obtain ⟨copied, hcopied⟩ : ∃ copied,
    copied = st.copyMem phdr.pVaddr ((buffer + phdr.pOffset) % 2 ^ 64) phdr.pFilesz :=
    ⟨_, rfl⟩
  have hholds : Holds copied.mem buffer file size :=
    Holds.write h (show phdr.pVaddr + phdr.pFilesz ≤ buffer ∨ buffer + size ≤ phdr.pVaddr by
      omega) (by omega)
      fun a _ hdist => hcopied ▸ if_neg hdist
  have hagain : (imageAt copied.mem buffer).headerAt off = phdr :=
    (headerAt_imageAt hholds hoff).trans hphdr
  have hdst : (phdr.pVaddr + phdr.pFilesz) % 2 ^ 64 = phdr.pVaddr + phdr.pFilesz :=
    Nat.mod_eq_of_lt (by omega)
  have hlen : (phdr.pMemsz + 2 ^ 64 - phdr.pFilesz) % 2 ^ 64 = phdr.pMemsz - phdr.pFilesz := by
    omega
  have hrun : copyLoadSegment buffer off st =
      copied.setMem (phdr.pVaddr + phdr.pFilesz) (phdr.pMemsz - phdr.pFilesz) 0 := by
    rw [copyLoadSegment]
    dsimp only
    rw [hheader, if_neg (not_not.2 hload), ← hcopied, hagain, hdst, hlen]
  have hset : ∀ a, a < 2 ^ 64 →
      (distance (phdr.pVaddr + phdr.pFilesz) a < phdr.pMemsz - phdr.pFilesz ↔
        phdr.pVaddr + phdr.pFilesz ≤ a ∧ a < phdr.pVaddr + phdr.pMemsz) := fun a ha => by
    rw [distance_lt_iff (by omega) ha]
    omega
  have hcopy : ∀ a, a < 2 ^ 64 → (distance phdr.pVaddr a < phdr.pFilesz ↔
    phdr.pVaddr ≤ a ∧ a < phdr.pVaddr + phdr.pFilesz) :=
    fun a ha => distance_lt_iff (by omega) ha
  rw [hrun]
  refine ⟨?_, fun k hk => ?_, fun k hle hk => ?_, fun a ha hnot => ?_⟩
  · rw [Loader.setMem, hcopied, Loader.copyMem, List.append_assoc]
    rfl
  · have ha : phdr.pVaddr + k < 2 ^ 64 := by omega
    have hnotset : ¬ distance (phdr.pVaddr + phdr.pFilesz) (phdr.pVaddr + k) <
      phdr.pMemsz - phdr.pFilesz := by
      rw [hset _ ha]
      omega
    have hincopy : distance phdr.pVaddr (phdr.pVaddr + k) < phdr.pFilesz := by
      rw [hcopy _ ha]
      omega
    have hk' : distance phdr.pVaddr (phdr.pVaddr + k) = k := by
      rw [distance_of_le (Nat.le_add_right ..) ha, Nat.add_sub_cancel_left]
    rw [Loader.setMem, hcopied, Loader.copyMem]
    dsimp only
    rw [if_neg hnotset, if_pos hincopy, hk', Nat.mod_add_mod]
  · have ha : phdr.pVaddr + k < 2 ^ 64 := by omega
    exact if_pos ((hset _ ha).2 ⟨by omega, by omega⟩)
  · have hnotset : ¬ distance (phdr.pVaddr + phdr.pFilesz) a < phdr.pMemsz - phdr.pFilesz := by
      rw [hset a ha]
      exact fun hin => hnot ⟨by omega, hin.2⟩
    have hnotcopy : ¬ distance phdr.pVaddr a < phdr.pFilesz := by
      rw [hcopy a ha]
      exact fun hin => hnot ⟨hin.1, by omega⟩
    rw [Loader.setMem, hcopied, Loader.copyMem]
    dsimp only
    rw [if_neg hnotset, if_neg hnotcopy]

/-! ## All segments -/

/-- The first `i` headers are done, and nothing was written outside of `lo`, …, `hi - 1`. -/
structure Copied (buffer : Nat) (file : ElfImage) (size lo hi i : Nat) (st : Loader) : Prop where
  holds : Holds st.mem buffer file size
  writes : ∀ w ∈ st.writes, ∀ a, w.Touches a → lo ≤ a ∧ a < hi
  filled : SegmentsDisjoint file → ∀ j, j < i → j < file.ePhnum →
    (file.programHeader j).pType = PT_LOAD →
    Filled st.mem file size (file.programHeader j)

theorem Filled.of_kept (h : Filled mem file size phdr) (hfilesz : phdr.pFilesz ≤ phdr.pMemsz)
    (hkept : ∀ a, InSegment phdr a → mem' a = mem a) : Filled mem' file size phdr where
  file k hk hsize := (hkept _ ⟨Nat.le_add_right .., by omega⟩).trans (h.file k hk hsize)
  zeros k hle hk := (hkept _ ⟨Nat.le_add_right .., by omega⟩).trans (h.zeros k hle hk)

theorem SegmentCopied.filled {st' : Loader} (h : SegmentCopied buffer phdr st st')
    (hholds : Holds st.mem buffer file size) :
    Filled st'.mem file size phdr where
  file k hk hsize := by
    obtain ⟨hend, hbytes⟩ := hholds
    have haddr : (buffer + phdr.pOffset + k) % 2 ^ 64 = buffer + (phdr.pOffset + k) := by
      rw [Nat.add_assoc]
      exact Nat.mod_eq_of_lt (by omega)
    rw [h.file k hk, haddr, hbytes _ hsize]
  zeros := h.zeros

variable {lo hi : Nat}

theorem Copied.step (h : Copied buffer file size lo hi i st) (hkernel : KernelImage file size)
    (hlt : i < file.ePhnum)
    (hrange : ∀ phdr ∈ file.programHeaders, phdr.pType = PT_LOAD → lo ≤ phdr.pVaddr ∧
    phdr.pVaddr + phdr.pMemsz ≤ hi)
    (hfree : hi ≤ buffer ∨ buffer + size ≤ lo) :
    Copied buffer file size lo hi (i + 1) (copyLoadSegment buffer (file.ePhoff + 56 * i) st) := by
  obtain ⟨phdr, hphdr⟩ : ∃ phdr, phdr = file.programHeader i := ⟨_, rfl⟩
  have hmem : phdr ∈ file.programHeaders := hphdr ▸ mem_programHeaders hlt
  have hoff : file.ePhoff + 56 * i + 56 ≤ size := by
    have := hkernel.headers
    omega
  by_cases hload : phdr.pType = PT_LOAD
  · have hfilesz := hkernel.filesz phdr hmem hload
    have hwrap := hkernel.wrap phdr hmem hload
    obtain ⟨hlo, hhi⟩ := hrange phdr hmem hload
    have hcopied := copyLoadSegment_spec h.holds hoff hphdr.symm hload hfilesz hwrap (by omega)
    generalize copyLoadSegment buffer (file.ePhoff + 56 * i) st = st' at hcopied ⊢
    refine ⟨⟨h.holds.1, fun k hk => ?_⟩, ?_, fun hdisj j hj hjlt hjload => ?_⟩
    · have hk' : buffer + k < 2 ^ 64 := by
        have := h.holds.1
        omega
      rw [hcopied.kept _ hk' fun hin => ?_, h.holds.2 k hk]
      obtain ⟨hge, hlt'⟩ := hin
      omega
    · rw [hcopied.writes, List.forall_mem_append]
      refine ⟨h.writes,
        List.forall_mem_cons.2 ⟨fun a ha => ?_, List.forall_mem_singleton.2 fun a ha => ?_⟩⟩
      · have := (Write.touches_iff (by omega)).1 ha
        omega
      · have := (Write.touches_iff (by omega)).1 ha
        omega
    · rcases Nat.lt_or_eq_of_le (Nat.le_of_lt_succ hj) with hold | rfl
      · -- an earlier segment is not touched
        refine (h.filled hdisj j hold hjlt hjload).of_kept
          (hkernel.filesz _ (mem_programHeaders hjlt) hjload) fun a ha => ?_
        have hawrap := hkernel.wrap _ (mem_programHeaders hjlt) hjload
        refine hcopied.kept a (Nat.lt_trans ha.2 hawrap) fun hin => ?_
        exact hdisj i j hlt hjlt (Nat.ne_of_gt hold) (hphdr ▸ hload) hjload a ⟨hphdr ▸ hin, ha⟩
      · exact hphdr ▸ hcopied.filled h.holds
  · have hheader : (imageAt st.mem buffer).headerAt (file.ePhoff + 56 * i) = phdr :=
      (headerAt_imageAt h.holds hoff).trans hphdr.symm
    have hrun : copyLoadSegment buffer (file.ePhoff + 56 * i) st = st := by
      rw [copyLoadSegment]
      dsimp only
      rw [hheader, if_pos hload]
    rw [hrun]
    refine ⟨h.holds, h.writes, fun hdisj j hj hjlt hjload => ?_⟩
    rcases Nat.lt_or_eq_of_le (Nat.le_of_lt_succ hj) with hold | rfl
    · exact h.filled hdisj j hold hjlt hjload
    · exact absurd (hphdr ▸ hjload) hload

theorem Copied.loop (h : Copied buffer file size lo hi i st) (hkernel : KernelImage file size)
    (hle : i ≤ file.ePhnum)
    (hn : file.ePhnum ≤ i + n)
    (hrange : ∀ phdr ∈ file.programHeaders, phdr.pType = PT_LOAD → lo ≤ phdr.pVaddr ∧
    phdr.pVaddr + phdr.pMemsz ≤ hi)
    (hfree : hi ≤ buffer ∨ buffer + size ≤ lo) :
    Copied buffer file size lo hi file.ePhnum (copyLoop buffer file.ePhoff n i st) := by
  induction n generalizing i st with
  | zero =>
    have heq : i = file.ePhnum := Nat.le_antisymm hle hn
    exact heq ▸ h
  | succ n ih =>
    have hphnum : (imageAt st.mem buffer).ePhnum = file.ePhnum := by
      have := hkernel.header
      exact field_imageAt h.holds (by omega)
    rw [copyLoop, hphnum]
    split
    · rename_i hlt
      exact ih (h.step hkernel hlt hrange hfree) hlt (by omega)
    · rename_i hge
      have heq : i = file.ePhnum := Nat.le_antisymm hle (Nat.le_of_not_lt hge)
      exact heq ▸ h

theorem programHeaders_imageAt (h : Holds mem buffer file size) (hkernel : KernelImage file size) :
    (imageAt mem buffer).programHeaders = file.programHeaders := by
  have hheader := hkernel.header
  have hheaders := hkernel.headers
  have hphnum : (imageAt mem buffer).ePhnum = file.ePhnum := field_imageAt h (by omega)
  have hphoff : (imageAt mem buffer).ePhoff = file.ePhoff := field_imageAt h (by omega)
  rw [ElfImage.programHeaders, hphnum]
  refine List.map_congr_left fun i hi => ?_
  have hlt := List.mem_range.1 hi
  have hat : (imageAt mem buffer).programHeader i =
    (imageAt mem buffer).headerAt ((imageAt mem buffer).ePhoff + 56 * i) := rfl
  rw [hat, hphoff, headerAt_imageAt h (by omega)]
  rfl

/-- The loader writes to the pages that it has been given only, and the segments are there when it
is done. -/
theorem loadKernel_spec {allocatePages : AllocatePages} {loaded : Loaded}
    (hholds : Holds mem buffer file size)
    (hkernel : KernelImage file size) (halloc : AllocatesAddress allocatePages buffer size)
    (hrun : loadKernel allocatePages buffer mem = some loaded) :
    0x1000 ∣ loaded.kernelFirstAddr ∧
      (∀ w ∈ loaded.loader.writes, ∀ a, w.Touches a →
        loaded.kernelFirstAddr ≤ a ∧ a < loaded.kernelFirstAddr + 0x1000 * loaded.numPages) ∧
      (SegmentsDisjoint file → ∀ phdr ∈ file.programHeaders, phdr.pType = PT_LOAD →
        Filled loaded.loader.mem file size phdr) := by
  obtain ⟨haligned, hlast, hrange⟩ := calcLoadAddressRange_spec hkernel
  have himage : calcLoadAddressRange (imageAt mem buffer) = calcLoadAddressRange file := by
    rw [calcLoadAddressRange, programHeaders_imageAt hholds hkernel]
    rfl
  rw [loadKernel] at hrun
  rw [himage] at hrun
  obtain ⟨⟨first, mem'⟩, hgiven, rfl⟩ := Option.map_eq_some_iff.1 hrun
  obtain ⟨rfl, hpos, hfree, hkept⟩ := halloc _ _ _ _ _ hgiven
  obtain ⟨phdr, hmem, hload⟩ := hkernel.load
  obtain ⟨hfirst, hend⟩ := hrange phdr hmem hload
  have hpages := last_le_pages (r := calcLoadAddressRange file) (by omega) hlast hpos
  have hholds' : Holds mem' buffer file size :=
    ⟨hholds.1, fun k hk => (hkept k hk).trans (hholds.2 k hk)⟩
  have hphoff : (imageAt mem' buffer).ePhoff = file.ePhoff := by
    have := hkernel.header
    exact field_imageAt hholds' (by omega)
  have hstart : Copied buffer file size (calcLoadAddressRange file).first
      ((calcLoadAddressRange file).first + 0x1000 * (calcLoadAddressRange file).numPages)
        0 ⟨mem', []⟩ :=
    ⟨hholds', List.forall_mem_nil _, fun _ j hj => absurd hj (Nat.not_lt_zero j)⟩
  have hphnum : file.ePhnum < 2 ^ 16 := loadLE_lt
  have hdone := hstart.loop hkernel (Nat.zero_le _) (n := 2 ^ 16) (by omega)
    (fun q hq hqload => ⟨(hrange q hq hqload).1, Nat.le_trans (hrange q hq hqload).2 hpages⟩) hfree
  rw [copyLoadSegments, hphoff]
  refine ⟨haligned, hdone.writes, fun hdisj q hq hqload => ?_⟩
  obtain ⟨i, hi, rfl⟩ := List.mem_map.1 hq
  have hilt := List.mem_range.1 hi
  exact hdone.filled hdisj i hilt hilt hqload

/-! ### A kernel of two segments: a byte of the file and zeros each, the second in front -/

/-- Between the headers of the segments there is one of another type. -/
def smallKernel : ElfImage
  | 32 => 64
  | 56 => 3
  | 64 => 1
  | 72 => 232
  | 81 => 0x10
  | 82 => 0x10
  | 96 => 1
  | 104 => 2
  | 120 => 6
  | 176 => 1
  | 184 => 233
  | 194 => 0x10
  | 208 => 1
  | 216 => 3
  | 232 => 0x42
  | 233 => 0x43
  | _ => 0

/-- The file is at `0x200000`. -/
def smallRam : Ram := fun a => smallKernel (a - 0x200000)

/-- Any memory but the buffer is free. -/
def smallAllocate : AllocatePages := fun numPages first mem =>
  if 0 < numPages ∧ first + 0x1000 * numPages ≤ 2 ^ 64 ∧
    (first + 0x1000 * numPages ≤ 0x200000 ∨ 0x200000 + 234 ≤ first) then
    some (first, mem)
  else none

theorem programHeaders_smallKernel : smallKernel.programHeaders =
    [⟨PT_LOAD, 232, 0x101000, 1, 2⟩, ⟨6, 0, 0, 0, 0⟩, ⟨PT_LOAD, 233, 0x100000, 1, 3⟩] := by decide

theorem kernelImage_small : KernelImage smallKernel 234 := by
  refine ⟨by decide, by decide, ⟨⟨PT_LOAD, 232, 0x101000, 1, 2⟩, ?_, rfl⟩, ?_, ?_, ?_⟩ <;>
    rw [programHeaders_smallKernel]
  · exact List.mem_cons_self
  · decide
  · decide
  · decide

theorem inSegment_small (hi : i < smallKernel.ePhnum)
    (hload : (smallKernel.programHeader i).pType = PT_LOAD)
    (h : InSegment (smallKernel.programHeader i) a) :
    i = 0 ∧ 0x101000 ≤ a ∨ i = 2 ∧ a < 0x101000 := by
  have hnum : smallKernel.ePhnum = 3 := by decide
  obtain rfl | rfl | rfl : i = 0 ∨ i = 1 ∨ i = 2 := by omega
  · exact .inl ⟨rfl, h.1⟩
  · exact absurd hload (by decide)
  · exact .inr ⟨rfl, Nat.lt_of_lt_of_le h.2 (by decide)⟩

theorem segmentsDisjoint_small : SegmentsDisjoint smallKernel := by
  rintro i j hi hj hne hloadi hloadj a ⟨hai, haj⟩
  have := inSegment_small hi hloadi hai
  have := inSegment_small hj hloadj haj
  omega

theorem holds_small : Holds smallRam 0x200000 smallKernel 234 :=
  ⟨by decide, fun k _ => congrArg smallKernel (Nat.add_sub_cancel_left ..)⟩

theorem allocatesAddress_small : AllocatesAddress smallAllocate 0x200000 234 := by
  intro numPages first mem first' mem' h
  rw [smallAllocate] at h
  split at h
  · rename_i hfree
    cases h
    exact ⟨rfl, hfree.1, hfree.2.2, fun _ _ => rfl⟩
  · cases h

theorem loadKernel_small : (loadKernel smallAllocate 0x200000 smallRam).isSome := by
  have hrange : calcLoadAddressRange (imageAt smallRam 0x200000) = ⟨0x100000, 0x101002⟩ := by
    rw [calcLoadAddressRange, programHeaders_imageAt holds_small kernelImage_small,
      programHeaders_smallKernel]
    rfl
  rw [loadKernel, hrange]
  rfl

theorem loadKernel_spec_small : ∃ loaded, loadKernel smallAllocate 0x200000 smallRam = some loaded ∧
    0x1000 ∣ loaded.kernelFirstAddr ∧
    (∀ w ∈ loaded.loader.writes, ∀ a, w.Touches a →
      loaded.kernelFirstAddr ≤ a ∧ a < loaded.kernelFirstAddr + 0x1000 * loaded.numPages) ∧
    ∀ phdr ∈ smallKernel.programHeaders, phdr.pType = PT_LOAD →
      Filled loaded.loader.mem smallKernel 234 phdr := by
  obtain ⟨loaded, hrun⟩ := Option.isSome_iff_exists.1 loadKernel_small
  obtain ⟨haligned, hwrites, hfilled⟩ :=
    loadKernel_spec holds_small kernelImage_small allocatesAddress_small hrun
  exact ⟨loaded, hrun, haligned, hwrites, hfilled segmentsDisjoint_small⟩

end Boot

end Moxia
