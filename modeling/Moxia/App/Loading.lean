import Moxia.App.AddressSpace
import Moxia.Paging.Contents
import Mathlib.Data.Set.Finite.Lattice

/-!
# The loaded image

`CopyLoadSegments` counts the pages of a segment from its size alone, so that the last page of a
segment that starts inside of a page may be left out. After `LoadELF` the whole image is in memory
exactly if the last page of each segment is among those mapped for it or for the segments before it;
else `LoadELF` ends in a page fault (`loadELF_complete_iff`).
-/

namespace Moxia

open Lib

namespace Elf64Phdr

structure WellFormed (phdr : Elf64Phdr) (fileSize : Nat) : Prop where
  high : appBase ≤ phdr.pVaddr
  wrap : phdr.pVaddr + phdr.pMemsz ≤ 2 ^ 64
  file : phdr.pOffset + phdr.pFilesz ≤ fileSize
  filesz : phdr.pFilesz ≤ phdr.pMemsz

def Apart (a b : Elf64Phdr) : Prop :=
  a.pVaddr + a.pMemsz ≤ b.pVaddr ∨ b.pVaddr + b.pMemsz ≤ a.pVaddr

/-- The page is one of those that `CopyLoadSegments` maps for the segment. -/
def Maps (phdr : Elf64Phdr) (page : Nat) : Prop :=
  phdr.pType = PT_LOAD ∧ phdr.pVaddr / 4096 ≤ page ∧ page < phdr.pVaddr / 4096 + Mmu.loadPages phdr

def lastPage (phdr : Elf64Phdr) : Nat := (phdr.pVaddr + phdr.pMemsz - 1) / 4096

/-- The last page of each segment is mapped by the time the segment is copied. -/
def LastPagesMapped (phdrs : List Elf64Phdr) : Prop :=
  ∀ before phdr after, phdrs = before ++ phdr :: after → phdr.pType = PT_LOAD → 0 < phdr.pMemsz →
    ∃ q ∈ before ++ [phdr], q.Maps phdr.lastPage

end Elf64Phdr

namespace ElfImage

structure WellFormed (image : ElfImage) (fileSize : Nat) : Prop where
  exec : image.eType = ET_EXEC
  load : ∃ phdr ∈ image.programHeaders, phdr.pType = PT_LOAD
  segment : ∀ phdr ∈ image.programHeaders, phdr.pType = PT_LOAD → phdr.WellFormed fileSize
  apart : image.programHeaders.Pairwise fun a b => a.pType = PT_LOAD → b.pType = PT_LOAD → a.Apart b
  fileSize : fileSize < 2 ^ 32

/-- What belongs at offset `k` of the segment. -/
def segmentByte (image : ElfImage) (phdr : Elf64Phdr) (k : Nat) : UInt8 :=
  if k < phdr.pFilesz then image (phdr.pOffset + k) else 0

/-- The paths for which `CopyLoadSegments` needs frames. -/
def LoadPaths (image : ElfImage) (q : List Nat) : Prop :=
  ∃ phdr ∈ image.programHeaders, phdr.pType = PT_LOAD ∧
    Mmu.Covers [] 4 (LinearAddress4Level.mk phdr.pVaddr).pageNumber (Mmu.loadPages phdr) q

variable {image : ElfImage} {fileSize : Nat} {phdr : Elf64Phdr}

theorem pVaddr_lt (hmem : phdr ∈ image.programHeaders) : phdr.pVaddr < 2 ^ 64 := by
  obtain ⟨i, -, rfl⟩ := List.mem_map.1 hmem
  exact loadLE_lt

theorem loadPages_eq (h : phdr.WellFormed fileSize) :
    Mmu.loadPages phdr = (phdr.pMemsz + 4095) / 4096 := by
  have := h.high
  have := h.wrap
  rw [Mmu.loadPages, Nat.mod_eq_of_lt]
  rw [appBase] at *
  omega

/-- All pages of a segment but the last are mapped for it. -/
theorem maps_or_lastPage (h : phdr.WellFormed fileSize) (hload : phdr.pType = PT_LOAD) {k : Nat}
    (hk : k < phdr.pMemsz) :
    phdr.Maps ((phdr.pVaddr + k) / 4096) ∨ (phdr.pVaddr + k) / 4096 = phdr.lastPage := by
  rw [Elf64Phdr.Maps, Elf64Phdr.lastPage, loadPages_eq h]
  by_cases hlt : (phdr.pVaddr + k) / 4096 < phdr.pVaddr / 4096 + (phdr.pMemsz + 4095) / 4096
  · exact .inl ⟨hload, by omega, hlt⟩
  · exact .inr (by omega)

theorem length_bytes (image : ElfImage) (offset n : Nat) : (image.bytes offset n).length = n := by
  rw [bytes, List.length_map, List.length_range]

theorem getElem?_bytes {offset n k : Nat} (hk : k < n) (hlt : offset + n ≤ 2 ^ 64) :
    (image.bytes offset n)[k]? = some (image (offset + k)) := by
  rw [bytes, List.getElem?_map, List.getElem?_range hk, Option.map_some,
    Nat.mod_eq_of_lt (by omega)]

theorem LoadPaths.path (hwf : image.WellFormed fileSize) {q : List Nat} (hq : image.LoadPaths q) :
    Mmu.Path (256 ≤ ·) 4 q := by
  obtain ⟨phdr, hmem, hload, hc⟩ := hq
  have hmod := Nat.mod_eq_of_lt (LinearAddress4Level.mk phdr.pVaddr).pageNumber_lt
  rw [← hmod] at hc
  exact Mmu.covers_high (hwf.segment phdr hmem hload).high (pVaddr_lt hmem) hc

theorem finite_loadPaths (image : ElfImage) : {q | image.LoadPaths q}.Finite := by
  refine ((List.finite_toSet image.programHeaders).biUnion fun phdr _ => Mmu.finite_covers [] 4
    (LinearAddress4Level.mk phdr.pVaddr).pageNumber (Mmu.loadPages phdr)).subset ?_
  rintro q ⟨phdr, hmem, -, hc⟩
  exact Set.mem_biUnion hmem hc

end ElfImage

namespace Mmu

/-- The whole image gets into memory: each address of a segment has a page when the segment is
copied, and holds the right byte in the end. -/
structure LoadsCompletely (image : ElfImage) (st : Mmu) : Prop where
  mapped : ∀ before phdr after, image.programHeaders = before ++ phdr :: after →
    phdr.pType = PT_LOAD →
    ∃ st₁ st₂, copyLoadSegments image before st = some (.ok (), st₁) ∧
      st₁.setupPageMaps ⟨phdr.pVaddr⟩ (loadPages phdr) = some (.ok (), st₂) ∧
      ∀ k, k < phdr.pMemsz → (st₂.translate false (phdr.pVaddr + k)).isSome
  result : ∃ st', st.loadELF image = some (.ok (), st') ∧ ∀ phdr ∈ image.programHeaders,
    phdr.pType = PT_LOAD →
    ∀ k, k < phdr.pMemsz → st'.byteAt (phdr.pVaddr + k) = some (image.segmentByte phdr k)

/-- The loop of `CopyLoadSegments`, from `st₀` on, has mapped the pages of the segments `maps`, and
has copied those of `done`. -/
structure Loading (image : ElfImage) (st₀ : Mmu) (maps done : List Elf64Phdr)
    (st : Mmu) : Prop where
  upper : Upper st₀.InUse st₀.cr3 st
  grown : Extends (256 ≤ ·) 4 st₀.cr3 image.LoadPaths st₀ st
  mapped : ∀ v, appBase ≤ v → v < 2 ^ 64 →
    ((st.page st₀.cr3 (v / 4096)).isSome ↔ ∃ q ∈ maps, q.Maps (v / 4096))
  bytes : ∀ q ∈ done, q.pType = PT_LOAD → ∀ k, k < q.pMemsz →
    st.byteAt (q.pVaddr + k) = some (image.segmentByte q k)

variable {image : ElfImage} {fileSize : Nat} {phdr : Elf64Phdr}
    {maps done after phdrs : List Elf64Phdr} {st₀ st st' : Mmu}

theorem page_mod (st : Mmu) (r y : Nat) : st.page r (y % 512 ^ 4) = st.page r y :=
  congrArg (walk st.next r) (pagePath_mod y (Nat.le_refl 4))

theorem loading_start (hcr3 : st.InUse st.cr3) (hlt : st.cr3 < identityFrames)
    (hempty : ∀ i, 256 ≤ i → i < 512 → st.entry st.cr3 i = .empty) :
    Loading image st [] [] st := by
  have hspace : Space (256 ≤ ·) 4 st.cr3 st.InUse st := space_of_empty hcr3 hlt hempty
  have hnone : ∀ p, Path (256 ≤ ·) 4 p → walk st.next st.cr3 p = none :=
    fun p hp => walk_of_empty hempty hp
  refine ⟨⟨rfl, hspace, fun t i a ht ha hpres => ?_⟩,
    ⟨fun _ _ _ hw => hw, fun _ _ _ hw => .inl hw, rfl, rfl⟩,
    fun v hv hlt => ?_, List.forall_mem_nil _⟩
  · have := hnone _ ht
    rw [walk_snoc_of ha, next_of_present hpres] at this
    cases this
  · rw [page, hnone _ (path_pagePath (slot_of_high hv hlt))]
    simp

namespace Loading

theorem translate_isSome (h : Loading image st₀ maps done st) {user : Bool} {v : Nat}
    (hv : appBase ≤ v) (hlt : v < 2 ^ 64) :
    (st.translate user v).isSome ↔ ∃ q ∈ maps, q.Maps (v / 4096) := by
  rw [h.upper.translate hv hlt, Option.isSome_map]
  exact h.mapped v hv hlt

theorem setup (h : Loading image st₀ done done st) (hwf : image.WellFormed fileSize)
    (hst₀ : Space (256 ≤ ·) 4 st₀.cr3 st₀.InUse st₀) (hen : Enough st₀.cr3 image.LoadPaths st₀)
    (hsplit : image.programHeaders = done ++ phdr :: after) (hload : phdr.pType = PT_LOAD) :
    ∃ st', st.setupPageMaps ⟨phdr.pVaddr⟩ (loadPages phdr) = some (.ok (), st') ∧
      Loading image st₀ (done ++ [phdr]) done st' := by
  have hmem : phdr ∈ image.programHeaders := by simp [hsplit]
  have hseg := hwf.segment phdr hmem hload
  have hlt := ElfImage.pVaddr_lt hmem
  have hmod := Nat.mod_eq_of_lt (LinearAddress4Level.mk phdr.pVaddr).pageNumber_lt
  have hC : ∀ q, Covers [] 4 (LinearAddress4Level.mk phdr.pVaddr).pageNumber (loadPages phdr) q →
    image.LoadPaths q :=
    fun q hq => ⟨phdr, hmem, hload, hq⟩
  have hnot : ∀ st', ¬ Short (256 ≤ ·) 4 st₀.cr3 st₀.InUse
      (Covers [] 4 (LinearAddress4Level.mk phdr.pVaddr).pageNumber (loadPages phdr)) st st' :=
        fun st' hs => by
    obtain ⟨q, hq, hnone⟩ := hs.missing
    exact not_exhausted hst₀ (fun _ => ElfImage.LoadPaths.path hwf)
      image.finite_loadPaths hen hs.space
      (h.grown.trans (hs.grown.toExtends hC) hst₀ h.upper.space) hs.full (hC q hq) hnone
  have ho := setupPageMap_spec (Nat.le_refl 4) ⟨phdr.pVaddr⟩ (loadPages phdr) h.upper.space walk_nil
    (fun q hq => covers_high hseg.high hlt hq) (by simp)
  rw [hmod] at ho
  rcases hres : setupPageMap 4 st₀.cr3 ⟨phdr.pVaddr⟩ (loadPages phdr) st with _ | ⟨err | m, st'⟩ <;>
    rw [hres] at ho
  · obtain ⟨st', hs⟩ := ho
    exact absurd hs (hnot st')
  · exact absurd ho.2 (hnot st')
  obtain ⟨-, hs, hg, hm⟩ := ho
  have hexact := hg.mapsExactly h.upper.space hs hm
  have hup := h.upper.grow hs hg hm
  refine ⟨st', by rw [setupPageMaps, h.upper.cr3, hres, andThen_ok], hup,
    h.grown.trans (hg.toExtends hC) hst₀ h.upper.space, fun v hv hlt' =>
      ?_, fun q hq hq' k hk => ?_⟩
  · have hslot : 256 ≤ slot (v / 4096 % 512 ^ 4) := by
      have := slot_of_high hv hlt'
      rw [slot] at this ⊢
      omega
    have hiff := hexact.mapped (v / 4096 % 512 ^ 4) (Nat.mod_lt _ (by decide)) hslot
    rw [page_mod, page_mod, h.mapped v hv hlt'] at hiff
    have hrange : ((LinearAddress4Level.mk phdr.pVaddr).pageNumber ≤ v / 4096 % 512 ^ 4 ∧
        v / 4096 % 512 ^ 4 < (LinearAddress4Level.mk phdr.pVaddr).pageNumber + loadPages phdr) ↔
          phdr.Maps (v / 4096) := by
      have := hseg.high
      rw [LinearAddress4Level.pageNumber, Elf64Phdr.Maps]
      rw [appBase] at *
      dsimp only
      constructor
      · rintro ⟨hlo, hhi⟩
        exact ⟨hload, by omega, by omega⟩
      · rintro ⟨-, hlo, hhi⟩
        omega
    rw [hiff, hrange]
    constructor
    · rintro (hmaps | ⟨q, hq, hmaps⟩)
      · exact ⟨phdr, by simp, hmaps⟩
      · exact ⟨q, List.mem_append_left _ hq, hmaps⟩
    · rintro ⟨q, hq, hmaps⟩
      rcases List.mem_append.1 hq with hq | hq
      · exact .inr ⟨q, hq, hmaps⟩
      · exact .inl (List.mem_singleton.1 hq ▸ hmaps)
  · have hseg := hwf.segment q (by simp [hsplit, hq]) hq'
    have := hseg.high
    have := hseg.wrap
    exact h.upper.byteAt_grow hup hexact (by omega) (by omega) (h.bytes q hq hq' k hk)

end Loading

/-! ## One segment -/

/-- The bytes of a segment as it is copied. -/
def segmentBytes (image : ElfImage) (phdr : Elf64Phdr) : List UInt8 :=
  image.bytes phdr.pOffset phdr.pFilesz ++ List.replicate (phdr.pMemsz - phdr.pFilesz) 0

theorem length_segmentBytes (image : ElfImage) (hseg : phdr.WellFormed fileSize) :
    (segmentBytes image phdr).length = phdr.pMemsz := by
  have := hseg.filesz
  rw [segmentBytes, List.length_append, ElfImage.length_bytes, List.length_replicate]
  omega

theorem getElem?_segmentBytes (hseg : phdr.WellFormed fileSize) (hsize : fileSize < 2 ^ 32)
    {k : Nat} (hk : k < phdr.pMemsz) :
    (segmentBytes image phdr)[k]? = some (image.segmentByte phdr k) := by
  have := hseg.file
  rw [segmentBytes, ElfImage.segmentByte]
  split
  · rename_i hlt
    rw [List.getElem?_append_left (by rwa [ElfImage.length_bytes]),
      ElfImage.getElem?_bytes hlt (by omega)]
  · rename_i hge
    rw [List.getElem?_append_right (by rw [ElfImage.length_bytes]; omega), ElfImage.length_bytes,
      List.getElem?_replicate_of_lt (by omega)]

theorem copyLoadSegment_eq (hseg : phdr.WellFormed fileSize) (hlt : phdr.pVaddr < 2 ^ 64)
    (hset : st.setupPageMaps ⟨phdr.pVaddr⟩ (loadPages phdr) = some (.ok (), st')) :
    copyLoadSegment image phdr st = (st'.store phdr.pVaddr (segmentBytes image phdr)).map fun st =>
      (.ok (), st) := by
  have hzeros : (phdr.pMemsz + 2 ^ 64 - phdr.pFilesz) % 2 ^ 64 = phdr.pMemsz - phdr.pFilesz := by
    have := hseg.high
    have := hseg.wrap
    have := hseg.filesz
    rw [appBase] at *
    omega
  rw [copyLoadSegment, hset, andThen_ok, segmentBytes, ← store_append hlt, ElfImage.length_bytes,
    Option.map_bind]
  dsimp only
  rw [hzeros]
  rfl

/-- A segment all of whose pages are there is copied; else there is a page fault. -/
theorem Loading.copy (h : Loading image st₀ (done ++ [phdr]) done st)
    (hwf : image.WellFormed fileSize)
    (hst₀ : Space (256 ≤ ·) 4 st₀.cr3 st₀.InUse st₀)
    (hsplit : image.programHeaders = done ++ phdr :: after) (hload : phdr.pType = PT_LOAD) :
    (∃ st', st.store phdr.pVaddr (segmentBytes image phdr) = some st' ∧
        Loading image st₀ (done ++ [phdr]) (done ++ [phdr]) st' ∧
        ∀ k, k < phdr.pMemsz → (st.translate false (phdr.pVaddr + k)).isSome) ∨
      (st.store phdr.pVaddr (segmentBytes image phdr) = none ∧ ∃ k, k < phdr.pMemsz ∧
        ¬ (st.translate false (phdr.pVaddr + k)).isSome) := by
  have hseg := hwf.segment phdr (by simp [hsplit]) hload
  have hlen := length_segmentBytes image hseg
  have hwrap : phdr.pVaddr + (segmentBytes image phdr).length ≤ 2 ^ 64 := by
    rw [hlen]; exact hseg.wrap
  obtain ⟨hup, hsame, hok, hbytes⟩ := h.upper.storeBytes hseg.high hwrap
  rw [store_eq]
  by_cases htrue : (st.storeBytes phdr.pVaddr (segmentBytes image phdr)).2 = true
  · have hall := hok.1 htrue
    rw [hlen] at hall
    refine .inl ⟨_, if_pos htrue, ⟨hup, ?_, fun v hv hlt => ?_, fun q hq hq' k hk => ?_⟩, hall⟩
    · exact h.grown.trans hsame.toExtends hst₀ h.upper.space
    · rw [hsame.page hv hlt]
      exact h.mapped v hv hlt
    · have hqseg :=
        hwf.segment q (by rw [hsplit]; rcases List.mem_append.1 hq with hq | hq <;> simp_all) hq'
      have := hqseg.high
      have := hqseg.wrap
      rw [hbytes htrue _ (by omega) (by omega), hlen]
      rcases List.mem_append.1 hq with hq | hq
      · have hapart := hwf.apart
        rw [hsplit, List.pairwise_append] at hapart
        have := hapart.2.2 q hq phdr (List.mem_cons_self ..) hq' hload
        rw [Elf64Phdr.Apart] at this
        rw [if_neg (by omega)]
        exact h.bytes q hq hq' k hk
      · obtain rfl := List.mem_singleton.1 hq
        rw [if_pos (by omega), Nat.add_sub_cancel_left]
        exact getElem?_segmentBytes hseg hwf.fileSize hk
  · refine .inr ⟨if_neg htrue, ?_⟩
    by_contra hno
    refine htrue (hok.2 fun k hk => ?_)
    by_contra hk'
    exact hno ⟨k, by rwa [hlen] at hk, hk'⟩

/-! ## All segments -/

theorem copyLoadSegments_append (image : ElfImage) (phdrs phdrs' : List Elf64Phdr) (st : Mmu) :
    copyLoadSegments image (phdrs ++ phdrs') st =
      Result.andThen (copyLoadSegments image phdrs st) fun _ st =>
        copyLoadSegments image phdrs' st := by
  induction phdrs generalizing st with
  | nil => rfl
  | cons phdr phdrs ih =>
    rw [List.cons_append, copyLoadSegments, copyLoadSegments]
    split
    · exact ih st
    · rcases copyLoadSegment image phdr st with _ | ⟨_ | u, st₁⟩
      · rfl
      · rfl
      · rw [andThen_ok, andThen_ok]
        exact ih st₁

theorem Loading.skip (h : Loading image st₀ done done st) (hload : phdr.pType ≠ PT_LOAD) :
    Loading image st₀ (done ++ [phdr]) (done ++ [phdr]) st where
  upper := h.upper
  grown := h.grown
  mapped v hv hlt := by
    rw [h.mapped v hv hlt]
    constructor
    · rintro ⟨q, hq, hmaps⟩
      exact ⟨q, List.mem_append_left _ hq, hmaps⟩
    · rintro ⟨q, hq, hmaps⟩
      rcases List.mem_append.1 hq with hq | hq
      · exact ⟨q, hq, hmaps⟩
      · exact absurd (List.mem_singleton.1 hq ▸ hmaps.1) hload
  bytes q hq hq' := by
    rcases List.mem_append.1 hq with hq | hq
    · exact h.bytes q hq hq'
    · exact absurd (List.mem_singleton.1 hq ▸ hq') hload

theorem lastPagesMapped_nil : Elf64Phdr.LastPagesMapped [] :=
  fun before phdr after heq => by simp at heq

theorem lastPagesMapped_snoc : Elf64Phdr.LastPagesMapped (done ++ [phdr]) ↔
    Elf64Phdr.LastPagesMapped done ∧
    (phdr.pType = PT_LOAD → 0 < phdr.pMemsz → ∃ q ∈ done ++ [phdr], q.Maps phdr.lastPage) := by
  constructor
  · refine fun h => ⟨fun before q after heq => ?_, h done phdr [] rfl⟩
    exact h before q (after ++ [phdr]) (by rw [heq, List.append_assoc, List.cons_append])
  · rintro ⟨h, hlast⟩ before q after heq
    rcases List.eq_nil_or_concat after with rfl | ⟨after, last, rfl⟩
    · obtain ⟨rfl, hq⟩ := List.append_inj' heq rfl
      obtain rfl := List.singleton_inj.1 hq
      exact hlast
    · rw [List.concat_eq_append, ← List.cons_append, ← List.append_assoc] at heq
      exact h before q after (List.append_inj' heq rfl).1

theorem lastPagesMapped_append (h : Elf64Phdr.LastPagesMapped (done ++ after)) :
    Elf64Phdr.LastPagesMapped done := by
  induction after using List.reverseRecOn with
  | nil => rwa [List.append_nil] at h
  | append_singleton after phdr ih =>
    rw [← List.append_assoc] at h
    exact ih (lastPagesMapped_snoc.1 h).1

theorem Loading.mapped_iff (h : Loading image st₀ (done ++ [phdr]) done st)
    (hseg : phdr.WellFormed fileSize)
    (hload : phdr.pType = PT_LOAD) :
    (∀ k, k < phdr.pMemsz → (st.translate false (phdr.pVaddr + k)).isSome) ↔
      (0 < phdr.pMemsz → ∃ q ∈ done ++ [phdr], q.Maps phdr.lastPage) := by
  have hhigh := hseg.high
  have hwrap := hseg.wrap
  constructor
  · intro hall hpos
    have := hall (phdr.pMemsz - 1) (by omega)
    rw [h.translate_isSome (by omega) (by omega), ← Nat.add_sub_assoc hpos] at this
    exact this
  · intro hlast k hk
    rw [h.translate_isSome (by omega) (by omega)]
    rcases ElfImage.maps_or_lastPage hseg hload hk with hmaps | heq
    · exact ⟨phdr, by simp, hmaps⟩
    · rw [heq]
      exact hlast (by omega)

theorem copyLoadSegments_spec (hwf : image.WellFormed fileSize) (h₀ : Loading image st₀ [] [] st₀)
    (hst₀ : Space (256 ≤ ·) 4 st₀.cr3 st₀.InUse st₀) (hen : Enough st₀.cr3 image.LoadPaths st₀)
    (hsplit : image.programHeaders = done ++ after) :
    (∃ st, copyLoadSegments image done st₀ = some (.ok (), st) ∧ Loading image st₀ done done st ∧
        Elf64Phdr.LastPagesMapped done) ∨
      (copyLoadSegments image done st₀ = none ∧ ¬ Elf64Phdr.LastPagesMapped done) := by
  induction done using List.reverseRecOn generalizing after with
  | nil => exact .inl ⟨st₀, rfl, h₀, lastPagesMapped_nil⟩
  | append_singleton done phdr ih =>
    rw [List.append_assoc, List.singleton_append] at hsplit
    rw [copyLoadSegments_append, lastPagesMapped_snoc]
    rcases ih hsplit with ⟨st, hrun, h, hlast⟩ | ⟨hrun, hlast⟩
    swap
    · rw [hrun]
      exact .inr ⟨rfl, fun hand => hlast hand.1⟩
    rw [hrun, andThen_ok, copyLoadSegments]
    by_cases hload : phdr.pType = PT_LOAD
    swap
    · rw [if_pos hload]
      exact .inl ⟨st, rfl, h.skip hload, hlast, fun hl => absurd hl hload⟩
    have hmem : phdr ∈ image.programHeaders := by simp [hsplit]
    have hseg := hwf.segment phdr hmem hload
    obtain ⟨st₁, hset, h₁⟩ := h.setup hwf hst₀ hen hsplit hload
    rw [if_neg (not_not.2 hload), copyLoadSegment_eq hseg (ElfImage.pVaddr_lt hmem) hset]
    rcases h₁.copy hwf hst₀ hsplit hload with ⟨st₂, hstore, h₂, hall⟩ | ⟨hstore, k, hk, hno⟩
    · rw [hstore]
      exact .inl ⟨st₂, rfl, h₂, hlast, fun _ => (h₁.mapped_iff hseg hload).1 hall⟩
    · rw [hstore]
      refine .inr ⟨rfl, fun hand => hno ?_⟩
      exact (h₁.mapped_iff hseg hload).2 (hand.2 hload) k hk

theorem loadELF_eq (hwf : image.WellFormed fileSize) :
    st.loadELF image = copyLoadSegments image image.programHeaders st := by
  have hfirst : ¬ image.getFirstLoadAddress < 0xffff800000000000 := by
    rw [ElfImage.getFirstLoadAddress]
    split
    · rename_i phdr hfind
      have hload := List.find?_some hfind
      have := (hwf.segment phdr (List.mem_of_find?_eq_some hfind) (by simpa using hload)).high
      rw [appBase] at this
      omega
    · rename_i hfind
      obtain ⟨phdr, hmem, hload⟩ := hwf.load
      have := List.find?_eq_none.1 hfind phdr hmem
      simp [hload] at this
  rw [loadELF, if_neg (not_not.2 hwf.exec), if_neg hfirst]

section

variable {pml4 : Nat} (hrun : st₀.setupPML4 = some (.ok pml4, st)) (hwf : image.WellFormed fileSize)
  (hen : Enough st.cr3 image.LoadPaths st)

include hrun

theorem space_setupPML4 : Space (256 ≤ ·) 4 st.cr3 st.InUse st := by
  obtain ⟨rfl, hused, hlt, hempty⟩ := setupPML4_high hrun
  exact space_of_empty hused hlt hempty

theorem loading_setupPML4 (image : ElfImage) : Loading image st [] [] st := by
  obtain ⟨rfl, hused, hlt, hempty⟩ := setupPML4_high hrun
  exact loading_start hused hlt hempty

include hwf hen

theorem loadELF_complete (hlast : Elf64Phdr.LastPagesMapped image.programHeaders) :
    LoadsCompletely image st := by
  have hst := space_setupPML4 hrun
  have h₀ := loading_setupPML4 hrun image
  have hspec : ∀ {done after}, image.programHeaders = done ++ after → ∃ st₁,
      copyLoadSegments image done st = some (.ok (), st₁) ∧ Loading image st done done st₁ :=
        fun hsplit => by
    have hdone := lastPagesMapped_append (hsplit ▸ hlast)
    obtain ⟨st₁, hrun₁, h₁, -⟩ :=
      (copyLoadSegments_spec hwf h₀ hst hen hsplit).resolve_right fun hno => hno.2 hdone
    exact ⟨st₁, hrun₁, h₁⟩
  refine ⟨fun before phdr after hsplit hload => ?_, ?_⟩
  · have hseg := hwf.segment phdr (by simp [hsplit]) hload
    obtain ⟨st₁, hrun₁, h₁⟩ := hspec hsplit
    obtain ⟨st₂, hset, h₂⟩ := h₁.setup hwf hst hen hsplit hload
    exact ⟨st₁, st₂, hrun₁, hset,
      (h₂.mapped_iff hseg hload).2 (hlast before phdr after hsplit hload)⟩
  · obtain ⟨st', hall, h⟩ := hspec (List.append_nil _).symm
    exact ⟨st', (loadELF_eq hwf).trans hall, h.bytes⟩

/-- The first last page that is missing ends in a page fault. -/
theorem loadELF_fault (hlast : ¬ Elf64Phdr.LastPagesMapped image.programHeaders) :
    st.loadELF image = none := by
  have hst := space_setupPML4 hrun
  have h₀ := loading_setupPML4 hrun image
  obtain ⟨hnone, -⟩ := (copyLoadSegments_spec hwf h₀ hst hen (List.append_nil _).symm).resolve_left
    fun ⟨_, _, _, h⟩ => hlast h
  exact (loadELF_eq hwf).trans hnone

end

/-- After `SetupPML4` a well-formed image is loaded completely exactly if the last page of each
segment is mapped in time; else `LoadELF` does not return. -/
theorem loadELF_complete_iff {pml4 : Nat} (hrun : st₀.setupPML4 = some (.ok pml4, st))
    (hwf : image.WellFormed fileSize)
    (hen : Enough st.cr3 image.LoadPaths st) :
    (LoadsCompletely image st ↔ Elf64Phdr.LastPagesMapped image.programHeaders) ∧
      (¬ Elf64Phdr.LastPagesMapped image.programHeaders → st.loadELF image = none) := by
  refine ⟨⟨fun hloads => ?_, loadELF_complete hrun hwf hen⟩, loadELF_fault hrun hwf hen⟩
  by_contra hlast
  obtain ⟨st', hok, -⟩ := hloads.result
  rw [loadELF_fault hrun hwf hen hlast] at hok
  cases hok

/-- An image with one segment: one byte of the file and one zero, from `0xffff'8000'0000'0000 + 256
* hi + lo` on. -/
def oneSegment (lo hi : UInt8) : ElfImage
  | 0 => 0x7f
  | 1 => 0x45
  | 2 => 0x4c
  | 3 => 0x46
  | 16 => 2
  | 32 => 64
  | 56 => 1
  | 64 => 1
  | 72 => 120
  | 80 => lo
  | 81 => hi
  | 85 => 0x80
  | 86 => 0xff
  | 87 => 0xff
  | 96 => 1
  | 104 => 2
  | 120 => 0x42
  | _ => 0

theorem wellFormed_oneSegment {lo hi : UInt8} {vaddr : Nat}
    (hheaders : (oneSegment lo hi).programHeaders = [⟨PT_LOAD, 120, vaddr, 1, 2⟩])
    (hlo : appBase ≤ vaddr)
    (hhi : vaddr + 2 ≤ 2 ^ 64) : (oneSegment lo hi).WellFormed 121 := by
  refine ⟨rfl, ⟨⟨PT_LOAD, 120, vaddr, 1, 2⟩, by simp [hheaders], rfl⟩, fun phdr hmem _ => ?_, by
    simp [hheaders], by decide⟩
  rw [hheaders, List.mem_singleton] at hmem
  rw [hmem]
  exact ⟨hlo, hhi, Nat.le_refl 121, Nat.le_succ 1⟩

theorem enough_oneSegment {lo hi : UInt8} {vaddr base : Nat}
    (hheaders : (oneSegment lo hi).programHeaders = [⟨PT_LOAD, 120, vaddr, 1, 2⟩])
    (hspare : ∀ g, base ≤ g → g < base + 4 → st.Spare g) :
    Enough st.cr3 (oneSegment lo hi).LoadPaths st := by
  have hpages : loadPages ⟨PT_LOAD, 120, vaddr, 1, 2⟩ = 1 := by simp [loadPages]
  have hone : Enough st.cr3 (Covers [] 4 (LinearAddress4Level.mk vaddr).pageNumber 1) st :=
    enough_one hspare
  refine (Set.encard_mono fun q hq => ?_).trans hone
  obtain ⟨⟨phdr, hmem, -, hc⟩, hnone⟩ := hq
  rw [hheaders, List.mem_singleton] at hmem
  subst hmem
  rw [hpages] at hc
  exact ⟨hc, hnone⟩

theorem setupPML4_blank : ∃ pml4 st base, blank.setupPML4 = some (.ok pml4, st) ∧ ∀ g, base ≤ g →
    g < base + 4 → st.Spare g := by
  have hcount : identityFrames = 16777216 := by decide
  have hspare := spare_blank (Nat.le_refl 2) (by decide)
  rcases hnew : blank.newPageMap with _ | ⟨err | pml4, st⟩
  · exact absurd hspare (newPageMap_none hnew)
  · exact absurd hspare ((newPageMap_error hnew).2.2 2)
  · obtain ⟨manager, rfl, -, -, hbegin, hend, hbits⟩ := newPageMap_ok hnew
    refine ⟨pml4, _, if pml4 < 6 then 6 else 2, by
      rw [setupPML4, hnew, andThen_ok]; rfl, fun g hlo hhi => ?_⟩
    have hrange : 2 ≤ g ∧ g < 10 ∧ g ≠ pml4 := by split at hlo <;> split at hhi <;> omega
    have hg := spare_blank hrange.1 (by omega)
    refine ⟨hbegin ▸ hg.rangeBegin, hend ▸ hg.rangeEnd, hg.lt, ?_⟩
    dsimp only
    rw [clearFrame, hbits, if_neg hrange.2.2, hg.free]

theorem loadELF_complete_iff_oneSegment : ∃ pml4 st, blank.setupPML4 = some (.ok pml4, st) ∧
    (LoadsCompletely (oneSegment 0x23 0x01) st ↔
      Elf64Phdr.LastPagesMapped (oneSegment 0x23 0x01).programHeaders) ∧
    (¬ Elf64Phdr.LastPagesMapped (oneSegment 0x23 0x01).programHeaders →
      st.loadELF (oneSegment 0x23 0x01) = none) ∧
    Elf64Phdr.LastPagesMapped (oneSegment 0x23 0x01).programHeaders := by
  obtain ⟨pml4, st, base, hrun, hspare⟩ := setupPML4_blank
  have hheaders : (oneSegment 0x23 0x01).programHeaders =
    [⟨PT_LOAD, 120, 0xffff800000000123, 1, 2⟩] := by decide
  obtain ⟨hiff, hnone⟩ :=
    loadELF_complete_iff hrun (wellFormed_oneSegment hheaders (by decide) (by decide))
    (enough_oneSegment hheaders hspare)
  refine ⟨pml4, st, hrun, hiff, hnone, ?_⟩
  rw [hheaders]
  exact lastPagesMapped_snoc.2 ⟨lastPagesMapped_nil, fun _ _ =>
    ⟨_, List.mem_singleton_self _, rfl, by decide, by decide⟩⟩

/-- The second byte of the segment is in a page that is not mapped. -/
theorem not_loadELF_complete : ¬ ∀ (image : ElfImage) (fileSize : Nat) (st₀ st : Mmu) (pml4 : Nat),
    st₀.setupPML4 = some (.ok pml4, st) → image.WellFormed fileSize →
      Enough st.cr3 image.LoadPaths st →
    LoadsCompletely image st := fun h => by
  obtain ⟨pml4, st, base, hrun, hspare⟩ := setupPML4_blank
  have hheaders : (oneSegment 0xff 0x0f).programHeaders =
    [⟨PT_LOAD, 120, 0xffff800000000fff, 1, 2⟩] := by decide
  have hloads := h _ 121 _ _ _ hrun (wellFormed_oneSegment hheaders (by decide) (by decide))
    (enough_oneSegment hheaders hspare)
  obtain ⟨st', hok, -⟩ := hloads.result
  rw [loadELF_fault hrun (wellFormed_oneSegment hheaders (by decide) (by decide))
    (enough_oneSegment hheaders hspare)] at hok
  · cases hok
  rw [hheaders]
  intro hlast
  obtain ⟨q, hq, -, -, hlt⟩ := hlast [] _ [] rfl rfl (by decide)
  obtain rfl := List.mem_singleton.1 hq
  revert hlt
  decide

end Mmu

end Moxia
