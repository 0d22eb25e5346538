import Moxia.App.Loading
import Moxia.Paging.Identity

/-!
# Isolation of the kernel

`LoadELF` checks the address of the first segment only, and `syscall::read` no address at all. So
the lower half stays as it was exactly if all segments of the image are in the upper half and no
`read` gets to an address below it (`isolated_iff`).
-/

namespace Moxia

open Lib

/-- No byte of the segment is below the upper half, and none behind the last address. -/
def Elf64Phdr.High (phdr : Elf64Phdr) : Prop :=
  0 < phdr.pMemsz → appBase ≤ phdr.pVaddr ∧ phdr.pVaddr + phdr.pMemsz ≤ 2 ^ 64

namespace Mmu

/-- From `st` to `st'` nothing has been written to the lower half for an application, and no entry
of a table of the lower half is new or has changed. -/
structure Isolated (st st' : Mmu) : Prop where
  stores : HighStores st st'
  entry : ∀ t i a, Path (· < 256) 4 (t ++ [i]) → walk st'.nextTable st'.cr3 t = some a →
    walk st.nextTable st.cr3 t = some a ∧ st'.entry a i = st.entry a i

/-- `st'` comes from `st`, and from a state in which only the upper half has changed this is
isolated if and only if `P` holds. -/
structure Effect (B : Nat → Prop) (st₀ : Mmu) (P : Prop) (st st' : Mmu) : Prop where
  stores : st.stores <+: st'.stores
  high : Confined B st₀ st → (HighStores st st' ↔ P)
  confined : Confined B st₀ st → P → Confined B st₀ st'

variable {B : Nat → Prop} {P Q : Prop} {st₀ st st' st'' : Mmu} {dst : Nat} {bytes : List UInt8}
  {image : ElfImage}
  {phdr : Elf64Phdr}

namespace Effect

theorem refl (st : Mmu) : Effect B st₀ True st st :=
  ⟨List.prefix_rfl, fun _ => iff_of_true (HighStores.refl st) trivial, fun h _ => h⟩

theorem congr (h : Effect B st₀ P st st') (hiff : P ↔ Q) : Effect B st₀ Q st st' :=
  ⟨h.stores, fun hc => (h.high hc).trans hiff, fun hc hq => h.confined hc (hiff.2 hq)⟩

/-- A bad step cannot be made up for, as stores are never taken back. -/
theorem trans (h : Effect B st₀ P st st') (h' : Effect B st₀ Q st' st'') :
    Effect B st₀ (P ∧ Q) st st'' where
  stores := h.stores.trans h'.stores
  high hc := by
    constructor
    · intro hs
      obtain ⟨hs, hs'⟩ := hs.split h.stores h'.stores
      have hp := (h.high hc).1 hs
      exact ⟨hp, (h'.high (h.confined hc hp)).1 hs'⟩
    · rintro ⟨hp, hq⟩
      exact ((h.high hc).2 hp).trans ((h'.high (h.confined hc hp)).2 hq)
  confined hc hpq := h'.confined (h.confined hc hpq.1) hpq.2

end Effect

/-! ## Loading -/

theorem highStores_store (hdst : dst < 2 ^ 64) (hrun : st.storeBytes dst bytes = (st', true)) :
    bytes.length < 2 ^ 64 ∧ (HighStores st st' ↔ 0 < bytes.length →
      appBase ≤ dst ∧ dst + bytes.length ≤ 2 ^ 64) := by
  obtain ⟨hstores, hcanon⟩ := storeBytes_all hdst hrun
  have hlen : bytes.length < 2 ^ 64 := by
    -- one of any 2 ^ 64 addresses in turn is not canonical
    by_contra hge
    have := hcanon ((2 ^ 47 + 2 ^ 64 - dst) % 2 ^ 64) (by omega)
    rw [Canonical] at this
    omega
  refine ⟨hlen, ?_⟩
  have hhigh : HighStores st st' ↔ ∀ k, k < bytes.length → appBase ≤ (dst + k) % 2 ^ 64 := by
    constructor
    · rintro ⟨new, heq, hnew⟩ k hk
      rw [hstores, List.append_cancel_left_eq] at heq
      subst heq
      exact hnew _ (List.mem_map.2 ⟨k, List.mem_range.2 hk, rfl⟩)
    · intro h
      refine ⟨_, hstores, fun v hv => ?_⟩
      obtain ⟨k, hk, rfl⟩ := List.mem_map.1 hv
      exact h k (List.mem_range.1 hk)
  rw [hhigh, appBase]
  constructor
  · intro h hpos
    have hfirst := h 0 hpos
    have hlast := h (2 ^ 64 - dst)
    omega
  · intro h k hk
    have := h (by omega)
    omega

theorem HighStores.congr_left {s s' : Mmu} (h : s.stores = s'.stores) : HighStores s st ↔
    HighStores s' st := by
  rw [HighStores, HighStores, h]

theorem store_eq_some : st.store dst bytes = some st' ↔ st.storeBytes dst bytes = (st', true) := by
  rw [store]
  rcases st.storeBytes dst bytes with ⟨s, _ | _⟩ <;> simp

theorem setupPageMaps_zero (st : Mmu) (addr : LinearAddress4Level) :
    st.setupPageMaps addr 0 = some (.ok (), st) := by
  rw [setupPageMaps, setupPageMap, setupLoop, if_pos rfl, andThen_ok]

theorem copyLoadSegment_ok (hvaddr : phdr.pVaddr < 2 ^ 64) (hfilesz : phdr.pFilesz < 2 ^ 64)
    (hmemsz : phdr.pMemsz < 2 ^ 64)
    (hrun : copyLoadSegment image phdr st = some (.ok (), st')) :
    ∃ st₁ bytes, st.setupPageMaps ⟨phdr.pVaddr⟩ (loadPages phdr) = some (.ok (), st₁) ∧
      st₁.storeBytes phdr.pVaddr bytes = (st', true) ∧ bytes.length = phdr.pMemsz ∧
        (HighStores st₁ st' ↔ phdr.High) := by
  obtain ⟨⟨⟩, st₁, hset, hrun⟩ := andThen_eq_ok hrun
  obtain ⟨st₂, hcopy, hrun⟩ := Option.bind_eq_some_iff.1 hrun
  obtain ⟨st₃, hclear, heq⟩ := Option.map_eq_some_iff.1 hrun
  cases heq
  set bytes := image.bytes phdr.pOffset phdr.pFilesz ++
    List.replicate ((phdr.pMemsz + 2 ^ 64 - phdr.pFilesz) % 2 ^ 64) 0 with hbytes
  have hstore : st₁.storeBytes phdr.pVaddr bytes = (st', true) := by
    refine store_eq_some.1 ?_
    rw [hbytes, ← store_append hvaddr, hcopy, Option.bind_some, ElfImage.length_bytes]
    exact hclear
  obtain ⟨hlt, hhigh⟩ := highStores_store hvaddr hstore
  have hlen : bytes.length = phdr.pMemsz := by
    rw [hbytes, List.length_append, ElfImage.length_bytes, List.length_replicate] at hlt ⊢
    omega
  rw [hlen] at hhigh
  exact ⟨st₁, bytes, hset, hstore, hlen, hhigh⟩

theorem loadPages_zero (hmemsz : ¬ 0 < phdr.pMemsz) : loadPages phdr = 0 := by
  simp [loadPages, Nat.eq_zero_of_not_pos hmemsz]

/-- The pages of a segment without bytes are none. -/
theorem Confined.setupSegment (hc : Confined B st₀ st) (hvaddr : phdr.pVaddr < 2 ^ 64)
    (hseg : phdr.High)
    (hset : st.setupPageMaps ⟨phdr.pVaddr⟩ (loadPages phdr) = some (.ok (), st')) :
    Confined B st₀ st' := by
  by_cases hpos : 0 < phdr.pMemsz
  · exact hc.setupPageMaps (hseg hpos).1 hvaddr hset
  · rw [loadPages_zero hpos, setupPageMaps_zero] at hset
    cases hset
    exact hc

theorem effect_copyLoadSegment (hk : KernelHalf B st₀) (hvaddr : phdr.pVaddr < 2 ^ 64)
    (hfilesz : phdr.pFilesz < 2 ^ 64)
    (hmemsz : phdr.pMemsz < 2 ^ 64) (hrun : copyLoadSegment image phdr st = some (.ok (), st')) :
    Effect B st₀ phdr.High st st' := by
  obtain ⟨st₁, bytes, hset, hstore, -, hhigh⟩ := copyLoadSegment_ok hvaddr hfilesz hmemsz hrun
  have hsteady := (setupPageMaps_steady hset).stores
  refine ⟨?_, fun _ => ?_, fun hc hseg => ?_⟩
  · have := prefix_storeBytes st₁ phdr.pVaddr bytes
    rwa [hstore, hsteady] at this
  · rw [HighStores.congr_left hsteady.symm, hhigh]
  · have hwrites :=
      @Confined.storeBytes B st₀ st₁ phdr.pVaddr bytes (hc.setupSegment hvaddr hseg hset) hk hvaddr
    rw [hstore] at hwrites
    exact (hwrites.1 (hwrites.2 (hhigh.2 hseg))).1

theorem effect_copyLoadSegments (hk : KernelHalf B st₀) {is : List Nat}
    (hrun : copyLoadSegments image (is.map image.programHeader) st = some (.ok (), st')) :
    Effect B st₀ (∀ i ∈ is, (image.programHeader i).pType = PT_LOAD →
      (image.programHeader i).High) st st' := by
  induction is generalizing st with
  | nil =>
    cases hrun
    exact (Effect.refl _).congr (iff_of_true trivial (List.forall_mem_nil _))
  | cons i is ih =>
    rw [List.map_cons, copyLoadSegments] at hrun
    split at hrun
    · rename_i htype
      exact (ih hrun).congr
        (List.forall_mem_cons.trans (and_iff_right fun h => absurd h htype)).symm
    · rename_i htype
      obtain ⟨⟨⟩, st₁, hseg, hrun⟩ := andThen_eq_ok hrun
      refine ((effect_copyLoadSegment hk loadLE_lt loadLE_lt loadLE_lt hseg).trans (ih hrun)).congr
        ?_
      rw [List.forall_mem_cons, imp_iff_right (not_not.1 htype)]

theorem loadELF_ok (hload : st.loadELF image = some (.ok (), st')) :
    appBase ≤ image.getFirstLoadAddress ∧
    copyLoadSegments image image.programHeaders st = some (.ok (), st') := by
  rw [loadELF] at hload
  split at hload
  · cases hload
  split at hload
  · cases hload
  · rename_i hfirst
    exact ⟨Nat.le_of_not_lt hfirst, hload⟩

theorem effect_loadELF (hk : KernelHalf B st₀) (hload : st.loadELF image = some (.ok (), st')) :
    Effect B st₀ (∀ phdr ∈ image.programHeaders, phdr.pType = PT_LOAD → phdr.High) st st' := by
  refine (effect_copyLoadSegments hk (loadELF_ok hload).2).congr ?_
  rw [ElfImage.programHeaders, List.forall_mem_map]

/-! ## The running application -/

/-- A `read` gets to no address below the upper half before it is done or faults. -/
def ReadsHigh (st : Mmu) : AppEvent → Prop
  | .read files arg1 arg2 arg3 => StoresHigh st arg2.toNat (readBytes files arg1 arg3)
  | _ => True

theorem read_fst (st : Mmu) (files : Files) (arg1 arg2 arg3 : UInt64) :
    (st.read files arg1 arg2 arg3).1 =
      (st.storeBytes arg2.toNat (readBytes files arg1 arg3)).1 := by
  rw [read, readBytes]
  cases openFile files arg1 with
  | none => rfl
  | some read =>
    dsimp only
    rcases st.storeBytes arg2.toNat (read arg3.toNat) with ⟨s, _ | _⟩ <;> rfl

theorem read_state {files : Files} {arg1 arg2 arg3 : UInt64} {result : Option SyscallResult}
    (hrun : st.read files arg1 arg2 arg3 = (st', result)) :
    st' = (st.storeBytes arg2.toNat (readBytes files arg1 arg3)).1 := by
  rw [← read_fst, hrun]

theorem effect_setupPageMaps {vaddr n : Nat} (hv : appBase ≤ vaddr) (hlt : vaddr < 2 ^ 64)
    (hrun : st.setupPageMaps ⟨vaddr⟩ n = some (.ok (), st')) : Effect B st₀ True st st' := by
  have hstores := (setupPageMaps_steady hrun).stores
  exact ⟨hstores ▸ List.prefix_rfl, fun _ => iff_of_true (.of_eq hstores) trivial, fun hc _ =>
    hc.setupPageMaps hv hlt hrun⟩

/-- Nothing but a `read` of a bad address leads out of the upper half. -/
theorem effect_appStep (hk : KernelHalf B st₀) {e : AppEvent} (hstep : AppStep st e st') :
    Effect B st₀ (ReadsHigh st e) st st' := by
  cases hstep with
  | argsPage hrun => exact effect_setupPageMaps (by decide) (by decide) hrun
  | stackPage hrun => exact effect_setupPageMaps (by decide) (by decide) hrun
  | store htr =>
    refine ⟨List.prefix_rfl, fun _ => iff_of_true (.of_eq rfl) trivial, fun hc _ => ?_⟩
    obtain ⟨p, hp, hlen, hg⟩ := hc.page hk (UInt64.toNat_lt _) (.inr rfl) htr
    exact (hc.poke hk hp hlen hg).1
  | @read _ files arg1 arg2 arg3 _ hrun =>
    rw [ReadsHigh, read_state hrun]
    refine ⟨prefix_storeBytes _ _ _, fun hc => ?_, fun hc hhigh =>
      ((hc.storeBytes hk (UInt64.toNat_lt _)).1 hhigh).1⟩
    obtain ⟨hfwd, hbwd⟩ :=
      @Confined.storeBytes B st₀ _ _ (readBytes files arg1 arg3) hc hk (UInt64.toNat_lt arg2)
    exact ⟨hbwd, fun hhigh => (hfwd hhigh).2.1⟩

theorem AppStep.det {e : AppEvent} (h : AppStep st e st')
    (h' : AppStep st e st'') : st' = st'' := by
  cases h with
  | argsPage hrun | stackPage hrun =>
    cases h' with
    | _ hrun' =>
      rw [hrun] at hrun'
      cases hrun'
      rfl
  | store htr =>
    cases h' with
    | store htr' =>
      rw [htr] at htr'
      cases htr'
      rfl
  | read hrun =>
    cases h' with
    | read hrun' => exact congrArg Prod.fst (hrun.symm.trans hrun')

theorem run_cons_iff {e : AppEvent} {es : List AppEvent} (hstep : AppStep st e st') :
    Run (Guarded ReadsHigh AppStep) st (e :: es) st'' ↔
      ReadsHigh st e ∧ Run (Guarded ReadsHigh AppStep) st' es st'' := by
  constructor
  · intro h
    cases h with
    | cons h hs =>
      rw [hstep.det h.2]
      exact ⟨h.1, hs⟩
  · rintro ⟨h, hs⟩
    exact .cons ⟨h, hstep⟩ hs

theorem effect_run (hk : KernelHalf B st₀) {es : List AppEvent} (hrun : Run AppStep st es st') :
    Effect B st₀ (Run (Guarded ReadsHigh AppStep) st es st') st st' := by
  induction hrun with
  | nil s => exact (Effect.refl s).congr (iff_of_true trivial (.nil s))
  | cons hstep _ ih => exact ((effect_appStep hk hstep).trans ih).congr (run_cons_iff hstep).symm

theorem Confined.isolated (hk : KernelHalf B st₀) (h : Confined B st₀ st)
    (hs : HighStores st₀ st) : Isolated st₀ st :=
  ⟨hs, fun _ _ _ ht hw => h.entry_kernel hk ht hw⟩

/-- From the new address space on, the lower half stays as it is exactly if all segments are in the
upper half and no `read` gets to an address below it. -/
theorem isolated_iff {st₀ st₁ st₂ st₃ : Mmu} {pml4 : Nat} {es : List AppEvent}
    (hk : KernelTables st₀)
    (hsetup : st₀.setupPML4 = some (.ok pml4, st₁)) (hload : st₁.loadELF image = some (.ok (), st₂))
    (hrun : Run AppStep st₂ es st₃) : Isolated st₁ st₃ ↔
      (∀ phdr ∈ image.programHeaders, phdr.pType = PT_LOAD → phdr.High) ∧
        Run (Guarded ReadsHigh AppStep) st₂ es st₃ := by
  have hcr3 := hk.table [] st₀.cr3 (.inl rfl) rfl
  obtain ⟨hhalf, hconf⟩ := (setupPML4_ok hcr3 hsetup).confined hk
  have heffect := (effect_loadELF hhalf hload).trans (effect_run hhalf hrun)
  refine ⟨fun h => (heffect.high hconf).1 h.stores, fun h => ?_⟩
  exact (heffect.confined hconf h).isolated hhalf ((heffect.high hconf).2 h)

/-! ## The tables at the start -/

theorem setupIdentityPageTable_memoryManager (t : StaticTables) (st : Mmu) :
    (setupIdentityPageTable t st).memoryManager = st.memoryManager := by
  have hfill : ∀ (f : Nat → Nat) (data : Nat → Nat → Nat) (i n : Nat) (st : Mmu),
      ((List.range n).foldl (fun st j => st.setData (f i) j (data i j)) st).memoryManager =
        st.memoryManager :=
    fun f data i n st => by
      induction n with
      | zero => rfl
      | succ n ih =>
          rwa [List.range_succ, List.foldl_append, List.foldl_cons, List.foldl_nil, setData]
  have hrounds : ∀ n (st : Mmu), ((List.range n).foldl (setupDirectory t) st).memoryManager =
    st.memoryManager := fun n st => by
    induction n with
    | zero => rfl
    | succ n ih => rwa [List.range_succ, List.foldl_append, List.foldl_cons, List.foldl_nil,
        setupDirectory, hfill]
  rw [setupIdentityPageTable_eq]
  dsimp only
  rw [hrounds, setData]

theorem nextTable_empty {a i : Nat} (h : st.entry a i = .empty) : st.nextTable a i = none := by
  rw [nextTable, h]
  exact if_neg fun h => absurd h.1 (by decide)

/-- What `SetupIdentityPageTable` makes is closed to applications. -/
theorem kernelTables_identity {t : StaticTables} (ht : t.Ok st) (hzero : ∀ i, st.mem t.pml4 i = 0)
    (hpml4 : st.memoryManager.bit t.pml4 = true) (hpdp : st.memoryManager.bit t.pdp = true)
    (hdirectory : ∀ i, i < kPageDirectoryCount → st.memoryManager.bit (t.directory + i) = true) :
    KernelTables (setupIdentityPageTable t st) := by
  have hout := ht.pml4_out
  have hne := ht.pml4_ne
  have hempty : ∀ {i : Nat}, 0 < i → (setupIdentityPageTable t st).entry t.pml4 i = .empty :=
    fun {i} hi => by
    rw [entry_setupIdentityPageTable ht, if_neg (by omega), if_neg (by omega),
      setData_eq (tableData_eq ht.small.1).2,
      entry_setEntry_of_ne (by omega), entry, loadLE_congr fun o _ _ => hzero o, loadLE_zero]
    rfl
  obtain ⟨-, -, -, hpointer⟩ := tableData_entry ht.small.1
  refine ⟨fun path a hpath hw => ?_, fun i _ => ?_⟩
  · have hindex : ∀ i ∈ path, i < 512 := by
      rcases hpath with rfl | hpath
      · exact List.forall_mem_nil _
      · exact hpath.lt
    have htable : a = t.pml4 ∨ a = t.pdp ∨ ∃ i, i < kPageDirectoryCount ∧ a = t.directory + i := by
      refine walk_inv (T := fun a => a = t.pml4 ∨ a = t.pdp ∨ ∃ i, i < kPageDirectoryCount ∧
        a = t.directory + i)
        (fun a i b ha hi hnext => ?_) (.inl rfl) hw
      rcases ha with rfl | rfl | ⟨k, hk, rfl⟩
      · rcases Nat.eq_zero_or_pos i with rfl | hpos
        · rw [nextTable, entry_pml4 ht, hpointer] at hnext
          exact .inr (.inl (Option.some.inj (Option.ite_none_right_eq_some.1 hnext).2).symm)
        · rw [nextTable_empty (hempty hpos)] at hnext
          cases hnext
      · by_cases hlow : i < kPageDirectoryCount
        · have hpointer :=
            (tableData_entry (show t.directory + i < 2 ^ 40 by have := ht.small.2; omega)).2.2.2
          rw [nextTable, entry_pdp ht, if_pos hlow, hpointer] at hnext
          exact .inr
            (.inr ⟨i, hlow, (Option.some.inj (Option.ite_none_right_eq_some.1 hnext).2).symm⟩)
        · rw [nextTable_empty (by rw [entry_pdp ht, if_neg hlow])] at hnext
          cases hnext
      · -- large pages
        have hlarge := (directoryData_entry hk (hindex i hi)).2.2.1
        rw [nextTable, entry_directory ht hk (hindex i hi), if_neg (by simp [hlarge])] at hnext
        cases hnext
    rw [setupIdentityPageTable_memoryManager]
    rcases htable with rfl | rfl | ⟨i, hi, rfl⟩
    · exact hpml4
    · exact hpdp
    · exact hdirectory i hi
  · have hcr3 : (setupIdentityPageTable t st).cr3 = t.pml4 := rfl
    rw [hcr3]
    rcases Nat.eq_zero_or_pos i with rfl | hpos
    · rw [entry_pml4 ht, (tableData_eq ht.small.1).1]
      exact decide_eq_false (by omega)
    · rw [hempty hpos]
      rfl

theorem kernelTables_blank : KernelTables blank := by
  refine ⟨fun t a _ hw => ?_, fun i _ => by rw [entry_blank]; rfl⟩
  have htable : a = 1 := walk_inv (T := (· = 1)) (fun a i b _ _ hnext => by
    rw [nextTable_empty (entry_blank a i)] at hnext
    cases hnext) rfl hw
  rw [htable]
  exact bit_blank.2 rfl

/-- The first GiB is mapped to itself for the kernel, by a large page. -/
def lowGiB : Mmu where
  mem
    | 1, 0 => 0x03
    | 1, 1 => 0x20
    | 2, 0 => 0x83
    | _, _ => 0
  memoryManager := ⟨fun line => if line = 0 then 6 else 0, 3, 16⟩
  cr3 := 1

/-- An image with a segment of no bytes. -/
def emptySegment : ElfImage
  | 16 => 2
  | 32 => 64
  | 56 => 1
  | 64 => 1
  | 85 => 0x80
  | 86 => 0xff
  | 87 => 0xff
  | _ => 0

theorem loadELF_emptySegment (st : Mmu) : st.loadELF emptySegment = some (.ok (), st) := by
  have hheaders : emptySegment.programHeaders = [⟨PT_LOAD, 0, 0xffff800000000000, 0, 0⟩] := by
    decide
  have hpages : loadPages ⟨PT_LOAD, 0, 0xffff800000000000, 0, 0⟩ = 0 := by decide
  have hexec : ¬ emptySegment.eType ≠ ET_EXEC := by decide
  have hfirst : ¬ emptySegment.getFirstLoadAddress < 0xffff800000000000 := by decide
  rw [loadELF, if_neg hexec, if_neg hfirst, hheaders, copyLoadSegments, if_neg (not_not.2 rfl),
    copyLoadSegment, hpages,
    setupPageMaps_zero]
  rfl

theorem entry_lowGiB {a i : Nat} (hi : 0 < i) : lowGiB.entry a i = .empty := by
  have hzero : loadLE (lowGiB.mem a) (8 * i) 8 = loadLE (fun _ => 0) (8 * i) 8 :=
    loadLE_congr fun o hlo hhi => by
    rw [lowGiB]
    dsimp only
    split <;> first | omega | rfl
  rw [entry, hzero, loadLE_zero]
  rfl

theorem kernelTables_lowGiB : KernelTables lowGiB := by
  have hroot : lowGiB.nextTable 1 0 = some 2 := by decide
  have hlarge : lowGiB.nextTable 2 0 = none := by decide
  refine ⟨fun t a _ hw => ?_, fun i _ => ?_⟩
  · have htable : a = 1 ∨ a = 2 := by
      refine walk_inv (T := fun a => a = 1 ∨ a = 2) (fun a i b ha _ hnext => ?_) (.inl rfl) hw
      rcases Nat.eq_zero_or_pos i with rfl | hi
      · rcases ha with rfl | rfl
        · exact .inr (Option.some.inj (hnext.symm.trans hroot))
        · cases hlarge.symm.trans hnext
      · cases (nextTable_empty (entry_lowGiB hi)).symm.trans hnext
    rcases htable with rfl | rfl <;> decide
  · rcases Nat.eq_zero_or_pos i with rfl | hi
    · decide
    · rw [entry_lowGiB hi]
      rfl

theorem read_oneSegment : ∃ pml4 st₁ st₂ st₃, lowGiB.setupPML4 = some (.ok pml4, st₁) ∧
    st₁.loadELF (oneSegment 0 0) = some (.ok (), st₂) ∧
    st₂.read [some fun _ => [0x2a]] 0 0xffff800000000000 1 = (st₃, some ⟨1, 0⟩) := by
  have hrun : (Result.andThen lowGiB.setupPML4 fun _ st =>
    Result.andThen (st.loadELF (oneSegment 0 0)) fun _ st =>
      some (.ok (st.read [some fun _ => [0x2a]] 0 0xffff800000000000 1).2, st)).map (·.1.toOption) =
      some (some (some ⟨1, 0⟩)) := by decide +kernel
  obtain ⟨⟨err | result, st⟩, hrun, heq⟩ := Option.map_eq_some_iff.1 hrun
  · cases heq
  · obtain ⟨pml4, st₁, hsetup, hrun⟩ := andThen_eq_ok hrun
    obtain ⟨⟨⟩, st₂, hload, hread⟩ := andThen_eq_ok hrun
    rcases hres : st₂.read [some fun _ => [0x2a]] 0 0xffff800000000000 1 with ⟨st₃, result'⟩
    rw [hres] at hread
    cases hread
    have heq : result' = some ⟨1, 0⟩ := Option.some.inj heq
    exact ⟨pml4, st₁, st, st₃, hsetup, hload, heq ▸ hres⟩

/-- There the kernel's memory stays as it is. -/
theorem isolated_iff_oneSegment : ∃ pml4 st₁ st₂ st₃, lowGiB.setupPML4 = some (.ok pml4, st₁) ∧
    st₁.loadELF (oneSegment 0 0) = some (.ok (), st₂) ∧
    st₂.read [some fun _ => [0x2a]] 0 0xffff800000000000 1 = (st₃, some ⟨1, 0⟩) ∧
    (Isolated st₁ st₃ ↔
      (∀ phdr ∈ (oneSegment 0 0).programHeaders, phdr.pType = PT_LOAD → phdr.High) ∧
      Run (Guarded ReadsHigh AppStep) st₂ [.read [some fun _ => [0x2a]] 0 0xffff800000000000 1] st₃)
        ∧ Isolated st₁ st₃ := by
  have hheaders : (oneSegment 0 0).programHeaders = [⟨PT_LOAD, 120, 0xffff800000000000, 1, 2⟩] := by
    decide
  obtain ⟨pml4, st₁, st₂, st₃, hsetup, hload, hresult⟩ := read_oneSegment
  have hread : AppStep st₂ (.read [some fun _ => [0x2a]] 0 0xffff800000000000 1) st₃ :=
    .read hresult
  have hiff := isolated_iff kernelTables_lowGiB hsetup hload (.single hread)
  refine ⟨pml4, st₁, st₂, st₃, hsetup, hload, hresult, hiff,
    hiff.2 ⟨fun phdr hmem _ _ => ?_, .single ⟨?_, hread⟩⟩⟩
  · rw [hheaders, List.mem_singleton] at hmem
    rw [hmem]
    decide
  · -- one byte, at the first address of the upper half
    intro k hk _
    obtain rfl : k = 0 := Nat.lt_one_iff.1 hk
    decide

theorem ok_of_translate {x : Result Nat} {vaddr : Nat} {place : Nat × Nat}
    (h : (x.map fun r => (r.1.toOption.isSome, r.2.translate false vaddr)) =
      some (true, some place)) :
    ∃ pml4 st, x = some (.ok pml4, st) ∧ st.translate false vaddr = some place := by
  rcases x with _ | ⟨err | pml4, st⟩
  · cases h
  · exact absurd (congrArg Prod.fst (Option.some.inj h)) Bool.false_ne_true
  · exact ⟨pml4, st, rfl, congrArg Prod.snd (Option.some.inj h)⟩

theorem setupPML4_lowGiB : ∃ pml4 st, lowGiB.setupPML4 = some (.ok pml4, st) ∧
    st.translate false 0x100000 = some (256, 0) :=
  ok_of_translate (by decide +kernel)

/-- `read` of one byte to the address `0x100000`. -/
theorem not_isolated :
    ¬ ∀ (image : ElfImage) (st₀ st₁ st₂ st₃ : Mmu) (pml4 : Nat) (es : List AppEvent),
    KernelTables st₀ →
    st₀.setupPML4 = some (.ok pml4, st₁) → st₁.loadELF image = some (.ok (), st₂) →
      Run AppStep st₂ es st₃ →
      Isolated st₁ st₃ := fun h => by
  obtain ⟨pml4, st₁, hsetup, htr⟩ := setupPML4_lowGiB
  have hfile : openFile [some fun _ => [0x2a]] 0 = some fun _ => [0x2a] := rfl
  have haddr : UInt64.toNat 0x100000 = 0x100000 := rfl
  have hread : AppStep st₁ (.read [some fun _ => [0x2a]] 0 0x100000 1)
    (st₁.storeByte 0x100000 256 0 0x2a) := by
    have hrun : st₁.read [some fun _ => [0x2a]] 0 0x100000 1 =
      (st₁.storeByte 0x100000 256 0 0x2a, some ⟨1, 0⟩) := by
      rw [read, hfile, haddr]
      dsimp only
      rw [storeBytes, htr]
      rfl
    exact .read hrun
  have hisolated := h emptySegment _ _ _ _ _ _ kernelTables_lowGiB hsetup (loadELF_emptySegment st₁)
    (.single hread)
  exact not_highStores (v := 0x100000) List.prefix_rfl (by decide) hisolated.stores

end Mmu

end Moxia
