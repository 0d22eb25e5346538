import Moxia.App.ExecuteFile
import Moxia.App.Isolation
import Moxia.Paging.Undo

/-!
# What a run of a file leaves behind

`ExecuteFile` gives back the frames under one slot of the PML4, that of the first load address, but
its pages of arguments and stack are in the last slot. And where it fails behind `SetupPML4` it
gives back nothing.
-/

namespace Moxia

open Lib

namespace Mmu

variable {B P Q : Nat → Prop} {st₀ st st' : Mmu} {image : ElfImage} {phdr : Elf64Phdr}
    {vaddr n i s : Nat}

/-! ## Slots -/

/-- The slots of the upper half that are in use. -/
def Slots (P : Nat → Prop) (st : Mmu) : Prop :=
  ∀ i, 256 ≤ i → i < 512 → ((st.entry st.cr3 i).present = true ↔ P i)

/-- One of the pages of a call for `n` pages is in the slot `i`. -/
def UsesSlot (vaddr n i : Nat) : Prop :=
  ∃ y, (LinearAddress4Level.mk vaddr).pageNumber ≤ y ∧ y < (LinearAddress4Level.mk vaddr).pageNumber
    + n ∧ y < 512 ^ 4 ∧ slot y = i

/-- In the upper half are the tables of the application only, and they are under the slots `P`. -/
structure Tree (B : Nat → Prop) (st₀ : Mmu) (P : Nat → Prop) (st : Mmu) : Prop where
  confined : Confined B st₀ st
  slots : Slots P st

theorem covers_slot : Covers [] 4 (LinearAddress4Level.mk vaddr).pageNumber n [i] ↔
    UsesSlot vaddr n i := by
  constructor
  · rintro ⟨y, t, hlo, hhi, hy, ht, hpre, heq⟩
    rw [List.nil_append] at heq
    rw [← heq, pagePath_four] at hpre
    exact ⟨y, hlo, hhi, hy, (List.cons_prefix_cons.1 hpre).1.symm⟩
  · rintro ⟨y, hlo, hhi, hy, rfl⟩
    exact ⟨y, [slot y], hlo, hhi, hy, by simp, by
      rw [pagePath_four]; exact List.prefix_append [slot y] _, rfl⟩

theorem present_iff : (st.entry st.cr3 i).present = true ↔ (walk st.next st.cr3 [i]).isSome := by
  rw [walk_cons, next]
  split <;> simp_all

theorem path_slot (hi : 256 ≤ i) (hlt : i < 512) : Path (256 ≤ ·) 4 [i] :=
  ⟨by simp, by simp, by simpa using hlt, by simpa using hi⟩

namespace Tree

theorem congr (h : Tree B st₀ P st)
    (hiff : ∀ i, 256 ≤ i → i < 512 → (P i ↔ Q i)) : Tree B st₀ Q st :=
  ⟨h.confined, fun i hi hlt => (h.slots i hi hlt).trans (hiff i hi hlt)⟩

theorem of_root (h : Tree B st₀ P st) (hc : Confined B st₀ st')
    (hmem : st'.mem st.cr3 = st.mem st.cr3) : Tree B st₀ P st' := by
  refine ⟨hc, fun i hi hlt => ?_⟩
  rw [hc.cr3, ← h.confined.cr3, entry_congr hmem, h.slots i hi hlt]

theorem setupPageMaps (h : Tree B st₀ P st) (hv : appBase ≤ vaddr) (hlt : vaddr < 2 ^ 64)
    (hrun : st.setupPageMaps ⟨vaddr⟩ n = some (.ok (), st')) :
    Tree B st₀ (fun i => P i ∨ UsesSlot vaddr n i) st' := by
  refine ⟨h.confined.setupPageMaps hv hlt hrun, fun i hi hi' => ?_⟩
  obtain ⟨res', hmap, hres⟩ := setupPageMaps_eq hrun
  obtain ⟨m, rfl⟩ := hres.1 rfl
  have hmod := Nat.mod_eq_of_lt (LinearAddress4Level.mk vaddr).pageNumber_lt
  have ho :=
    setupPageMap_spec (Nat.le_refl 4) _ n h.confined.space walk_nil
      (fun q hq => covers_high hv hlt hq) (by simp)
  rw [hmap, hmod] at ho
  obtain ⟨-, -, hg, hm⟩ := ho
  have hpath := path_slot hi hi'
  rw [present_iff, hg.cr3, ← h.slots i hi hi', present_iff, ← covers_slot]
  constructor
  · intro hsome
    obtain ⟨g, hw⟩ := Option.isSome_iff_exists.1 hsome
    rcases hg.new [i] g hpath hw with hold | hnew
    · exact .inl (by rw [hold]; rfl)
    · exact .inr hnew.1
  · rintro (hsome | hcov)
    · obtain ⟨g, hw⟩ := Option.isSome_iff_exists.1 hsome
      rw [hg.old [i] g (.inr hpath) hw]
      rfl
    · exact hm.isSome hcov (by simp)

theorem storeBytes (h : Tree B st₀ P st) (hk : KernelHalf B st₀) {dst : Nat} {bytes : List UInt8}
    (hdst : dst < 2 ^ 64)
    (hhigh : StoresHigh st dst bytes) : Tree B st₀ P (st.storeBytes dst bytes).1 := by
  obtain ⟨hc, -, hmem⟩ := (h.confined.storeBytes hk hdst).1 hhigh
  exact h.of_root hc hmem

theorem copyLoadSegment (h : Tree B st₀ P st) (hk : KernelHalf B st₀)
    (hvaddr : phdr.pVaddr < 2 ^ 64)
    (hfilesz : phdr.pFilesz < 2 ^ 64) (hmemsz : phdr.pMemsz < 2 ^ 64) (hseg : phdr.High)
    (hrun : copyLoadSegment image phdr st = some (.ok (), st')) :
    Tree B st₀ (fun i => P i ∨ UsesSlot phdr.pVaddr (loadPages phdr) i) st' := by
  obtain ⟨st₁, bytes, hset, hstore, -, hhigh⟩ := copyLoadSegment_ok hvaddr hfilesz hmemsz hrun
  have h₁ : Tree B st₀ (fun i => P i ∨ UsesSlot phdr.pVaddr (loadPages phdr) i) st₁ := by
    by_cases hpos : 0 < phdr.pMemsz
    · exact h.setupPageMaps (hseg hpos).1 hvaddr hset
    · rw [loadPages_zero hpos] at hset ⊢
      rw [setupPageMaps_zero] at hset
      cases hset
      refine h.congr fun i _ _ => (or_iff_left ?_).symm
      rintro ⟨y, hlo, hhi, -⟩
      omega
  have hst' : (st₁.storeBytes phdr.pVaddr bytes).1 = st' := by rw [hstore]
  have hstores : HighStores st₁ (st₁.storeBytes phdr.pVaddr bytes).1 := hst' ▸ hhigh.2 hseg
  exact hst' ▸ h₁.storeBytes hk hvaddr ((h₁.confined.storeBytes hk hvaddr).2 hstores)

theorem copyLoadSegments (hk : KernelHalf B st₀) {is : List Nat} (h : Tree B st₀ P st)
    (hhigh : ∀ j ∈ is, (image.programHeader j).pType = PT_LOAD → (image.programHeader j).High)
    (hrun : copyLoadSegments image (is.map image.programHeader) st = some (.ok (), st')) :
    Tree B st₀ (fun i => P i ∨ ∃ j ∈ is, (image.programHeader j).pType = PT_LOAD ∧
      UsesSlot (image.programHeader j).pVaddr (loadPages (image.programHeader j)) i) st' := by
  induction is generalizing st P with
  | nil =>
    cases hrun
    exact h.congr fun i _ _ => (or_iff_left fun ⟨j, hj, _⟩ => absurd hj List.not_mem_nil).symm
  | cons j is ih =>
    obtain ⟨hfirst, hhigh⟩ := List.forall_mem_cons.1 hhigh
    rw [List.map_cons, Mmu.copyLoadSegments] at hrun
    split at hrun
    · rename_i htype
      refine (ih h hhigh hrun).congr fun i _ _ => or_congr_right ?_
      rw [List.exists_mem_cons_iff, or_iff_right fun hj => htype hj.1]
    · rename_i htype
      obtain ⟨⟨⟩, st₁, hseg, hrun⟩ := andThen_eq_ok hrun
      have h₁ := h.copyLoadSegment hk loadLE_lt loadLE_lt loadLE_lt (hfirst (not_not.1 htype)) hseg
      refine (ih h₁ hhigh hrun).congr fun i _ _ => ?_
      rw [List.exists_mem_cons_iff, and_iff_right (not_not.1 htype), or_assoc]

theorem loadELF (hk : KernelHalf B st₀) (h : Tree B st₀ P st)
    (hhigh : ∀ phdr ∈ image.programHeaders, phdr.pType = PT_LOAD → phdr.High)
    (hload : st.loadELF image = some (.ok (), st')) :
    Tree B st₀ (fun i => P i ∨ ∃ phdr ∈ image.programHeaders, phdr.pType = PT_LOAD ∧
      UsesSlot phdr.pVaddr (loadPages phdr) i) st' := by
  rw [ElfImage.programHeaders, List.forall_mem_map] at hhigh
  refine (copyLoadSegments hk h hhigh (loadELF_ok hload).2).congr fun i _ _ => or_congr_right ?_
  rw [ElfImage.programHeaders]
  simp only [List.mem_map, exists_exists_and_eq_and]

theorem usesSlot_page {v : Nat} (hlo : 2 ^ 64 - 2 ^ 39 ≤ v) (hlt : v < 2 ^ 64) :
    UsesSlot v 1 i ↔ i = 511 := by
  rw [UsesSlot, LinearAddress4Level.pageNumber]
  dsimp only
  constructor
  · rintro ⟨y, h1, h2, -, rfl⟩
    rw [slot]
    omega
  · rintro rfl
    exact ⟨v / 4096 % 512 ^ 4, Nat.le_refl _, Nat.lt_succ_self _, Nat.mod_lt _ (by decide), by
      rw [slot]; omega⟩

theorem appStep (hk : KernelHalf B st₀) {e : AppEvent} (h : Tree B st₀ P st) (hP : P 511)
    (hread : ReadsHigh st e)
    (hstep : AppStep st e st') : Tree B st₀ P st' := by
  have hlast : ∀ i, P i ∨ i = 511 ↔ P i := fun i => or_iff_left_of_imp fun hi => hi ▸ hP
  cases hstep with
  | argsPage hrun =>
    refine (h.setupPageMaps (by decide) (by decide) hrun).congr fun i _ _ => ?_
    rw [usesSlot_page (by decide) (by decide), hlast]
  | stackPage hrun =>
    refine (h.setupPageMaps (by decide) (by decide) hrun).congr fun i _ _ => ?_
    rw [usesSlot_page (by decide) (by decide), hlast]
  | store htr =>
    obtain ⟨p, hp, hlen, hg⟩ := h.confined.page hk (UInt64.toNat_lt _) (.inr rfl) htr
    exact h.of_root (h.confined.poke hk hp hlen hg).1
      (poke_mem_of_ne (h.confined.cr3_ne_page hk hp hlen hg))
  | @read _ files arg1 arg2 arg3 _ hrun =>
    rw [read_state hrun]
    exact h.storeBytes hk (UInt64.toNat_lt arg2) hread

theorem run (hk : KernelHalf B st₀) {es : List AppEvent} (h : Tree B st₀ P st) (hP : P 511)
    (hrun : Run (Guarded ReadsHigh AppStep) st es st') : Tree B st₀ P st' :=
  hrun.inv (I := Tree B st₀ P) (fun _ _ _ h hstep => appStep hk h hP hstep.1 hstep.2) h

end Tree

theorem NewPml4.tree {pml4 : Nat} (h : NewPml4 st st' pml4) (hk : KernelTables st) :
    Tree st'.InUse st' (fun _ => False) st' := by
  refine ⟨(h.confined hk).2, fun i hi hlt => ?_⟩
  rw [h.cr3, h.high i hi hlt, PageMapEntry.empty_present, Bool.false_eq_true]

/-! ## Giving back -/

/-- All is given back exactly if no slot but the one that is cleaned is in use. -/
theorem Tree.clean (h : Tree st₀.InUse st₀ P st) (hs : 256 ≤ s) (hlt : s < 512) (hP : P s)
    {addr : LinearAddress4Level}
    (haddr : addr.part 4 = s) : ∃ st', st.cleanPageMaps addr = some st' ∧ st'.cr3 = st.cr3 ∧
      (∀ g, st₀.InUse g → st'.InUse g) ∧ ((∀ g, st'.InUse g ↔ st₀.InUse g) ↔ ∀ i, 256 ≤ i →
        i < 512 → P i → i = s) := by
  have hsome : ∀ {i}, 256 ≤ i → i < 512 → P i → ∃ c, walk st.next st.cr3 [i] = some c :=
    fun {i} hi hi' hp =>
    Option.isSome_iff_exists.1 (present_iff.1 ((h.slots i hi hi').2 hp))
  obtain ⟨c, hc⟩ := hsome hs hlt hP
  rw [walk_cons] at hc
  obtain ⟨c', hnext, -⟩ := Option.bind_eq_some_iff.1 hc
  have hspace := h.confined.space
  obtain ⟨st', hrun, hclean⟩ :=
    cleanPageMaps_spec (hspace.narrow fun i (hi : i = s) => hi ▸ hs) hlt hnext haddr
  refine ⟨st', hrun, hclean.cr3, fun g hg => (hclean.bit g).2 (.inl hg), ?_⟩
  constructor
  · intro hall i hi hi' hp
    by_contra hne
    obtain ⟨a, ha⟩ := hsome hi hi' hp
    have hpath : Path (fun i => 256 ≤ i ∧ ¬ i = s) 4 [i] :=
      { path_slot hi hi' with head := by simpa using ⟨hi, hne⟩ }
    exact hspace.apart [i] a (path_slot hi hi') ha
      ((hall a).1 ((hclean.bit a).2 (.inr ⟨[i], hpath, ha⟩)))
  · intro hall g
    refine (hclean.bit g).trans (or_iff_left ?_)
    rintro ⟨p, hp, hw⟩
    obtain ⟨i, p, rfl⟩ := List.exists_cons_of_ne_nil hp.ne_nil
    have hi := hp.head i rfl
    have hi' := hp.lt i List.mem_cons_self
    refine hi.2 (hall i hi.1 hi' ((h.slots i hi.1 hi').1 (present_iff.2 ?_)))
    exact isSome_of_prefix (List.prefix_append [i] p) (by rw [List.singleton_append, hw]; rfl)

theorem freePML4_spec (resetCR3 : Nat) (hlt : st.cr3 < kFrameCount) :
    ∃ st', st.freePML4 resetCR3 = some st' ∧ st'.cr3 = resetCR3 ∧
    ∀ g, st'.InUse g ↔ st.InUse g ∧ g ≠ st.cr3 := by
  obtain ⟨manager, hrun, -, -, hbit⟩ := freeFrame_eq { st with cr3 := resetCR3 } hlt
  refine ⟨_, hrun, rfl, fun g => ?_⟩
  rw [InUse, hbit]
  split
  · rename_i heq
    exact iff_of_false Bool.false_ne_true fun h => h.2 heq
  · rename_i hne
    exact (and_iff_left hne).symm

/-! ## In every state -/

theorem storeBytes_cr3 (st : Mmu) (dst : Nat) (bytes : List UInt8) :
    (st.storeBytes dst bytes).1.cr3 = st.cr3 := by
  induction bytes generalizing st dst with
  | nil => rfl
  | cons b bytes ih =>
    rw [storeBytes]
    split
    · rfl
    · exact ih _ _

theorem store_cr3 {dst : Nat} {bytes : List UInt8}
    (hrun : st.store dst bytes = some st') : st'.cr3 = st.cr3 := by
  have := storeBytes_cr3 st dst bytes
  rwa [store_eq_some.1 hrun] at this

theorem andThen_cr3 {α β : Type} {x : Result α} {f : α → Mmu → Result β} {res : Except Error β}
    (hx : ∀ res st', x = some (res, st') → st'.cr3 = st.cr3)
    (hf : ∀ a s st', f a s = some (res, st') → st'.cr3 = s.cr3)
    (hrun : Result.andThen x f = some (res, st')) : st'.cr3 = st.cr3 := by
  rcases x with - | ⟨err | a, s⟩
  · cases hrun
  · cases hrun
    exact hx _ _ rfl
  · exact (hf a s st' hrun).trans (hx _ _ rfl)

theorem copyLoadSegment_cr3 {res : Except Error Unit}
    (hrun : copyLoadSegment image phdr st = some (res, st')) :
    st'.cr3 = st.cr3 := by
  refine andThen_cr3 (fun _ _ h => (setupPageMaps_steady h).cr3) (fun _ s st' h => ?_) hrun
  obtain ⟨st₁, hcopy, h⟩ := Option.bind_eq_some_iff.1 h
  obtain ⟨st₂, hclear, heq⟩ := Option.map_eq_some_iff.1 h
  cases heq
  exact (store_cr3 hclear).trans (store_cr3 hcopy)

theorem copyLoadSegments_cr3 {phdrs : List Elf64Phdr} {res : Except Error Unit}
    (hrun : copyLoadSegments image phdrs st = some (res, st')) : st'.cr3 = st.cr3 := by
  induction phdrs generalizing st st' with
  | nil =>
    cases hrun
    rfl
  | cons phdr phdrs ih =>
    rw [copyLoadSegments] at hrun
    split at hrun
    · exact ih hrun
    · exact andThen_cr3 (fun _ _ => copyLoadSegment_cr3) (fun _ _ _ => ih) hrun

theorem loadELF_cr3 {res : Except Error Unit}
    (hrun : st.loadELF image = some (res, st')) : st'.cr3 = st.cr3 := by
  rw [loadELF] at hrun
  split at hrun
  · cases hrun
    rfl
  split at hrun
  · cases hrun
    rfl
  · exact copyLoadSegments_cr3 hrun

variable {env : Environment}

theorem makeArgs_state {res : Except Error Terminal.ArgVector}
    (hrun : st.makeArgs env = some (res, st')) :
    st' = st := by
  obtain ⟨⟨a, err⟩, -, heq⟩ := Option.map_eq_some_iff.1 hrun
  cases err <;> cases heq <;> rfl

theorem andThen_assoc {α β γ : Type} (x : Result α) (f : α → Mmu → Result β)
    (g : β → Mmu → Result γ) :
    Result.andThen (Result.andThen x f) g = Result.andThen x fun a st =>
      Result.andThen (f a st) g := by
  rcases x with _ | ⟨_ | a, st⟩ <;> rfl

/-- What `ExecuteFile` does behind `SetupPML4` and up to the application. -/
def loadFile (image : ElfImage) (env : Environment) (st : Mmu) : Result Terminal.ArgVector :=
  Result.andThen (st.loadELF image) fun _ st =>
  Result.andThen (st.setupPageMaps argsFrameAddr 1) fun _ st =>
  Result.andThen (st.makeArgs env) fun argc st =>
  Result.andThen (st.setupPageMaps stackFrameAddr 1) fun _ st => some (.ok argc, st)

theorem prepareFile_eq (image : ElfImage) (env : Environment) (st : Mmu) :
    prepareFile image env st =
    if image.isElf then Result.andThen st.setupPML4 fun _ st => st.loadFile image env
    else some (.error .kInvalidFormat, st) := by
  rw [prepareFile, startFile]
  split
  · rw [andThen_assoc]
    refine congrArg _ (funext fun _ => funext fun st => ?_)
    rw [andThen_assoc, loadFile]
  · rfl

theorem loadFile_cr3 {res : Except Error Terminal.ArgVector}
    (hrun : st.loadFile image env = some (res, st')) :
    st'.cr3 = st.cr3 := by
  refine andThen_cr3 (fun _ _ => loadELF_cr3) (fun _ s st' h => ?_) hrun
  refine andThen_cr3 (fun _ _ h => (setupPageMaps_steady h).cr3) (fun _ s st' h => ?_) h
  refine andThen_cr3 (fun _ _ h => congrArg cr3 (makeArgs_state h)) (fun _ s st' h => ?_) h
  refine andThen_cr3 (fun _ _ h => (setupPageMaps_steady h).cr3) (fun _ s st' h => ?_) h
  cases h
  rfl

end Mmu

/-! ## The whole call -/

namespace ElfImage

variable (image : ElfImage)

/-- A slot in which the application has pages. -/
def UsedSlot (i : Nat) : Prop :=
  (∃ phdr ∈ image.programHeaders, phdr.pType = PT_LOAD ∧
    Mmu.UsesSlot phdr.pVaddr (Mmu.loadPages phdr) i) ∨ i = 511

/-- The first address of the last slot, in which the pages for arguments and stack are. -/
def lastSlot : Nat := 0xffffff8000000000

/-- All of the image belongs into the last slot. -/
structure InLastSlot : Prop where
  first : lastSlot ≤ image.getFirstLoadAddress
  segment : ∀ phdr ∈ image.programHeaders, phdr.pType = PT_LOAD → 0 < phdr.pMemsz →
    lastSlot ≤ phdr.pVaddr ∧ phdr.pVaddr + phdr.pMemsz ≤ 2 ^ 64

end ElfImage

namespace Mmu

variable {B : Nat → Prop} {st₀ st st' : Mmu} {image : ElfImage} {argc : Terminal.ArgVector}
    {env : Environment}

theorem loadFile_tree (hk : KernelHalf B st₀) (h : Tree B st₀ (fun _ => False) st)
    (hhigh : ∀ phdr ∈ image.programHeaders, phdr.pType = PT_LOAD → phdr.High)
    (hrun : st.loadFile image env = some (.ok argc, st')) :
    Tree B st₀ image.UsedSlot st' := by
  obtain ⟨⟨⟩, st₁, hload, hrun⟩ := andThen_eq_ok hrun
  obtain ⟨⟨⟩, st₂, hargs, hrun⟩ := andThen_eq_ok hrun
  obtain ⟨argc', st₃, hmake, hrun⟩ := andThen_eq_ok hrun
  obtain ⟨⟨⟩, st₄, hstack, heq⟩ := andThen_eq_ok hrun
  cases heq
  obtain rfl := makeArgs_state hmake
  have h₂ := (h.loadELF hk hhigh hload).setupPageMaps (by decide) (by decide) hargs
  refine (h₂.setupPageMaps (by decide) (by decide) hstack).congr fun i _ _ => ?_
  rw [Tree.usesSlot_page (by decide) (by decide), Tree.usesSlot_page (by decide) (by decide),
    ElfImage.UsedSlot, false_or, or_assoc,
    or_self]

theorem prepareFile_ok (hrun : prepareFile image env st = some (.ok argc, st')) :
    image.isElf = true ∧
    ∃ pml4 st₁, st.setupPML4 = some (.ok pml4, st₁) ∧ st₁.loadFile image env =
      some (.ok argc, st') := by
  rw [prepareFile_eq] at hrun
  split at hrun
  · rename_i helf
    obtain ⟨pml4, st₁, hset, hload⟩ := andThen_eq_ok hrun
    exact ⟨helf, pml4, st₁, hset, hload⟩
  · cases hrun

theorem setupPML4_error {err : Error} (hrun : st.setupPML4 = some (.error err, st')) :
    st' = st ∧ ∀ g, ¬ st.Spare g := by
  rcases andThen_eq_error hrun with hnew | ⟨pml4, st₁, -, heq⟩
  · obtain ⟨hst, -, hfull⟩ := newPageMap_error hnew
    exact ⟨hst, hfull⟩
  · cases (Option.ite_none_left_eq_some.1 heq).2

/-- Behind `SetupPML4` an error leaves the new PML4 in CR3. -/
theorem prepareFile_error {err : Error} (hk : KernelTables st)
    (hrun : prepareFile image env st = some (.error err, st')) :
    (st' = st ∧ (image.isElf = false ∨ ∀ g, ¬ st.Spare g)) ∨
      (image.isElf = true ∧ (∃ g, st.Spare g) ∧ st'.cr3 ≠ st.cr3) := by
  rw [prepareFile_eq] at hrun
  split at hrun
  · rename_i helf
    rcases andThen_eq_error hrun with hset | ⟨pml4, st₁, hset, hload⟩
    · obtain ⟨hst, hfull⟩ := setupPML4_error hset
      exact .inl ⟨hst, .inr hfull⟩
    · have hcr3 : st.InUse st.cr3 := hk.table [] st.cr3 (.inl rfl) rfl
      have hnew := setupPML4_ok hcr3 hset
      refine .inr ⟨helf, (setupPML4_ok_iff.1 ⟨pml4, st₁, hset⟩).1, fun heq => ?_⟩
      rw [loadFile_cr3 hload, hnew.cr3] at heq
      exact hnew.ne_pml4 hcr3 heq.symm
  · rename_i helf
    cases hrun
    exact .inl ⟨rfl, .inl (by simpa using helf)⟩

/-! ## Before and after -/

/-- The frames in use, CR3 and the files of the task are the same. -/
structure LeavesNothing {φ : Type} (st st' : Mmu) (files files' : List φ) : Prop where
  frames : ∀ g, st'.InUse g ↔ st.InUse g
  cr3 : st'.cr3 = st.cr3
  files : files' = files

/-- `ExecuteFile` gets to `CallApp`. -/
def AppStarts (image : ElfImage) (env : Environment) (st : Mmu) : Prop :=
  ∃ argc st₁, prepareFile image env st = some (.ok argc, st₁)

/-- No `read` of the application gets to an address below the upper half. -/
def ReadsStayHigh (image : ElfImage) (env : Environment) (st : Mmu) : Prop :=
  ∀ argc st₁ ret, prepareFile image env st = some (.ok argc, st₁) →
    env.callApp argc image.eEntry st₁ = some ret →
    ∃ es, Run (Guarded ReadsHigh AppStep) st₁ es ret.2

/-- The application is in the last slot with all that it has, and the caller has the kernel's PML4
and no files. -/
structure Tidy {φ : Type} (image : ElfImage) (env : Environment) (st : Mmu)
    (files : List φ) : Prop where
  starts : AppStarts image env st
  slot : image.InLastSlot
  reads : ReadsStayHigh image env st
  files : files = []
  cr3 : st.cr3 = env.resetCR3

/-- Nothing of the image or of what the application does is in the lower half, and the slot of the
first load address is not empty. -/
structure Regular (image : ElfImage) (env : Environment) (st : Mmu) : Prop where
  high : ∀ phdr ∈ image.programHeaders, phdr.pType = PT_LOAD → phdr.High
  slot : image.UsedSlot ((LinearAddress4Level.mk image.getFirstLoadAddress).part 4)
  reads : ReadsStayHigh image env st

theorem getFirstLoadAddress_lt (image : ElfImage) : image.getFirstLoadAddress < 2 ^ 64 := by
  rw [ElfImage.getFirstLoadAddress]
  split
  · rename_i heq
    exact ElfImage.pVaddr_lt (List.mem_of_find?_eq_some heq)
  · decide

theorem part_bounds (hfirst : appBase ≤ image.getFirstLoadAddress) :
    256 ≤ (LinearAddress4Level.mk image.getFirstLoadAddress).part 4 ∧
    (LinearAddress4Level.mk image.getFirstLoadAddress).part 4 < 512 := by
  have hslot := slot_of_high hfirst (getFirstLoadAddress_lt image)
  rw [LinearAddress4Level.part_succ (by decide : 3 < 4), LinearAddress4Level.pageNumber]
  rw [slot] at hslot
  dsimp only
  omega

variable {φ : Type} {files files' : List φ} {res : Except Error Int}

theorem executeFileTask_started {st₂ : Mmu} {ret : Int × Mmu} (files : List φ)
    (hk : KernelTables st)
    (hregular : Regular image env st) (hprep : prepareFile image env st = some (.ok argc, st₂))
    (hcall : env.callApp argc image.eEntry st₂ = some ret) :
    ∃ st', executeFileTask image env st files = some (.ok ret.1, st', []) ∧
      st'.cr3 = env.resetCR3 ∧ appBase ≤ image.getFirstLoadAddress ∧
        ((∀ g, st'.InUse g ↔ st.InUse g) ↔
        ∀ i, 256 ≤ i → i < 512 → image.UsedSlot i →
          i = (LinearAddress4Level.mk image.getFirstLoadAddress).part 4) := by
  obtain ⟨-, pml4, st₁, hset, hload⟩ := prepareFile_ok hprep
  have hnew := setupPML4_ok (hk.table [] st.cr3 (.inl rfl) rfl) hset
  obtain ⟨hhalf, -⟩ := hnew.confined hk
  have htree := loadFile_tree hhalf (hnew.tree hk) hregular.high hload
  obtain ⟨⟨⟩, st₁', helf, -⟩ := andThen_eq_ok hload
  have hfirst := (loadELF_ok helf).1
  obtain ⟨es, hes⟩ := hregular.reads argc st₂ ret hprep hcall
  have happ := htree.run hhalf (.inr rfl) hes
  have hcr3 : ret.2.cr3 = pml4 := happ.confined.cr3.trans hnew.cr3
  obtain ⟨hhigh, hlt⟩ := part_bounds hfirst
  obtain ⟨st₄, hclean, hcr3', hkeep, hiff⟩ := happ.clean hhigh hlt hregular.slot rfl
  rw [hcr3] at hcr3'
  obtain ⟨st₅, hfree, hreset, hbit⟩ :=
    st₄.freePML4_spec env.resetCR3 (hcr3' ▸ lt_frameCount hnew.lt)
  have hrun : executeFileTask image env st files = some (.ok ret.1, st₅, []) := by
    rw [executeFileTask, hprep]
    dsimp only
    rw [hcall, Option.bind_some, hclean, Option.bind_some, hfree, Option.map_some]
  refine ⟨st₅, hrun, hreset, hfirst, Iff.trans ?_ hiff⟩
  rw [hcr3'] at hbit
  refine forall_congr' fun g => ?_
  rw [hbit, hnew.inUse_iff]
  by_cases hg : g = pml4
  · subst hg
    have hkept := hkeep g ((hnew.inUse_iff g).2 (.inl rfl))
    exact iff_of_true (iff_of_false (fun h => h.2 rfl) fun h => hnew.ne_pml4 h rfl)
      (iff_of_true hkept (.inl rfl))
  · rw [and_iff_left hg, or_iff_right hg]

theorem executeFileTask_ended (hk : KernelTables st) (hstart : AppStarts image env st)
    (hregular : Regular image env st)
    (hrun : executeFileTask image env st files = some (res, st', files')) :
    st'.cr3 = env.resetCR3 ∧ files' = [] ∧
      appBase ≤ image.getFirstLoadAddress ∧ ((∀ g, st'.InUse g ↔ st.InUse g) ↔
        ∀ i, 256 ≤ i → i < 512 → image.UsedSlot i →
          i = (LinearAddress4Level.mk image.getFirstLoadAddress).part 4) := by
  obtain ⟨argc, st₂, hprep⟩ := hstart
  have hcalled := hrun
  rw [executeFileTask, hprep] at hcalled
  obtain ⟨ret, hcall, -⟩ := Option.bind_eq_some_iff.1 hcalled
  obtain ⟨st₅, hrun', hreset, hfirst, hiff⟩ := executeFileTask_started files hk hregular hprep hcall
  cases hrun.symm.trans hrun'
  exact ⟨hreset, rfl, hfirst, hiff⟩

theorem part_first (hfirst : appBase ≤ image.getFirstLoadAddress) :
    (LinearAddress4Level.mk image.getFirstLoadAddress).part 4 = 511 ↔
      ElfImage.lastSlot ≤ image.getFirstLoadAddress := by
  have hlt := getFirstLoadAddress_lt image
  rw [LinearAddress4Level.part_succ (by decide : 3 < 4), LinearAddress4Level.pageNumber,
    ElfImage.lastSlot]
  rw [appBase] at hfirst
  dsimp only
  omega

theorem usesSlot_segment {phdr : Elf64Phdr} (hseg : phdr.High) (hpos : 0 < phdr.pMemsz) :
    UsesSlot phdr.pVaddr (loadPages phdr)
      (slot (LinearAddress4Level.mk phdr.pVaddr).pageNumber) := by
  obtain ⟨hlo, hhi⟩ := hseg hpos
  refine ⟨_, Nat.le_refl _, Nat.lt_add_of_pos_right ?_, LinearAddress4Level.pageNumber_lt, rfl⟩
  rw [appBase] at hlo
  rw [loadPages]
  omega

theorem usedSlot_iff (hhigh : ∀ phdr ∈ image.programHeaders, phdr.pType = PT_LOAD → phdr.High)
    (hfirst : appBase ≤ image.getFirstLoadAddress) :
    (∀ i, 256 ≤ i → i < 512 → image.UsedSlot i →
      i = (LinearAddress4Level.mk image.getFirstLoadAddress).part 4) ↔
      image.InLastSlot := by
  constructor
  · intro h
    have hlast := h 511 (by decide) (by decide) (.inr rfl)
    refine ⟨(part_first hfirst).1 hlast.symm, fun phdr hmem htype hpos => ?_⟩
    obtain ⟨hlo, hhi⟩ := hhigh phdr hmem htype hpos
    have hlt := ElfImage.pVaddr_lt hmem
    have hslot :=
      h (slot (LinearAddress4Level.mk phdr.pVaddr).pageNumber) ?_ (Nat.mod_lt _ (by decide))
      (.inl ⟨phdr, hmem, htype, usesSlot_segment (hhigh phdr hmem htype) hpos⟩)
    · refine ⟨?_, hhi⟩
      rw [← hlast, slot, LinearAddress4Level.pageNumber] at hslot
      rw [appBase] at hlo
      rw [ElfImage.lastSlot]
      dsimp only at hslot
      omega
    · have := slot_of_high hlo hlt
      rw [slot] at this
      rw [slot, LinearAddress4Level.pageNumber]
      dsimp only
      omega
  · rintro h i - - (⟨phdr, hmem, htype, y, hlo, hhi, hy, rfl⟩ | rfl)
    · have hpos : 0 < phdr.pMemsz := by
        by_contra hzero
        rw [loadPages_zero hzero] at hhi
        omega
      obtain ⟨hvaddr, -⟩ := h.segment phdr hmem htype hpos
      have hlt := ElfImage.pVaddr_lt hmem
      rw [(part_first hfirst).2 h.first]
      rw [LinearAddress4Level.pageNumber] at hlo
      rw [ElfImage.lastSlot] at hvaddr
      dsimp only at hlo
      rw [slot]
      omega
    · exact ((part_first hfirst).2 h.first).symm

theorem Tidy.regular (h : Tidy image env st files) : Regular image env st where
  high phdr hmem htype hpos := by
    obtain ⟨hlo, hhi⟩ := h.slot.segment phdr hmem htype hpos
    exact ⟨Nat.le_trans (by decide) hlo, hhi⟩
  slot := .inr ((part_first (Nat.le_trans (by decide) h.slot.first)).2 h.slot.first)
  reads := h.reads

/-- A call leaves nothing behind if the file is no ELF image, if there is no frame for a PML4, or if
the application is tidy. If nothing of an application that starts is in the lower half, there is no
other way. -/
theorem leavesNothing_iff (hk : KernelTables st)
    (hrun : executeFileTask image env st files = some (res, st', files')) :
    (image.isElf = false ∨ (∀ g, ¬ st.Spare g) ∨ Tidy image env st files →
      LeavesNothing st st' files files') ∧
    ((AppStarts image env st → Regular image env st) → LeavesNothing st st' files files' →
      image.isElf = false ∨ (∀ g, ¬ st.Spare g) ∨ Tidy image env st files) := by
  rcases hprep : prepareFile image env st with _ | ⟨err | argc, st₁⟩
  · rw [executeFileTask, hprep] at hrun
    cases hrun
  · have hnot : ¬ AppStarts image env st := by
      rintro ⟨argc, st₁, heq⟩
      rw [heq] at hprep
      cases hprep
    rw [executeFileTask, hprep] at hrun
    cases hrun
    rcases prepareFile_error hk hprep with ⟨rfl, hcond⟩ | ⟨helf, hspare, hcr3⟩
    · exact ⟨fun _ => ⟨fun _ => Iff.rfl, rfl, rfl⟩, fun _ _ => hcond.imp_right .inl⟩
    · refine ⟨?_, fun _ h => absurd h.cr3 hcr3⟩
      rintro (hno | hfull | htidy)
      · rw [helf] at hno
        cases hno
      · obtain ⟨g, hg⟩ := hspare
        exact absurd hg (hfull g)
      · exact absurd htidy.starts hnot
  · have hstart : AppStarts image env st := ⟨argc, st₁, hprep⟩
    obtain ⟨helf, pml4, st₂, hset, -⟩ := prepareFile_ok hprep
    constructor
    · rintro (hno | hfull | htidy)
      · rw [helf] at hno
        cases hno
      · obtain ⟨g, hg⟩ := (setupPML4_ok_iff.1 ⟨pml4, st₂, hset⟩).1
        exact absurd hg (hfull g)
      · obtain ⟨hcr3, hfiles, hfirst, hiff⟩ := executeFileTask_ended hk hstart htidy.regular hrun
        exact ⟨hiff.2 ((usedSlot_iff htidy.regular.high hfirst).2 htidy.slot),
          hcr3.trans htidy.cr3.symm,
          hfiles.trans htidy.files.symm⟩
    · intro hregular h
      have hregular := hregular hstart
      obtain ⟨hcr3, hfiles, hfirst, hiff⟩ := executeFileTask_ended hk hstart hregular hrun
      exact .inr (.inr ⟨hstart, (usedSlot_iff hregular.high hfirst).1 (hiff.1 h.frames),
        hregular.reads,
        h.files.symm.trans hfiles, h.cr3.symm.trans hcr3⟩)

/-- An image of 121 bytes whose only segment has its last byte and a zero, in the last slot. -/
def lastSegment : ElfImage
  | 0 => 0x7f
  | 1 => 0x45
  | 2 => 0x4c
  | 3 => 0x46
  | 16 => 2
  | 32 => 64
  | 56 => 1
  | 64 => 1
  | 72 => 120
  | 84 => 0x80
  | 85 => 0xff
  | 86 => 0xff
  | 87 => 0xff
  | 96 => 1
  | 104 => 2
  | 120 => 0xc3
  | _ => 0

theorem programHeaders_lastSegment :
    lastSegment.programHeaders = [⟨PT_LOAD, 120, 0xffffff8000000000, 1, 2⟩] := by decide

/-- `a`, an application that exits at once. -/
def exits : Environment := ⟨[0x61], none, fun _ => 0, fun _ _ st => some (0, st), 1⟩

theorem prepareFile_lastSegment : ∃ argc st₁, prepareFile lastSegment exits lowGiB =
    some (.ok argc, st₁) := by
  have hsome : ((prepareFile lastSegment exits lowGiB).map fun r => r.1.toOption.isSome) =
    some true := by decide +kernel
  obtain ⟨⟨err | argc, st₁⟩, hrun, hok⟩ := Option.map_eq_some_iff.1 hsome
  · cases hok
  · exact ⟨argc, st₁, hrun⟩

theorem tidy_lastSegment : Tidy lastSegment exits lowGiB ([] : List Unit) where
  starts := prepareFile_lastSegment
  slot := by
    refine ⟨by decide, fun phdr hmem _ _ => ?_⟩
    rw [programHeaders_lastSegment, List.mem_singleton] at hmem
    rw [hmem]
    decide
  reads argc st₁ ret _ hcall := by
    cases hcall
    exact ⟨[], .nil st₁⟩
  files := rfl
  cr3 := rfl

theorem leavesNothing_iff_lastSegment :
    ∃ res st' files', executeFileTask lastSegment exits lowGiB ([] : List Unit) =
    some (res, st', files') ∧ LeavesNothing lowGiB st' ([] : List Unit) files' := by
  obtain ⟨argc, st₁, hprep⟩ := prepareFile_lastSegment
  obtain ⟨st', hrun, -⟩ :=
    executeFileTask_started ([] : List Unit) kernelTables_lowGiB tidy_lastSegment.regular hprep rfl
  exact ⟨.ok 0, st', [], hrun, (leavesNothing_iff kernelTables_lowGiB hrun).1
    (.inr (.inr tidy_lastSegment))⟩

/-- A file that only starts like an ELF image. -/
def magicOnly : ElfImage
  | 0 => 0x7f
  | 1 => 0x45
  | 2 => 0x4c
  | 3 => 0x46
  | _ => 0

/-- The file is turned down, and the new PML4 stays. -/
theorem not_leavesNothing :
    ¬ ∀ (image : ElfImage) (env : Environment) (st st' : Mmu) (files files' : List Unit)
    (res : Except Error Int), KernelTables st → executeFileTask image env st files = some
    (res, st', files') →
    LeavesNothing st st' files files' := fun h => by
  obtain ⟨pml4, st₁, base, hset, -⟩ := setupPML4_blank
  have helf : magicOnly.isElf = true := by decide
  have hload : st₁.loadELF magicOnly = some (.error .kInvalidFormat, st₁) := by
    rw [loadELF, if_pos (by decide)]
  have hprep : prepareFile magicOnly exits blank = some (.error .kInvalidFormat, st₁) := by
    rw [prepareFile_eq, if_pos helf, hset, andThen_ok, loadFile, hload, andThen_error]
  have hrun : executeFileTask magicOnly exits blank ([] : List Unit) =
    some (.error .kInvalidFormat, st₁, []) := by
    rw [executeFileTask, hprep]
  have hcr3 := (h magicOnly exits blank st₁ [] [] _ kernelTables_blank hrun).cr3
  rcases prepareFile_error kernelTables_blank hprep with ⟨-, hno | hfull⟩ | ⟨-, -, hne⟩
  · rw [helf] at hno
    cases hno
  · obtain ⟨g, hg⟩ := (setupPML4_ok_iff.1 ⟨pml4, st₁, hset⟩).1
    exact hfull g hg
  · exact hne hcr3

end Mmu

end Moxia
