import Moxia.Memory.Allocate
import Moxia.Memory.Init
import Moxia.Paging.Space

/-!
# The identity map (`SetupIdentityPageTable`)

64 page directories of 512 large pages each map the first 64 GiB. The allocator hands out frames of
all the 128 GiB its bitmap has bits for, so that not all of them can be reached through their
physical addresses (`addressable_iff`).
-/

namespace Moxia

open Lib

def kPageSize4K : Nat := 4096
def kPageSize2M : Nat := 512 * kPageSize4K
def kPageSize1G : Nat := 512 * kPageSize2M

/-- The frames of `pml4_table`, `pdp_table` and `page_directory[0]`. -/
structure StaticTables where
  pml4 : Nat
  pdp : Nat
  directory : Nat

/-- The linker has put the tables apart from each other, and they are zero at the start. -/
structure StaticTables.Ok (t : StaticTables) (st : Mmu) : Prop where
  pml4_ne : t.pml4 ≠ t.pdp
  pml4_out : t.pml4 < t.directory ∨ t.directory + kPageDirectoryCount ≤ t.pml4
  pdp_out : t.pdp < t.directory ∨ t.directory + kPageDirectoryCount ≤ t.pdp
  small : t.pdp < 2 ^ 40 ∧ t.directory + kPageDirectoryCount ≤ 2 ^ 40
  zero : ∀ i, st.mem t.pdp i = 0

namespace Mmu

/-- `table[i] = data` -/
def setData (st : Mmu) (table i data : Nat) : Mmu :=
  { st with mem := Function.update st.mem table (storeLE (st.mem table) (8 * i) 8 data) }

def setupIdentityPageTable (t : StaticTables) (st : Mmu) : Mmu :=
  let st := st.setData t.pml4 0 (kPageSize4K * t.pdp ||| 0x003)
  let st := (List.range kPageDirectoryCount).foldl (fun st iPdpt =>
    let st := st.setData t.pdp iPdpt (kPageSize4K * (t.directory + iPdpt) ||| 0x003)
    (List.range 512).foldl (fun st iPd =>
      st.setData (t.directory + iPdpt) iPd (iPdpt * kPageSize1G + iPd * kPageSize2M ||| 0x083)) st)
        st
  { st with cr3 := t.pml4 }

variable {st : Mmu} {t : StaticTables} {a f i j n o w : Nat}

theorem setData_eq (hw : w < 2 ^ 64) : st.setData f i w = st.setEntry f i (.ofData w) := by
  rw [setData, setEntry, PageMapEntry.data_ofData hw]

theorem entry_fill {data : Nat → Nat} (hdata : ∀ i, i < n → data i < 2 ^ 64) :
    ((List.range n).foldl (fun st i => st.setData f i (data i)) st).entry a j =
      if a = f ∧ j < n then .ofData (data j) else st.entry a j := by
  induction n with
  | zero => rw [if_neg (by omega)]; rfl
  | succ n ih =>
    have ih := ih fun i hi => hdata i (Nat.lt_succ_of_lt hi)
    rw [List.range_succ, List.foldl_append, List.foldl_cons, List.foldl_nil]
    rw [setData_eq (hdata n (Nat.lt_succ_self n))]
    by_cases hlast : a = f ∧ j = n
    · obtain ⟨rfl, rfl⟩ := hlast
      rw [entry_setEntry_self, if_pos ⟨rfl, Nat.lt_succ_self j⟩]
    · rw [entry_setEntry_of_ne hlast, ih]
      congr 1
      exact propext (by omega)

/-- The words of a page directory, and of the PDP table. -/
def directoryData (iPdpt iPd : Nat) : Nat := iPdpt * kPageSize1G + iPd * kPageSize2M ||| 0x083

def tableData (table : Nat) : Nat := kPageSize4K * table ||| 0x003

theorem directoryData_eq (hi : i < kPageDirectoryCount) (hj : j < 512) :
    directoryData i j = 2 ^ 21 * (512 * i + j) + 131 ∧ directoryData i j < 2 ^ 64 := by
  have hsum : i * kPageSize1G + j * kPageSize2M = 2 ^ 21 * (512 * i + j) := by
    simp only [kPageSize1G, kPageSize2M, kPageSize4K]
    omega
  rw [kPageDirectoryCount] at hi
  rw [directoryData, hsum, ← Nat.two_pow_add_eq_or_of_lt (by decide)]
  omega

theorem tableData_eq {table : Nat} (h : table < 2 ^ 40) :
    tableData table = 2 ^ 12 * table + 3 ∧ tableData table < 2 ^ 64 := by
  have hsize : kPageSize4K = 2 ^ 12 := rfl
  rw [tableData, hsize, ← Nat.two_pow_add_eq_or_of_lt (by decide)]
  omega

theorem tableData_entry {table : Nat} (h : table < 2 ^ 40) :
    (PageMapEntry.ofData (tableData table)).present = true ∧
      (PageMapEntry.ofData (tableData table)).writable = true ∧
      (PageMapEntry.ofData (tableData table)).hugePage = false ∧
        (PageMapEntry.ofData (tableData table)).pointer = table := by
  rw [(tableData_eq h).1]
  refine ⟨decide_eq_true (by omega), decide_eq_true (by omega), decide_eq_false (by omega), ?_⟩
  show (2 ^ 12 * table + 3) / 2 ^ 12 % 2 ^ 40 = table
  omega

theorem directoryData_entry (hi : i < kPageDirectoryCount) (hj : j < 512) :
    (PageMapEntry.ofData (directoryData i j)).present = true ∧
      (PageMapEntry.ofData (directoryData i j)).writable = true ∧
      (PageMapEntry.ofData (directoryData i j)).hugePage = true ∧
      (PageMapEntry.ofData (directoryData i j)).pointer = 512 * (512 * i + j) := by
  rw [(directoryData_eq hi hj).1]
  rw [kPageDirectoryCount] at hi
  refine ⟨decide_eq_true (by omega), decide_eq_true (by omega), decide_eq_true (by omega), ?_⟩
  show (2 ^ 21 * (512 * i + j) + 131) / 2 ^ 12 % 2 ^ 40 = 512 * (512 * i + j)
  omega

/-- One round of the outer loop. -/
def setupDirectory (t : StaticTables) (st : Mmu) (iPdpt : Nat) : Mmu :=
  (List.range 512).foldl (fun st iPd => st.setData (t.directory + iPdpt) iPd
    (directoryData iPdpt iPd))
    (st.setData t.pdp iPdpt (tableData (t.directory + iPdpt)))

theorem setupIdentityPageTable_eq (t : StaticTables) (st : Mmu) : setupIdentityPageTable t st =
    { (List.range kPageDirectoryCount).foldl (setupDirectory t)
      (st.setData t.pml4 0 (tableData t.pdp)) with
      cr3 := t.pml4 } := rfl

theorem entry_rounds {st₀ : Mmu} (ht : t.Ok st₀) (st : Mmu) (hn : n ≤ kPageDirectoryCount) :
    ((List.range n).foldl (setupDirectory t) st).entry a j =
      if a = t.pdp ∧ j < n then .ofData (tableData (t.directory + j))
      else if (t.directory ≤ a ∧ a < t.directory + n) ∧ j < 512 then
        .ofData (directoryData (a - t.directory) j)
      else st.entry a j := by
  have hout := ht.pdp_out
  have hsmall := ht.small.2
  induction n with
  | zero => rw [if_neg (by omega), if_neg (by omega)]; rfl
  | succ n ih =>
    have ih := ih (Nat.le_of_succ_le hn)
    rw [List.range_succ, List.foldl_append, List.foldl_cons, List.foldl_nil, setupDirectory,
      entry_fill fun i hi => (directoryData_eq hn hi).2, setData_eq (tableData_eq (by omega)).2]
    by_cases hdir : a = t.directory + n ∧ j < 512
    · obtain ⟨rfl, hj⟩ := hdir
      rw [if_pos ⟨rfl, hj⟩, if_neg (by omega), if_pos (by omega), Nat.add_sub_cancel_left]
    rw [if_neg hdir]
    by_cases hpdp : a = t.pdp ∧ j = n
    · obtain ⟨rfl, rfl⟩ := hpdp
      rw [entry_setEntry_self, if_pos (by omega)]
    · rw [entry_setEntry_of_ne hpdp, ih]
      have hfirst : (a = t.pdp ∧ j < n) = (a = t.pdp ∧ j < n + 1) := propext (by omega)
      have hsecond : ((t.directory ≤ a ∧ a < t.directory + n) ∧ j < 512) =
          ((t.directory ≤ a ∧ a < t.directory + (n + 1)) ∧ j < 512) := propext (by omega)
      simp only [hfirst, hsecond]

variable {st : Mmu}

theorem entry_setupIdentityPageTable (ht : t.Ok st) : (setupIdentityPageTable t st).entry a j =
    if a = t.pdp ∧ j < kPageDirectoryCount then .ofData (tableData (t.directory + j))
    else if (t.directory ≤ a ∧ a < t.directory + kPageDirectoryCount) ∧ j < 512 then
      .ofData (directoryData (a - t.directory) j)
    else (st.setData t.pml4 0 (tableData t.pdp)).entry a j := by
  rw [← entry_rounds ht _ (Nat.le_refl _), setupIdentityPageTable_eq, entry, entry]

theorem entry_pml4 (ht : t.Ok st) :
    (setupIdentityPageTable t st).entry t.pml4 0 = .ofData (tableData t.pdp) := by
  have hout := ht.pml4_out
  have hne := ht.pml4_ne
  rw [entry_setupIdentityPageTable ht, if_neg (by omega), if_neg (by omega),
    setData_eq (tableData_eq ht.small.1).2, entry_setEntry_self]

theorem entry_pdp (ht : t.Ok st) (i : Nat) : (setupIdentityPageTable t st).entry t.pdp i =
    if i < kPageDirectoryCount then .ofData (tableData (t.directory + i)) else .empty := by
  have hout := ht.pdp_out
  have hne := ht.pml4_ne
  rw [entry_setupIdentityPageTable ht]
  by_cases hi : i < kPageDirectoryCount
  · rw [if_pos ⟨rfl, hi⟩, if_pos hi]
  · rw [if_neg (fun h => hi h.2), if_neg (by omega), if_neg hi,
      setData_eq (tableData_eq ht.small.1).2,
      entry_setEntry_of_ne (fun h => hne h.1.symm), entry, loadLE_congr fun o _ _ =>
        ht.zero o, loadLE_zero]
    rfl

theorem entry_directory (ht : t.Ok st) (hi : i < kPageDirectoryCount) (hj : j < 512) :
    (setupIdentityPageTable t st).entry (t.directory + i) j = .ofData (directoryData i j) := by
  have hout := ht.pdp_out
  rw [entry_setupIdentityPageTable ht, if_neg (by omega), if_pos (by omega),
    Nat.add_sub_cancel_left]

/-- The identity map reaches the frames below 64 GiB, and no others below 128 GiB. -/
theorem translate_identity (ht : t.Ok st) (hf : f < kFrameCount) (ho : o < 4096) :
    (setupIdentityPageTable t st).translate false (f * 4096 + o) =
      if f < kPageDirectoryCount * 512 * 512 then some (f, o) else none := by
  have hcount : kFrameCount = 2 ^ 25 := by decide
  rw [hcount] at hf
  have hpage : (f * 4096 + o) / 4096 = f := by omega
  have hoffset : (f * 4096 + o) % 4096 = o := by omega
  have hfirst : f / 512 ^ 3 % 512 = 0 := by omega
  have hsecond : f / 512 ^ 2 % 512 = f / 2 ^ 18 := by omega
  obtain ⟨hp, hw, hh, hpointer⟩ := tableData_entry ht.small.1
  rw [translate, if_pos (.inl (by omega)), show (setupIdentityPageTable t st).cr3 = t.pml4 from rfl,
    translateFrom, hpage,
    hfirst, entry_pml4 ht, if_pos ⟨hp, hw, fun h => nomatch h⟩, if_neg fun h =>
      Bool.false_ne_true (hh.symm.trans h.1), hpointer, translateFrom, hpage, hsecond,
    entry_pdp ht]
  by_cases hlow : f / 2 ^ 18 < kPageDirectoryCount
  · have hsmall := ht.small.2
    have htable : t.directory + f / 2 ^ 18 < 2 ^ 40 := by omega
    obtain ⟨hp, hw, hh, hpointer⟩ := tableData_entry htable
    have hj : f / 512 ^ 1 % 512 < 512 := Nat.mod_lt _ (by decide)
    obtain ⟨hp', hw', hh', hpointer'⟩ := directoryData_entry hlow hj
    rw [if_pos hlow, if_pos ⟨hp, hw, fun h => nomatch h⟩, if_neg fun h =>
      Bool.false_ne_true (hh.symm.trans h.1), hpointer,
      translateFrom, hpage, entry_directory ht hlow hj, if_pos ⟨hp', hw', fun h => nomatch h⟩,
        if_pos ⟨hh', Nat.one_ne_zero⟩, if_neg (by decide),
      hpointer', hoffset, if_pos (by rw [kPageDirectoryCount] at *; omega)]
    congr 2
    omega
  · rw [if_neg hlow, if_neg (by simp), if_neg (by rw [kPageDirectoryCount] at *; omega)]

end Mmu

/-- `Allocate` can hand out the frame once `InitializeMemoryManager` has succeeded: in one of its
own runs, or to the heap. -/
def CanReturn (memoryMap : List MemoryDescriptor) (f : Nat) : Prop :=
  ∃ programBreak programBreakEnd m, initializeMemoryManager memoryMap =
    some (.ok (programBreak, programBreakEnd, m)) ∧
    ((programBreak ≤ f * kBytesPerFrame ∧ f * kBytesPerFrame < programBreakEnd) ∨
      ∃ es st n s m', Run Allocations.Step { manager := m } es st ∧ 1 ≤ n ∧
        st.manager.allocate n = some (.ok (s, m')) ∧ s ≤ f ∧ f < s + n)

theorem CanReturn.lt {memoryMap : List MemoryDescriptor} {f : Nat} (h : CanReturn memoryMap f) : f <
    kFrameCount := by
  have hblock : ∀ {m m' : BitmapMemoryManager} {s n : Nat}, 1 ≤ n →
      m.allocate n = some (.ok (s, m')) →
      s + n ≤ kFrameCount := fun {m m' s n} hn hrun => by
    have hcases := m.allocate_cases hn
    rw [hrun] at hcases
    exact hcases.2.1
  obtain ⟨programBreak, programBreakEnd, m, hinit, h⟩ := h
  rcases h with ⟨-, hhi⟩ | ⟨es, st, n, s, m', -, hn, hrun, hlo, hhi⟩
  · obtain ⟨m₀, -, hheap⟩ := Option.bind_eq_some_iff.1 hinit
    obtain ⟨err | ⟨heapStart, m₁⟩, halloc, hheap⟩ := Option.bind_eq_some_iff.1 hheap
    · cases hheap
    · cases hheap
      have := hblock (by decide) halloc
      rw [kBytesPerFrame] at hhi
      omega
  · have := hblock hn hrun
    omega

/-- A frame that `Allocate` can return can be written through its physical addresses if and only if
it lies below 64 GiB. -/
theorem addressable_iff {t : StaticTables} {st : Mmu} (ht : t.Ok st)
    {memoryMap : List MemoryDescriptor} {f : Nat}
    (hf : CanReturn memoryMap f) :
    (∀ o, o < kBytesPerFrame →
      (Mmu.setupIdentityPageTable t st).translate false (f * kBytesPerFrame + o) = some (f, o)) ↔
      f < kPageDirectoryCount * 512 * 512 := by
  constructor
  · intro h
    have hzero := h 0 (by decide)
    rw [kBytesPerFrame, Mmu.translate_identity ht hf.lt (by decide)] at hzero
    by_contra hlt
    rw [if_neg hlt] at hzero
    cases hzero
  · intro hlt o ho
    rw [kBytesPerFrame] at ho ⊢
    rw [Mmu.translate_identity ht hf.lt ho, if_pos hlt]

/-! ### 128 GiB of memory -/

def fullMap : List MemoryDescriptor := [⟨.kEfiConventionalMemory, 0, kFrameCount⟩]

theorem fullMap_ok : MemoryMapOk fullMap := by
  refine ⟨?_, .cons (fun _ h => absurd h List.not_mem_nil) .nil, ?_⟩
  · intro d hd
    rw [List.mem_singleton.1 hd]
    exact Nat.dvd_zero _
  · intro d hd
    rw [List.mem_singleton.1 hd]
    decide

theorem canReturn_fullMap {f : Nat} (h1 : 1 ≤ f) (hf : f ≤ 2 ^ 24) : CanReturn fullMap f := by
  have hcount : kFrameCount = 2 ^ 25 := by decide
  have hheap : kHeapFrames = 32768 := by decide
  set m₀ := BitmapMemoryManager.new.setMemoryRange 1 (2 ^ 37) with hm₀
  have hrange : initializeRange fullMap = some m₀ := by rfl
  have hbit₀ : ∀ g, m₀.bit g = false := BitmapMemoryManager.bit_new
  have hw₀ : Window m₀.Clear m₀.rangeEnd kHeapFrames 1 := ⟨by decide, fun g _ _ => hbit₀ g⟩
  obtain ⟨⟨s₁, m₁⟩, hrun₁⟩ := m₀.allocate_window hw₀ (Nat.le_refl 1) (by decide) (by decide)
  have hcases₁ := m₀.allocate_cases (n := kHeapFrames) (by decide)
  rw [hrun₁] at hcases₁
  obtain ⟨⟨⟨hlo₁, -⟩, hleast₁⟩, hmap₁, hmark₁⟩ := hcases₁
  obtain rfl : s₁ = 1 := Nat.le_antisymm (hleast₁ ⟨Nat.le_refl 1, hw₀⟩) hlo₁
  obtain ⟨m, hm, hbegin, hend, hbit⟩ := m₀.markAllocated_spec 1 hmap₁
  obtain rfl : m₁ = m := Option.some.inj (hmark₁.symm.trans hm)
  refine ⟨1 * kBytesPerFrame, 1 * kBytesPerFrame + kHeapFrames * kBytesPerFrame, m₁, ?_, ?_⟩
  · rw [initializeMemoryManager, hrange, Option.bind_eq_bind, Option.bind_some,
      initializeHeap, hrun₁]
    rfl
  by_cases hlow : f ≤ kHeapFrames
  · left
    rw [kBytesPerFrame]
    omega
  right
  have hw : Window m₁.Clear m₁.rangeEnd (2 ^ 24) (kHeapFrames + 1) := by
    refine ⟨by rw [hend, hheap]; decide, fun g hlo _ => ?_⟩
    show m₁.bit g = false
    rw [hbit, if_neg (by omega), hbit₀]
  obtain ⟨⟨s, m'⟩, hrun⟩ :=
    m₁.allocate_window hw (by rw [hbegin, hheap]; decide) (by decide) (by decide)
  have hcases := m₁.allocate_cases (n := 2 ^ 24) (by decide)
  rw [hrun] at hcases
  obtain ⟨⟨⟨hlo, -⟩, hleast⟩, -, -⟩ := hcases
  have hle : s ≤ kHeapFrames + 1 := hleast ⟨by rw [hbegin, hheap]; decide, hw⟩
  have hlo : 1 ≤ s := by rwa [hbegin] at hlo
  exact ⟨[], _, 2 ^ 24, s, m', .nil _, by decide, hrun, by omega, by omega⟩

/-- The tables at frames 256 to 321. -/
def lowTables : StaticTables := ⟨256, 257, 258⟩

def zeroMemory : Mmu := ⟨fun _ _ => 0, .new, 0, [], []⟩

theorem lowTables_ok : lowTables.Ok zeroMemory :=
  ⟨by decide, by decide, by decide, by decide, fun _ => rfl⟩

theorem addressable_iff_fullMap : (∀ o, o < kBytesPerFrame →
    (Mmu.setupIdentityPageTable lowTables zeroMemory).translate false (1 * kBytesPerFrame + o) =
      some (1, o)) ↔
    1 < kPageDirectoryCount * 512 * 512 :=
  addressable_iff lowTables_ok (canReturn_fullMap (Nat.le_refl 1) (by decide))

theorem not_addressable :
    ¬ ∀ (t : StaticTables) (st : Mmu) (memoryMap : List MemoryDescriptor) (f o : Nat), t.Ok st →
    MemoryMapOk memoryMap → CanReturn memoryMap f → o < kBytesPerFrame →
      (Mmu.setupIdentityPageTable t st).translate false (f * kBytesPerFrame + o) = some (f, o) := by
  intro h
  have hlast := h lowTables zeroMemory fullMap (2 ^ 24) 0 lowTables_ok fullMap_ok
    (canReturn_fullMap (by decide) (by decide)) (by decide)
  rw [kBytesPerFrame, Mmu.translate_identity lowTables_ok (by decide) (by decide),
    if_neg (by decide)] at hlast
  cases hlast

end Moxia
