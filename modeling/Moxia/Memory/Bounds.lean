import Moxia.Memory.Allocate
import Moxia.Memory.Init

/-!
# Which frames the bitmap has a bit for

`alloc_map_` has a bit for the frames below `kFrameCount`. The only test that keeps `Allocate` there
is the one against `range_end_`, which `InitializeMemoryManager` sets to a byte address; and the
marking of the memory map is not tested at all. So every access stays inside the map exactly if the
map marks no frame past it, and the byte address itself is at most `kFrameCount`
(`accessesInBounds_iff`).
-/

namespace Moxia

open Lib

namespace BitmapMemoryManager

variable {m m' : BitmapMemoryManager}

/-- `Allocate` and `Free`, whatever they return. -/
def step (m : BitmapMemoryManager) : Allocations.Event → Option BitmapMemoryManager
  | .allocate numFrames => do
    match ← m.allocate numFrames with
    | .ok (_, m) => some m
    | .error _ => some m
  | .free startFrame numFrames => m.free startFrame numFrames

/-- Only allocated frames are freed. -/
def FreesAllocated (m : BitmapMemoryManager) : Allocations.Event → Prop
  | .allocate _ => True
  | .free startFrame numFrames =>
      ∀ f, startFrame ≤ f → f < startFrame + numFrames → m.getBit f = some true

def Step : BitmapMemoryManager → Allocations.Event → BitmapMemoryManager → Prop :=
  Guarded FreesAllocated fun m e m' => m.step e = some m'

theorem allocate_zero (m : BitmapMemoryManager) : m.allocate 0 = some (.ok (m.rangeBegin, m)) := rfl

theorem step_of_le (hend : m.rangeEnd ≤ kFrameCount) {e : Allocations.Event}
    (he : m.FreesAllocated e) :
    ∃ m', m.step e = some m' ∧ m'.rangeEnd ≤ kFrameCount := by
  cases e with
  | allocate n =>
    rcases Nat.eq_zero_or_pos n with rfl | hn
    · exact ⟨m, by rw [step, allocate_zero]; rfl, hend⟩
    rcases m.allocate_spec hend hn with ⟨s, m', hrun, -, -, hend', -⟩ | ⟨hrun, -⟩
    · exact ⟨m', by rw [step, hrun]; rfl, hend'.trans_le hend⟩
    · exact ⟨m, by rw [step, hrun]; rfl, hend⟩
  | free s n =>
    have hle : n = 0 ∨ s + n ≤ kFrameCount := by
      rcases Nat.eq_zero_or_pos n with hn | hn
      · exact .inl hn
      have hlast := he (s + n - 1) (by omega) (by omega)
      rw [getBit_eq] at hlast
      split at hlast
      · exact .inr (by omega)
      · cases hlast
    rcases hle with rfl | hle
    · exact ⟨m, rfl, hend⟩
    · obtain ⟨m', hm', -, hend', -⟩ := m.free_spec s hle
      exact ⟨m', hm', hend'.trans_le hend⟩

/-- With a longer range, asking for more frames than there are bits leaves the map. -/
theorem allocate_of_lt (hbegin : 1 ≤ m.rangeBegin) (hle : m.rangeBegin ≤ kFrameCount)
    (hend : kFrameCount < m.rangeEnd) : m.allocate kFrameCount = none := by
  have hcases := m.allocate_cases (n := kFrameCount) (by decide)
  by_contra hne
  obtain ⟨err | ⟨s, m'⟩, hrun⟩ := Option.ne_none_iff_exists'.1 hne <;> rw [hrun] at hcases
  · have := hcases.2.2 hle
    omega
  · obtain ⟨⟨⟨hlo, -⟩, -⟩, hmap, -⟩ := hcases
    have hlo : m.rangeBegin ≤ s := hlo
    omega

end BitmapMemoryManager

open BitmapMemoryManager

/-- The frames that the loop of `InitializeMemoryManager` marks from `available_end` on have bits:
those of the gaps before a descriptor, and those of the unavailable descriptors. -/
def MarksFit : Nat → List MemoryDescriptor → Prop
  | _, [] => True
  | availableEnd, d :: ds =>
    (availableEnd < d.physicalStart → d.physicalStart ≤ kMaxPhysicalMemoryBytes) ∧
    if isAvailable d.type then MarksFit (d.physicalStart + d.numberOfPages * kUEFIPageSize) ds
    else (0 < d.numberOfPages →
      d.physicalStart + d.numberOfPages * kUEFIPageSize ≤ kMaxPhysicalMemoryBytes) ∧
      MarksFit availableEnd ds

/-- No access leaves the map: not in `InitializeMemoryManager`, and in no call after it. -/
def AccessesInBounds (memoryMap : List MemoryDescriptor) : Prop :=
  ∃ r, initializeMemoryManager memoryMap = some r ∧ ∀ programBreak programBreakEnd m,
    r = .ok (programBreak, programBreakEnd, m) → ∀ es m', Run Step m es m' →
      ∀ e, m'.FreesAllocated e →
      m'.step e ≠ none

/-- Page-aligned descriptors that do not wrap around. -/
def DescriptorsOk (memoryMap : List MemoryDescriptor) : Prop :=
  ∀ d ∈ memoryMap, kBytesPerFrame ∣ d.physicalStart ∧ d.physicalStart + d.numberOfPages *
    kUEFIPageSize < 2 ^ 64

instance (memoryMap : List MemoryDescriptor) : Decidable (DescriptorsOk memoryMap) :=
  inferInstanceAs (Decidable (∀ d ∈ memoryMap,
    kBytesPerFrame ∣ d.physicalStart ∧ d.physicalStart + d.numberOfPages * kUEFIPageSize < 2 ^ 64))

instance decidableMarksFit : ∀ e ds, Decidable (MarksFit e ds)
  | _, [] => isTrue trivial
  | e, d :: ds =>
    have : ∀ e, Decidable (MarksFit e ds) := fun e => decidableMarksFit e ds
    inferInstanceAs (Decidable ((e < d.physicalStart → d.physicalStart ≤ kMaxPhysicalMemoryBytes) ∧
      if isAvailable d.type = true then
        MarksFit (d.physicalStart + d.numberOfPages * kUEFIPageSize) ds
      else (0 < d.numberOfPages →
        d.physicalStart + d.numberOfPages * kUEFIPageSize ≤ kMaxPhysicalMemoryBytes) ∧
        MarksFit e ds))

section
variable {ds : List MemoryDescriptor} {d : MemoryDescriptor} {m : BitmapMemoryManager} {e : Nat}

theorem bytes_eq_of_lt (h : d.physicalStart + d.numberOfPages * kUEFIPageSize < 2 ^ 64) :
    d.bytes = d.numberOfPages * kUEFIPageSize ∧
      d.physicalEnd = d.physicalStart + d.numberOfPages * kUEFIPageSize := by
  have hbytes : d.bytes = d.numberOfPages * kUEFIPageSize := Nat.mod_eq_of_lt (by omega)
  exact ⟨hbytes, by rw [MemoryDescriptor.physicalEnd, hbytes, Nat.mod_eq_of_lt h]⟩

theorem markAllocated_ne_none_iff (m : BitmapMemoryManager) (start n : Nat) :
    m.markAllocated start n ≠ none ↔ (0 < n → start + n ≤ kFrameCount) := by
  rcases Nat.eq_zero_or_pos n with rfl | hn
  · simp [markAllocated, setBits]
  by_cases hle : start + n ≤ kFrameCount
  · obtain ⟨m', hm', -⟩ := m.markAllocated_spec start hle
    simp [hm', hle]
  · rw [markAllocated, m.setBits_of_past true start n hn (by omega)]
    simp [hn, hle]

theorem markGap_ne_none_iff (m : BitmapMemoryManager) (he : kBytesPerFrame ∣ e)
    (hd : kBytesPerFrame ∣ d.physicalStart) :
    markGap m e d.physicalStart ≠ none ↔
      (e < d.physicalStart → d.physicalStart ≤ kMaxPhysicalMemoryBytes) := by
  rw [markGap]
  split
  · rw [markAllocated_ne_none_iff]
    simp only [kFrameCount, kMaxPhysicalMemoryBytes, kBytesPerFrame] at *
    omega
  · simp [*]

theorem scan_iff (hok : DescriptorsOk ds) : ∀ m e, kBytesPerFrame ∣ e →
    (ds.foldlM scanDescriptor (m, e) ≠ none ↔ MarksFit e ds) ∧
    ∀ m' e', ds.foldlM scanDescriptor (m, e) = some (m', e') → e' = ds.foldl (fun e d =>
      if isAvailable d.type then d.physicalStart + d.numberOfPages * kUEFIPageSize else e) e := by
  induction ds with
  | nil =>
    intro m e _
    refine ⟨by simp [MarksFit], ?_⟩
    rintro m' e' ⟨⟩
    rfl
  | cons d ds ih =>
    intro m e he
    obtain ⟨hd, hwrap⟩ := hok d List.mem_cons_self
    obtain ⟨hbytes, hphys⟩ := bytes_eq_of_lt hwrap
    have ih := ih fun x hx => hok x (List.mem_cons_of_mem _ hx)
    have hgap := markGap_ne_none_iff m he hd
    rw [List.foldlM_cons, MarksFit, scanDescriptor, List.foldl_cons]
    rcases hm₁ : markGap m e d.physicalStart with _ | m₁ <;> rw [hm₁] at hgap
    · refine ⟨?_, fun m' e' h => by cases h⟩
      simp only [ne_eq, not_true_eq_false, false_iff] at hgap
      simp [hgap]
    simp only [ne_eq, reduceCtorEq, not_false_eq_true, true_iff] at hgap
    simp only [Option.bind_eq_bind, Option.bind_some]
    by_cases hav : isAvailable d.type = true
    · rw [if_pos hav, if_pos hav, if_pos hav, Option.bind_some, hphys]
      have hend : kBytesPerFrame ∣ d.physicalStart + d.numberOfPages * kUEFIPageSize :=
        Nat.dvd_add hd ⟨d.numberOfPages, Nat.mul_comm _ _⟩
      have ih := ih m₁ _ hend
      exact ⟨by rw [ih.1, and_iff_right hgap], ih.2⟩
    · rw [if_neg hav, if_neg hav, if_neg hav, hbytes]
      have hmark := markAllocated_ne_none_iff m₁ (d.physicalStart / kBytesPerFrame)
        (d.numberOfPages * kUEFIPageSize / kBytesPerFrame)
      have hfit : (0 < d.numberOfPages * kUEFIPageSize / kBytesPerFrame →
          d.physicalStart / kBytesPerFrame + d.numberOfPages * kUEFIPageSize / kBytesPerFrame ≤
            kFrameCount) ↔
          (0 < d.numberOfPages →
            d.physicalStart + d.numberOfPages * kUEFIPageSize ≤ kMaxPhysicalMemoryBytes) := by
        simp only [kFrameCount, kMaxPhysicalMemoryBytes, kBytesPerFrame, kUEFIPageSize] at *
        omega
      rw [hfit] at hmark
      rcases hm₂ : m₁.markAllocated (d.physicalStart / kBytesPerFrame)
        (d.numberOfPages * kUEFIPageSize / kBytesPerFrame) with _ | m₂ <;> rw [hm₂] at hmark
      · refine ⟨?_, fun m' e' h => by cases h⟩
        simp only [ne_eq, not_true_eq_false, false_iff] at hmark
        simp [hmark]
      · simp only [ne_eq, reduceCtorEq, not_false_eq_true, true_iff] at hmark
        have ih := ih m₂ e he
        refine ⟨?_, ih.2⟩
        show List.foldlM scanDescriptor (m₂, e) ds ≠ none ↔ _
        rw [ih.1, and_iff_right hgap, and_iff_right hmark]

theorem initializeRange_cases (hok : DescriptorsOk ds) :
    (¬ MarksFit 0 ds ∧ initializeRange ds = none) ∨
    (MarksFit 0 ds ∧ ∃ m, initializeRange ds = some m ∧ m.rangeBegin = 1 ∧
      m.rangeEnd = availableEnd ds) := by
  obtain ⟨hiff, hend⟩ := scan_iff hok BitmapMemoryManager.new 0 ⟨0, rfl⟩
  rw [initializeRange, scanMemoryMap]
  rcases hscan : ds.foldlM scanDescriptor (BitmapMemoryManager.new, 0) with _ | ⟨m, e⟩ <;>
    rw [hscan] at hiff hend
  · exact .inl ⟨fun h => hiff.2 h rfl, rfl⟩
  · refine .inr ⟨hiff.1 (by simp), _, rfl, rfl, ?_⟩
    exact hend m e rfl

theorem accessesInBounds_of_le (hok : DescriptorsOk ds) (hfit : MarksFit 0 ds)
    (hend : availableEnd ds ≤ kFrameCount) : AccessesInBounds ds := by
  obtain ⟨hno, -⟩ | ⟨-, m, hm, hbegin', hend'⟩ := initializeRange_cases hok
  · exact absurd hfit hno
  have hle : m.rangeEnd ≤ kFrameCount := hend'.trans_le hend
  have hrun : ∀ m' : BitmapMemoryManager, m'.rangeEnd ≤ kFrameCount → ∀ es m'', Run Step m' es m'' →
      m''.rangeEnd ≤ kFrameCount := fun m' hm' es m'' hrun => by
    refine hrun.inv (I := fun m => m.rangeEnd ≤ kFrameCount) (fun m e m' hm hstep => ?_) hm'
    obtain ⟨m₁, hm₁, hle⟩ := step_of_le hm hstep.1
    rw [hstep.2] at hm₁
    cases hm₁
    exact hle
  rw [AccessesInBounds, initializeMemoryManager, hm]
  simp only [Option.bind_eq_bind, Option.bind_some, initializeHeap]
  rcases m.allocate_spec hle (n := kHeapFrames) (by decide) with ⟨s, m₁, halloc, -, -, hend₁,
    -⟩ | ⟨halloc, -⟩
  · refine ⟨_, by rw [halloc]; rfl, ?_⟩
    rintro _ _ m' ⟨⟩ es m'' hsteps e he
    obtain ⟨m₃, hm₃, -⟩ := step_of_le (hrun m₁ (hend₁.trans_le hle) es m'' hsteps) he
    simp [hm₃]
  · refine ⟨_, by rw [halloc]; rfl, ?_⟩
    rintro _ _ m' ⟨⟩

/-- Where the range reaches past the map, a later `Allocate` does as well. -/
theorem not_accessesInBounds_of_lt (hok : DescriptorsOk ds) (hend : kFrameCount < availableEnd ds) :
    ¬ AccessesInBounds ds := by
  rintro ⟨r, hr, hall⟩
  obtain ⟨-, hnone⟩ | ⟨-, m, hm, hbegin', hend'⟩ := initializeRange_cases hok
  · rw [initializeMemoryManager, hnone] at hr
    cases hr
  have hcases := m.allocate_cases (n := kHeapFrames) (by decide)
  rw [initializeMemoryManager, hm] at hr
  simp only [Option.bind_eq_bind, Option.bind_some, initializeHeap] at hr
  rcases hrun : m.allocate kHeapFrames with _ | err | ⟨s, m₁⟩ <;> rw [hrun] at hcases hr
  · cases hr
  · have := hcases.2.2 (by rw [hbegin']; decide)
    omega
  · cases hr
    obtain ⟨m₂, hm₂, hbegin₁, hend₁, -⟩ := m.markAllocated_spec s hcases.2.1
    obtain rfl := Option.some.inj (hcases.2.2.symm.trans hm₂)
    refine hall _ _ m₁ rfl [] m₁ (.nil _) (.allocate kFrameCount) trivial ?_
    have hbig := allocate_of_lt (m := m₁) (by omega) (by rw [hbegin₁, hbegin']; decide) (by omega)
    rw [step, hbig]
    rfl

end

/-- Every access stays inside the map if and only if the memory map marks no frame past it, and
`available_end`, as a number of frames, is not past it either. -/
theorem accessesInBounds_iff (memoryMap : List MemoryDescriptor) (hok : DescriptorsOk memoryMap) :
    AccessesInBounds memoryMap ↔ MarksFit 0 memoryMap ∧ availableEnd memoryMap ≤ kFrameCount := by
  constructor
  · intro h
    refine ⟨?_, Nat.le_of_not_lt fun hlt => not_accessesInBounds_of_lt hok hlt h⟩
    obtain ⟨-, hnone⟩ | ⟨hfit, -⟩ := initializeRange_cases hok
    · obtain ⟨r, hr, -⟩ := h
      rw [initializeMemoryManager, hnone] at hr
      cases hr
    · exact hfit
  · exact fun h => accessesInBounds_of_le hok h.1 h.2

/-- Conventional memory up to 32 MiB, with a reserved region in front. -/
theorem accessesInBounds_iff_small : AccessesInBounds
    [⟨.kEfiReservedMemoryType, 0, 256⟩, ⟨.kEfiConventionalMemory, 0x100000, 7936⟩] :=
  (accessesInBounds_iff _ (by decide)).2 (by decide)

/-- 64 MiB of conventional memory: `range_end_` becomes 2^26, and there are 2^25 bits. -/
theorem not_accessesInBounds : ¬ ∀ memoryMap, DescriptorsOk memoryMap →
    AccessesInBounds memoryMap := by
  intro h
  have hin := h [⟨.kEfiConventionalMemory, 0, 16384⟩] (by decide)
  exact not_accessesInBounds_of_lt (by decide) (by decide) hin

end Moxia
