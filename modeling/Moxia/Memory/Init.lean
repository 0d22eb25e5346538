import Moxia.Memory.Bits
import Mathlib.Data.List.Induction

/-!
# `InitializeMemoryManager`

The loop over the memory map marks gaps and unavailable descriptors against a running
`available_end`, then `SetMemoryRange(FrameID{1}, FrameID{available_end})` fixes the range. After
the loop the bits below the end of the map are exact (`ScanInv`). The range end, however, is
`available_end` itself, a byte address, taken as a frame number: the frames past the end of the map,
which no descriptor marks, lie in the range unless the map reaches that far
(`initializeRange_exact_iff`).
-/

namespace Moxia

open BitmapMemoryManager

/-- `if (available_end < desc->physical_start) MarkAllocated(..)` -/
def markGap (m : BitmapMemoryManager) (availableEnd physicalStart : Nat) :
    Option BitmapMemoryManager :=
  if availableEnd < physicalStart then
    m.markAllocated (availableEnd / kBytesPerFrame) ((physicalStart - availableEnd) /
      kBytesPerFrame)
  else some m

/-- One round of the loop of `InitializeMemoryManager`: the manager and `available_end`. -/
def scanDescriptor (s : BitmapMemoryManager × Nat) (desc : MemoryDescriptor) :
    Option (BitmapMemoryManager × Nat) := do
  let (m, availableEnd) := s
  let m ← markGap m availableEnd desc.physicalStart
  if isAvailable desc.type then some (m, desc.physicalEnd)
  else
    let m ← m.markAllocated (desc.physicalStart / kBytesPerFrame) (desc.bytes / kBytesPerFrame)
    some (m, availableEnd)

/-- The whole loop. -/
def scanMemoryMap (memoryMap : List MemoryDescriptor) : Option (BitmapMemoryManager × Nat) :=
  memoryMap.foldlM scanDescriptor (BitmapMemoryManager.new, 0)

/-- `InitializeMemoryManager` up to and including `SetMemoryRange`. -/
def initializeRange (memoryMap : List MemoryDescriptor) : Option BitmapMemoryManager := do
  let (m, availableEnd) ← scanMemoryMap memoryMap
  some (m.setMemoryRange 1 availableEnd)

def kHeapFrames : Nat := 64 * 512

/-- `InitializeHeap`: `program_break`, `program_break_end` and the manager without the heap's
frames. -/
def initializeHeap (m : BitmapMemoryManager) :
    Option (Except Error (Nat × Nat × BitmapMemoryManager)) := do
  match ← m.allocate kHeapFrames with
  | .error err => some (.error err)
  | .ok (heapStart, m) =>
    let programBreak := heapStart * kBytesPerFrame
    some (.ok (programBreak, programBreak + kHeapFrames * kBytesPerFrame, m))

/-- `InitializeMemoryManager`; an error stands for its message and `exit(1)`. -/
def initializeMemoryManager (memoryMap : List MemoryDescriptor) :
    Option (Except Error (Nat × Nat × BitmapMemoryManager)) := do
  initializeHeap (← initializeRange memoryMap)

/-! ### Memory maps -/

/-- Frame `f` lies inside `d`. -/
def MemoryDescriptor.Contains (d : MemoryDescriptor) (f : Nat) : Prop :=
  d.physicalStart ≤ f * kBytesPerFrame ∧ f * kBytesPerFrame < d.physicalStart +
    d.numberOfPages * kUEFIPageSize

instance (d : MemoryDescriptor) (f : Nat) : Decidable (d.Contains f) :=
  inferInstanceAs (Decidable (_ ∧ _))

/-- Page-aligned, sorted by `physical_start`, non-overlapping and below 128 GiB. -/
structure MemoryMapOk (memoryMap : List MemoryDescriptor) : Prop where
  aligned : ∀ d ∈ memoryMap, kBytesPerFrame ∣ d.physicalStart
  ordered : memoryMap.Pairwise fun d e => d.physicalStart + d.numberOfPages * kUEFIPageSize ≤
    e.physicalStart
  below : ∀ d ∈ memoryMap, d.physicalStart + d.numberOfPages * kUEFIPageSize ≤
    kMaxPhysicalMemoryBytes

/-- Frame `f` lies inside a descriptor for which `IsAvailable` holds. -/
def InAvailable (memoryMap : List MemoryDescriptor) (f : Nat) : Prop :=
  ∃ d ∈ memoryMap, isAvailable d.type = true ∧ d.Contains f

/-- The byte address at which the last available descriptor ends, 0 without one. -/
def availableEnd (memoryMap : List MemoryDescriptor) : Nat :=
  memoryMap.foldl (fun e d =>
    if isAvailable d.type then d.physicalStart + d.numberOfPages * kUEFIPageSize else e) 0

/-- The byte address at which the last descriptor ends, 0 without one. -/
def mapEnd (memoryMap : List MemoryDescriptor) : Nat :=
  memoryMap.foldl (fun _ d => d.physicalStart + d.numberOfPages * kUEFIPageSize) 0

/-- Frame `f` can be handed out by `Allocate`: it lies in the range and no bit keeps it back (past
the last line of `alloc_map_` there is no bit). -/
def BitmapMemoryManager.CanHandOut (m : BitmapMemoryManager) (f : Nat) : Prop :=
  m.rangeBegin ≤ f ∧ f < m.rangeEnd ∧ m.getBit f ≠ some true

/-- What initialisation is for: the frames from 1 on that can be handed out are those of the
available descriptors. -/
def InitExact (memoryMap : List MemoryDescriptor) : Prop :=
  ∃ m, initializeRange memoryMap = some m ∧ ∀ f, 1 ≤ f → (m.CanHandOut f ↔ InAvailable memoryMap f)

section
variable {ds : List MemoryDescriptor} {d : MemoryDescriptor}

@[simp] theorem availableEnd_append : availableEnd (ds ++ [d]) =
    if isAvailable d.type then d.physicalStart + d.numberOfPages * kUEFIPageSize else
      availableEnd ds := by
  simp [availableEnd]

@[simp] theorem mapEnd_append :
    mapEnd (ds ++ [d]) = d.physicalStart + d.numberOfPages * kUEFIPageSize := by
  simp [mapEnd]

theorem inAvailable_append {f : Nat} :
    InAvailable (ds ++ [d]) f ↔ InAvailable ds f ∨ (isAvailable d.type = true ∧ d.Contains f) := by
  simp only [InAvailable, List.mem_append, List.mem_singleton]
  constructor
  · rintro ⟨x, hx | rfl, h⟩
    exacts [.inl ⟨x, hx, h⟩, .inr h]
  · rintro (⟨x, hx, h⟩ | h)
    exacts [⟨x, .inl hx, h⟩, ⟨d, .inr rfl, h⟩]

namespace MemoryMapOk

theorem init (h : MemoryMapOk (ds ++ [d])) : MemoryMapOk ds :=
  ⟨fun x hx => h.aligned x (by simp [hx]), (List.pairwise_append.1 h.ordered).1,
    fun x hx => h.below x (by simp [hx])⟩

theorem last_aligned (h : MemoryMapOk (ds ++ [d])) : kBytesPerFrame ∣ d.physicalStart :=
  h.aligned d (by simp)

theorem last_below (h : MemoryMapOk (ds ++ [d])) :
    d.physicalStart + d.numberOfPages * kUEFIPageSize ≤ kMaxPhysicalMemoryBytes :=
  h.below d (by simp)

theorem le_last (h : MemoryMapOk (ds ++ [d])) : ∀ x ∈ ds,
    x.physicalStart + x.numberOfPages * kUEFIPageSize ≤ d.physicalStart :=
  fun x hx => (List.pairwise_append.1 h.ordered).2.2 x hx d (by simp)

theorem mapEnd_le_last (h : MemoryMapOk (ds ++ [d])) : mapEnd ds ≤ d.physicalStart := by
  rcases List.eq_nil_or_concat ds with rfl | ⟨xs, x, rfl⟩
  · simp [mapEnd]
  · rw [List.concat_eq_append, mapEnd_append]
    exact h.le_last x (by simp)

/-- Without wrap-around the source's `physical_end` is the mathematical one. -/
theorem bytes_eq (h : MemoryMapOk (ds ++ [d])) : d.bytes = d.numberOfPages * kUEFIPageSize := by
  have := h.last_below
  simp only [MemoryDescriptor.bytes, kMaxPhysicalMemoryBytes] at *
  exact Nat.mod_eq_of_lt (by omega)

theorem physicalEnd_eq (h : MemoryMapOk (ds ++ [d])) :
    d.physicalEnd = d.physicalStart + d.numberOfPages * kUEFIPageSize := by
  have := h.last_below
  simp only [MemoryDescriptor.physicalEnd, h.bytes_eq, kMaxPhysicalMemoryBytes] at *
  exact Nat.mod_eq_of_lt (by omega)

end MemoryMapOk

/-- The state of the loop after the descriptors `ds`: below the end of the map a bit is clear
exactly for the frames of available descriptors, past it no bit is set. -/
structure ScanInv (ds : List MemoryDescriptor) (m : BitmapMemoryManager) (e : Nat) : Prop where
  end_eq : e = availableEnd ds
  end_aligned : kBytesPerFrame ∣ availableEnd ds
  map_aligned : kBytesPerFrame ∣ mapEnd ds
  end_le : availableEnd ds ≤ mapEnd ds
  map_le : mapEnd ds ≤ kMaxPhysicalMemoryBytes
  available_lt : ∀ f, InAvailable ds f → f * kBytesPerFrame < availableEnd ds
  below : ∀ f, f * kBytesPerFrame < mapEnd ds → (m.bit f = false ↔ InAvailable ds f)
  above : ∀ f, mapEnd ds ≤ f * kBytesPerFrame → m.bit f = false

theorem ScanInv.nil : ScanInv [] BitmapMemoryManager.new 0 := by
  refine ⟨rfl, ⟨0, rfl⟩, ⟨0, rfl⟩, Nat.le_refl _, Nat.zero_le _, ?_, ?_, fun f _ => bit_new f⟩
  · rintro f ⟨d, hd, _⟩
    simp at hd
  · intro f hf
    simp [mapEnd] at hf

theorem markGap_spec (m : BitmapMemoryManager) {e start : Nat} (he : kBytesPerFrame ∣ e)
    (hs : kBytesPerFrame ∣ start) (hle : start ≤ kMaxPhysicalMemoryBytes) :
    ∃ m', markGap m e start = some m' ∧
      ∀ f, m'.bit f = if e ≤ f * kBytesPerFrame ∧ f * kBytesPerFrame < start then
        true else m.bit f := by
  by_cases hlt : e < start
  · obtain ⟨m', hm', -, -, hbit⟩ := m.markAllocated_spec (e / kBytesPerFrame)
      (n := (start - e) / kBytesPerFrame)
      (by simp only [kFrameCount, kMaxPhysicalMemoryBytes, kBytesPerFrame] at *; omega)
    refine ⟨m', by rw [markGap, if_pos hlt, hm'], fun f => ?_⟩
    rw [hbit]
    refine ite_congr (propext ?_) (fun _ => rfl) (fun _ => rfl)
    simp only [kBytesPerFrame] at *
    omega
  · refine ⟨m, by rw [markGap, if_neg hlt], fun f => ?_⟩
    rw [if_neg (by omega)]

/-- One descriptor keeps `ScanInv`: the gap before it is marked, and it is marked itself unless it
is available, when `available_end` moves to its end. -/
theorem ScanInv.step {m : BitmapMemoryManager} {e : Nat} (hok : MemoryMapOk (ds ++ [d]))
    (h : ScanInv ds m e) :
    ∃ m' e', scanDescriptor (m, e) d = some (m', e') ∧ ScanInv (ds ++ [d]) m' e' := by
  have hle := hok.mapEnd_le_last
  have hbelow := hok.last_below
  have hstart := hok.last_aligned
  obtain ⟨he, hea, hma, hem, hmm, havail, hbel, habo⟩ := h
  obtain ⟨m₁, hm₁, hbit₁⟩ := markGap_spec m (he ▸ hea) hstart (by omega)
  have hgap : ∀ f, f * kBytesPerFrame < d.physicalStart →
    (m₁.bit f = false ↔ InAvailable ds f) := by
    intro f hf
    have hnot := fun hin => Nat.not_le.2 (havail f hin)
    rw [hbit₁, he]
    split_ifs with hin
    · exact ⟨fun h => absurd h (by decide), fun h => absurd hin.1 (hnot h)⟩
    · exact hbel f (by omega)
  have habove : ∀ f, d.physicalStart ≤ f * kBytesPerFrame → m₁.bit f = false := by
    intro f hf
    rw [hbit₁, if_neg (by omega)]
    exact habo f (by omega)
  by_cases hav : isAvailable d.type = true
  · refine ⟨m₁, d.physicalEnd, by simp [scanDescriptor, hm₁, hav], ?_⟩
    have hend : kBytesPerFrame ∣ d.physicalStart + d.numberOfPages * kUEFIPageSize :=
      Nat.dvd_add hstart ⟨d.numberOfPages, Nat.mul_comm _ _⟩
    refine ⟨by rw [availableEnd_append, if_pos hav, hok.physicalEnd_eq], by simpa [hav] using hend,
      by simpa using hend, by simp [hav], by simpa using hbelow, ?_, ?_, ?_⟩
    · intro f hf
      simp only [availableEnd_append, if_pos hav]
      rcases inAvailable_append.1 hf with hf | ⟨_, hf⟩
      · have := havail f hf
        omega
      · exact hf.2
    · intro f hf
      rw [mapEnd_append] at hf
      rw [inAvailable_append]
      by_cases hlt : f * kBytesPerFrame < d.physicalStart
      · have hout : ¬ d.Contains f := fun hc => absurd hc.1 (by omega)
        rw [hgap f hlt]
        simp [hout]
      · have hin : d.Contains f := ⟨by omega, hf⟩
        simp [habove f (by omega), hav, hin]
    · intro f hf
      rw [mapEnd_append] at hf
      exact habove f (by omega)
  · obtain ⟨m₂, hm₂, -, -, hbit₂⟩ := m₁.markAllocated_spec (d.physicalStart / kBytesPerFrame)
      (n := d.bytes / kBytesPerFrame) (by
        rw [hok.bytes_eq]
        simp only [kFrameCount, kMaxPhysicalMemoryBytes, kBytesPerFrame, kUEFIPageSize] at *
        omega)
    have hbit : ∀ f, m₂.bit f = if d.Contains f then true else m₁.bit f := by
      intro f
      obtain ⟨a, ha⟩ := hstart
      rw [hbit₂, hok.bytes_eq]
      refine ite_congr (propext ?_) (fun _ => rfl) (fun _ => rfl)
      simp only [MemoryDescriptor.Contains, kBytesPerFrame, kUEFIPageSize] at *
      omega
    refine ⟨m₂, e, by simp [scanDescriptor, hm₁, hm₂, hav], ?_⟩
    refine ⟨by rw [availableEnd_append, if_neg hav, he], by simpa [hav] using hea, ?_, ?_,
      by simpa using hbelow, ?_, ?_, ?_⟩
    · rw [mapEnd_append]
      exact Nat.dvd_add hstart ⟨d.numberOfPages, Nat.mul_comm _ _⟩
    · simp only [availableEnd_append, if_neg hav, mapEnd_append]
      omega
    · intro f hf
      simp only [availableEnd_append, if_neg hav]
      exact havail f ((inAvailable_append.1 hf).resolve_right fun h => hav h.1)
    · intro f hf
      rw [mapEnd_append] at hf
      have hiff : InAvailable (ds ++ [d]) f ↔ InAvailable ds f := by
        rw [inAvailable_append]
        simp [hav]
      rw [hbit, hiff]
      by_cases hin : d.Contains f
      · have hno : ¬ InAvailable ds f := fun hi => by
          have := havail f hi
          have := hin.1
          omega
        simp [hin, hno]
      · rw [if_neg hin]
        exact hgap f (Nat.lt_of_not_le fun hle' => hin ⟨hle', hf⟩)
    · intro f hf
      rw [mapEnd_append] at hf
      rw [hbit, if_neg (fun hc => absurd hc.2 (by omega))]
      exact habove f (by omega)

theorem scanMemoryMap_spec (hok : MemoryMapOk ds) :
    ∃ m e, scanMemoryMap ds = some (m, e) ∧ ScanInv ds m e := by
  induction ds using List.reverseRecOn with
  | nil => exact ⟨_, _, rfl, ScanInv.nil⟩
  | append_singleton ds d ih =>
    obtain ⟨m, e, hm, hinv⟩ := ih hok.init
    obtain ⟨m', e', hm', hinv'⟩ := hinv.step hok
    refine ⟨m', e', ?_, hinv'⟩
    rw [scanMemoryMap] at hm ⊢
    rw [List.foldlM_append, hm]
    simp [hm']

theorem ScanInv.canHandOut_iff {m : BitmapMemoryManager} {e f : Nat}
    (h : ScanInv ds m e) (hf : 1 ≤ f)
    (hlt : f * kBytesPerFrame < mapEnd ds) :
    (m.setMemoryRange 1 e).CanHandOut f ↔ f < e ∧ InAvailable ds f := by
  have hmap : f < kFrameCount := by
    have := h.map_le
    simp only [kFrameCount, kMaxPhysicalMemoryBytes, kBytesPerFrame] at *
    omega
  have hget : (m.setMemoryRange 1 e).getBit f = some (m.bit f) := by
    rw [getBit_eq, if_pos hmap]
    rfl
  rw [← h.below f hlt, CanHandOut, hget]
  simp [setMemoryRange, hf]

/-- A frame past the end of the map can be handed out whenever the range reaches it. -/
theorem ScanInv.canHandOut_past {m : BitmapMemoryManager} {e f : Nat}
    (h : ScanInv ds m e) (hf : 1 ≤ f)
    (hge : mapEnd ds ≤ f * kBytesPerFrame) (hlt : f < e) : (m.setMemoryRange 1 e).CanHandOut f := by
  refine ⟨hf, hlt, ?_⟩
  have hbit : (m.setMemoryRange 1 e).bit f = false := h.above f hge
  rw [getBit_eq]
  split <;> simp [hbit]

/-- Initialisation is exact if and only if the frame number at which the memory map ends is at least
`available_end`, the byte address at which its last available descriptor ends. -/
theorem initializeRange_exact_iff (memoryMap : List MemoryDescriptor)
    (hok : MemoryMapOk memoryMap) :
    InitExact memoryMap ↔ availableEnd memoryMap ≤ mapEnd memoryMap / kBytesPerFrame := by
  obtain ⟨m, e, hm, hinv⟩ := scanMemoryMap_spec hok
  obtain ⟨he, ⟨a, ha⟩, ⟨b, hb⟩, hem, -, havail, -, -⟩ := id hinv
  have hinit : initializeRange memoryMap = some (m.setMemoryRange 1 e) := by
    simp [initializeRange, hm]
  have hdiv : mapEnd memoryMap / kBytesPerFrame = b := by
    rw [hb]
    exact Nat.mul_div_cancel_left _ (by decide)
  rw [hdiv]
  constructor
  · rintro ⟨m', hm', hex⟩
    obtain rfl := Option.some.inj (hinit.symm.trans hm')
    by_contra hlt
    -- the first frame past the map is in the range and in no descriptor
    have hpast : mapEnd memoryMap ≤ max b 1 * kBytesPerFrame := by
      simp only [kBytesPerFrame] at *
      omega
    have hcan := hinv.canHandOut_past (f := max b 1) (by omega) hpast
      (by simp only [kBytesPerFrame] at *; omega)
    have := havail _ ((hex _ (by omega)).1 hcan)
    omega
  · intro hle
    refine ⟨_, hinit, fun f hf => ?_⟩
    by_cases hlt : f * kBytesPerFrame < mapEnd memoryMap
    · rw [hinv.canHandOut_iff hf hlt]
      have hlt_of : InAvailable memoryMap f → f < e := fun h => by
        have := havail f h
        simp only [kBytesPerFrame] at *
        omega
      exact ⟨fun h => h.2, fun h => ⟨hlt_of h, h⟩⟩
    · constructor
      · intro hcan
        have : f < e := hcan.2.1
        simp only [kBytesPerFrame] at *
        omega
      · intro hin
        have := havail f hin
        omega

/-- One page of conventional memory at 0x1000 followed by a reserved region up to 32 MiB. -/
theorem initializeRange_exact_reserved_tail :
    InitExact [⟨.kEfiConventionalMemory, 0x1000, 1⟩, ⟨.kEfiReservedMemoryType, 0x2000, 8190⟩] :=
  (initializeRange_exact_iff _ ⟨by decide, by decide, by decide⟩).2 (by decide)

/-- One page of conventional memory at 0x1000: frame 2, past the end of the map, can be handed
out. -/
theorem not_initExact_single_page : ¬ InitExact [⟨.kEfiConventionalMemory, 0x1000, 1⟩] := by
  rintro ⟨m, hm, hex⟩
  have hval : (initializeRange [⟨.kEfiConventionalMemory, 0x1000, 1⟩]).map
      (fun m => (m.rangeBegin, m.rangeEnd, m.getBit 2)) = some (1, 8192, some false) := by decide
  rw [hm] at hval
  simp only [Option.map_some, Option.some.injEq, Prod.mk.injEq] at hval
  obtain ⟨hb, he, hbit⟩ := hval
  obtain ⟨d, hd, -, hin⟩ := (hex 2 (by decide)).1 ⟨by omega, by omega, by simp [hbit]⟩
  rw [List.mem_singleton] at hd
  subst hd
  exact absurd hin (by decide)

end

end Moxia
