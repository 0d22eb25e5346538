import Moxia.App.Loader
import Moxia.Paging.Stores

/-!
# The address space of an application

`SetupPML4` starts it with the tables of the kernel in the lower half and nothing in the upper half
(`NewPml4.confined`).
-/

namespace Moxia

open Lib

namespace Mmu

variable {B : Nat → Prop} {st₀ st st' : Mmu} {a g i pml4 : Nat} {t : List Nat}

/-! ## A new address space -/

/-- The tables the kernel works with are in allocated frames, and closed to applications. -/
structure KernelTables (st : Mmu) : Prop where
  table : ∀ t a, Inner (Path (· < 256) 3) t → walk st.nextTable st.cr3 t = some a →
    st.memoryManager.bit a = true
  user : ∀ i, i < 256 → (st.entry st.cr3 i).user = false

/-- Frames that are not in use are none of the tables. -/
theorem KernelTables.congr (hk : KernelTables st) (hcr3 : st'.cr3 = st.cr3)
    (hentry : ∀ a i, st.InUse a → st'.entry a i = st.entry a i)
    (hbit : ∀ a, st.InUse a → st'.InUse a) : KernelTables st' := by
  have hwalk : ∀ {t}, Inner (Path (· < 256) 3) t → walk st'.nextTable st'.cr3 t =
    walk st.nextTable st.cr3 t := fun ht => by
    rw [hcr3]
    refine walk_congr (pathSet (· < 256) 3) (fun s i a hs hw => ?_) ht
    exact nextTable_congr (hentry a i (hk.table s a hs.inner hw))
  refine ⟨fun t a ht hw => ?_, fun i hi => ?_⟩
  · rw [hwalk ht] at hw
    exact hbit a (hk.table t a ht hw)
  · rw [hcr3, hentry _ _ (hk.table [] st.cr3 (.inl rfl) rfl)]
    exact hk.user i hi

/-- What `SetupPML4` leaves. -/
structure NewPml4 (st st' : Mmu) (pml4 : Nat) : Prop where
  free : st.memoryManager.bit pml4 = false
  lt : pml4 < identityFrames
  bit : ∀ x, st'.memoryManager.bit x = if x = pml4 then true else st.memoryManager.bit x
  low : ∀ i, i < 256 → st'.entry pml4 i = st.entry st.cr3 i
  high : ∀ i, 256 ≤ i → i < 512 → st'.entry pml4 i = .empty
  mem : ∀ a, a ≠ pml4 → st'.mem a = st.mem a
  cr3 : st'.cr3 = pml4
  stores : st'.stores = st.stores
  rangeBegin : st'.memoryManager.rangeBegin = st.memoryManager.rangeBegin
  rangeEnd : st'.memoryManager.rangeEnd = st.memoryManager.rangeEnd

theorem setupPML4_high (hrun : st.setupPML4 = some (.ok pml4, st')) :
    st'.cr3 = pml4 ∧ st'.InUse pml4 ∧ pml4 < identityFrames ∧ ∀ i, 256 ≤ i → i < 512 →
      st'.entry pml4 i = .empty := by
  obtain ⟨g, st₁, hnew, hrun⟩ := andThen_eq_ok hrun
  cases (Option.ite_none_left_eq_some.1 hrun).2
  obtain ⟨manager, rfl, -, hlt, -, -, hbits⟩ := newPageMap_ok hnew
  have hdst : ({ st with memoryManager := manager }.clearFrame pml4).mem pml4 = fun _ => 0 :=
    Function.update_self ..
  refine ⟨rfl, (hbits pml4).trans (if_pos rfl), hlt, fun i hi hi' => ?_⟩
  have hzero : ∀ src, loadLE (Lib.store (fun _ => 0) 0 (256 * 8) src) (8 * i) 8 =
    loadLE (fun _ => 0) (8 * i) 8 :=
    fun src => loadLE_congr fun o hlo hhi => Lib.store_of_not_mem (.inr (by omega))
  rw [entry]
  dsimp only
  rw [Function.update_self, hdst, hzero, loadLE_zero]
  rfl

/-- A new address space takes a spare frame, and the tables of the old one. -/
theorem setupPML4_ok_iff : (∃ pml4 st', st.setupPML4 = some (.ok pml4, st')) ↔
    (∃ g, st.Spare g) ∧ st.cr3 < identityFrames := by
  constructor
  · rintro ⟨pml4, st', hrun⟩
    obtain ⟨g, st₁, hnew, hrun⟩ := andThen_eq_ok hrun
    have hlt := Nat.lt_of_not_le (Option.ite_none_left_eq_some.1 hrun).1
    obtain ⟨manager, rfl, -⟩ := newPageMap_ok hnew
    exact ⟨⟨g, newPageMap_spare hnew⟩, hlt⟩
  · rintro ⟨⟨g, hg⟩, hlt⟩
    rcases hnew : st.newPageMap with _ | ⟨err | pml4, st'⟩
    · exact absurd hg (newPageMap_none hnew)
    · exact absurd hg ((newPageMap_error hnew).2.2 g)
    · have hcr3 : st'.cr3 = st.cr3 := (newPageMap_steady hnew).cr3
      have hreached : ¬ identityFrames ≤ st'.cr3 := hcr3 ▸ Nat.not_le.2 hlt
      exact ⟨pml4, _, (congrArg (Result.andThen · _) hnew).trans (if_neg hreached)⟩

theorem setupPML4_ok (hcr3 : st.memoryManager.bit st.cr3 = true)
    (hrun : st.setupPML4 = some (.ok pml4, st')) :
    NewPml4 st st' pml4 := by
  have hhigh := (setupPML4_high hrun).2.2.2
  obtain ⟨g, st₁, hnew, hrun⟩ := andThen_eq_ok hrun
  cases (Option.ite_none_left_eq_some.1 hrun).2
  obtain ⟨manager, rfl, hbit, hlt, hbegin, hend, hbits⟩ := newPageMap_ok hnew
  have hne : st.cr3 ≠ pml4 := by
    rintro heq
    rw [← heq, hcr3] at hbit
    cases hbit
  have hsrc : ({ st with memoryManager := manager }.clearFrame pml4).mem st.cr3 = st.mem st.cr3 :=
    Function.update_of_ne hne ..
  refine { free := hbit, lt := hlt, bit := hbits, low := fun i hi => ?_, high := hhigh,
           mem := fun a ha => ?_,
           cr3 := rfl, stores := rfl, rangeBegin := hbegin, rangeEnd := hend }
  · rw [entry, entry]
    refine congrArg _ (loadLE_congr fun o hlo hhi => ?_)
    dsimp only
    rw [Function.update_self, Lib.store_of_mem ⟨Nat.zero_le o, by omega⟩]
    exact congrFun hsrc o
  · dsimp only
    rw [Function.update_of_ne ha]
    exact Function.update_of_ne ha ..

theorem NewPml4.inUse_iff (h : NewPml4 st st' pml4) (g : Nat) : st'.InUse g ↔
    g = pml4 ∨ st.InUse g := by
  rw [InUse, h.bit]
  split
  · rename_i heq
    exact iff_of_true rfl (.inl heq)
  · rename_i hne
    exact (or_iff_right hne).symm

theorem NewPml4.ne_pml4 (h : NewPml4 st st' pml4) {a : Nat} (ha : st.InUse a) : a ≠ pml4 := by
  rintro rfl
  rw [InUse, h.free] at ha
  cases ha

theorem NewPml4.walk_kernel (h : NewPml4 st st' pml4) (hk : KernelTables st)
    (ht : Path (· < 256) 3 t) :
    walk st'.nextTable pml4 t = walk st.nextTable st.cr3 t := by
  induction t using List.reverseRecOn with
  | nil => exact absurd rfl ht.ne_nil
  | append_singleton s i ih =>
    rcases ht.inner with rfl | hs
    · rw [walk_snoc, walk_snoc, walk_nil, walk_nil, Option.bind_some, Option.bind_some]
      have hi : i < 256 := ht.head i rfl
      have he := h.low i hi
      rw [nextTable, nextTable, he]
    · rw [walk_snoc, walk_snoc, ih hs]
      cases hw : walk st.nextTable st.cr3 s with
      | none => rw [Option.bind_none, Option.bind_none]
      | some a =>
        have hne := h.ne_pml4 (hk.table s a (.inr hs) hw)
        have he := entry_congr (j := i) (h.mem a hne)
        rw [Option.bind_some, Option.bind_some, nextTable, nextTable, he]

theorem NewPml4.confined (h : NewPml4 st st' pml4) (hk : KernelTables st) :
    KernelHalf st'.InUse st' ∧ Confined st'.InUse st' st' := by
  have hspace : Space (256 ≤ ·) 4 st'.cr3 st'.InUse st' := by
    refine space_of_empty ?_ (h.cr3 ▸ h.lt) fun i hi hi' => ?_
    · exact (h.inUse_iff _).2 (.inl h.cr3)
    · rw [h.cr3, h.high i hi hi']
  refine ⟨⟨fun t a ht hw => ?_, fun i hi => ?_⟩, ⟨hspace, rfl, fun _ _ _ => rfl, fun _ _ => rfl⟩⟩
  · rw [h.cr3, h.walk_kernel hk ht] at hw
    have hbit : st.InUse a := hk.table t a (.inr ht) hw
    exact ⟨(h.inUse_iff a).2 (.inr hbit), h.cr3 ▸ h.ne_pml4 hbit⟩
  · rw [h.cr3, h.low i hi, hk.user i hi]

end Mmu

end Moxia
