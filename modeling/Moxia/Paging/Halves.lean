import Moxia.Paging.Translate

/-!
# The two halves of an address space

The slots of a PML4 from 256 on belong to the application, those before it to the kernel, which
shares its tables between all address spaces. `KernelHalf` says that the tables of the kernel are in
frames `B` in use and closed to applications. `Confined` is the invariant of everything that happens
in the upper half only: the tables of the kernel stay as they were, and the upper half is a `Space`.
-/

namespace Moxia

open Lib

/-- The first address of the upper half. -/
def appBase : Nat := 0xffff800000000000

namespace Mmu

/-- The tables of the lower half. -/
structure KernelHalf (B : Nat → Prop) (st : Mmu) : Prop where
  table : ∀ t a, Path (· < 256) 3 t → walk st.nextTable st.cr3 t = some a → B a ∧ a ≠ st.cr3
  user : ∀ i, i < 256 → (st.entry st.cr3 i).user = false

/-- From `st₀` to `st` only the upper half has changed. -/
structure Confined (B : Nat → Prop) (st₀ st : Mmu) : Prop where
  space : Space (256 ≤ ·) 4 st.cr3 B st
  cr3 : st.cr3 = st₀.cr3
  mem : ∀ g, B g → g ≠ st₀.cr3 → st.mem g = st₀.mem g
  slot : ∀ i, i < 256 → st.entry st₀.cr3 i = st₀.entry st₀.cr3 i

variable {B : Nat → Prop} {C : List Nat → Prop} {st₀ st st' : Mmu} {user : Bool}
  {vaddr a f g i o : Nat}
  {p q t : List Nat} {u : UInt8}

theorem walk_next_of_nextTable {r : Nat} (hw : walk st.nextTable r t = some a) :
    walk st.next r t = some a := by
  induction t generalizing r with
  | nil => rwa [walk_nil] at hw ⊢
  | cons i t ih =>
    rw [walk_cons] at hw ⊢
    obtain ⟨c, hc, hw⟩ := Option.bind_eq_some_iff.1 hw
    rw [nextTable] at hc
    split at hc
    · rename_i hpres
      cases hc
      rw [next_of_present hpres.1, Option.bind_some]
      exact ih hw
    · cases hc

namespace Confined

/-- The tables of the kernel are where they were. -/
theorem walk_kernel (hk : KernelHalf B st₀) (h : Confined B st₀ st)
    (ht : Inner (Path (· < 256) 3) t) :
    walk st.nextTable st.cr3 t = walk st₀.nextTable st₀.cr3 t := by
  rw [h.cr3]
  refine walk_congr (pathSet (· < 256) 3) (fun s i a hs hw => nextTable_congr ?_) ht
  rcases hs.inner with rfl | hs'
  · cases hw
    exact h.slot i (hs.head i rfl)
  · obtain ⟨hB, hne⟩ := hk.table s a hs' hw
    exact entry_congr (h.mem a hB hne)

theorem entry_kernel (hk : KernelHalf B st₀) (h : Confined B st₀ st)
    (ht : Path (· < 256) 4 (t ++ [i]))
    (hw : walk st.nextTable st.cr3 t = some a) : walk st₀.nextTable st₀.cr3 t = some a ∧
    st.entry a i = st₀.entry a i := by
  have hinner : Inner (Path (· < 256) 3) t := by
    refine ht.inner.imp_right fun ht' => { ht' with length_le := Nat.le_of_lt_succ ht.length_lt }
  rw [h.walk_kernel hk hinner] at hw
  refine ⟨hw, ?_⟩
  rcases hinner with rfl | ht'
  · cases hw
    exact h.slot i (ht.head i rfl)
  · obtain ⟨hB, hne⟩ := hk.table t a ht' hw
    exact entry_congr (h.mem a hB hne)

theorem not_table (hk : KernelHalf B st₀) (h : Confined B st₀ st) (hp : Path (256 ≤ ·) 4 p)
    (hlen : p.length = 4)
    (hg : walk st.next st.cr3 p = some g) (htlen : t.length < 4) (ht : ∀ i ∈ t, i < 512) :
    walk st.nextTable st.cr3 t ≠ some g := by
  intro hw
  have hB := h.space.apart p g hp hg
  cases t with
  | nil =>
    cases hw
    exact hB h.space.root
  | cons i t =>
    by_cases hi : i < 256
    · have hlow : Path (· < 256) 3 (i :: t) :=
        ⟨by simp, Nat.le_of_lt_succ htlen, ht, fun j hj => by cases hj; exact hi⟩
      rw [h.walk_kernel hk (.inr hlow)] at hw
      exact hB (hk.table _ g hlow hw).1
    · have hhigh : Path (256 ≤ ·) 4 (i :: t) :=
        ⟨by simp, Nat.le_of_lt htlen, ht, fun j hj => by cases hj; exact Nat.le_of_not_lt hi⟩
      rw [h.space.trie.inj hhigh hp (walk_next_of_nextTable hw) hg, hlen] at htlen
      exact absurd htlen (by decide)

theorem cr3_ne_page (hk : KernelHalf B st₀) (h : Confined B st₀ st) (hp : Path (256 ≤ ·) 4 p)
    (hlen : p.length = 4)
    (hg : walk st.next st.cr3 p = some g) : st.cr3 ≠ g := by
  rintro rfl
  exact h.not_table hk hp hlen hg (t := []) (by decide) (List.forall_mem_nil _) rfl

end Confined

/-! ## Addresses -/

theorem slot_of_high (hv : appBase ≤ vaddr) (hlt : vaddr < 2 ^ 64) : 256 ≤ slot (vaddr / 4096) := by
  rw [appBase] at hv
  rw [slot]
  omega

theorem slot_of_low (hv : vaddr < 2 ^ 47) : slot (vaddr / 4096) < 256 := by
  rw [slot]
  omega

namespace Confined

/-- What the kernel reaches in the upper half, and an application at all, is a page of the
application. -/
theorem page (h : Confined B st₀ st) (hk : KernelHalf B st₀) (hlt : vaddr < 2 ^ 64)
    (hhigh : appBase ≤ vaddr ∨ user = true) (hrun : st.translate user vaddr = some (g, o)) :
    ∃ p, Path (256 ≤ ·) 4 p ∧ p.length = 4 ∧ walk st.next st.cr3 p = some g := by
  rw [translate] at hrun
  split at hrun
  · rename_i hcanon
    by_cases hv : appBase ≤ vaddr
    · have hp : Path (256 ≤ ·) 4 (pagePath 4 (vaddr / 4096)) := path_pagePath (slot_of_high hv hlt)
      have hp' : Path (256 ≤ ·) 4 ([] ++ pagePath 4 (vaddr / 4096)) := by rwa [List.nil_append]
      have hw := (walk_of_translateFrom h.space walk_nil (fun _ => hp') hrun).1
      rw [List.nil_append] at hw
      exact ⟨_, hp, length_pagePath 4 _, hw⟩
    · -- the slot is one of the kernel
      have huser := hhigh.resolve_left hv
      have hlow : vaddr < 2 ^ 47 := by
        rw [appBase] at hv
        rw [Canonical] at hcanon
        omega
      have hslot : vaddr / 4096 / 512 ^ 3 % 512 < 256 := slot_of_low hlow
      rw [translateFrom, if_neg] at hrun
      · cases hrun
      · rintro ⟨-, -, huser'⟩
        have := huser' huser
        rw [h.cr3, h.slot _ hslot, hk.user _ hslot] at this
        cases this
  · cases hrun

theorem poke (h : Confined B st₀ st) (hk : KernelHalf B st₀) (hp : Path (256 ≤ ·) 4 p)
    (hlen : p.length = 4)
    (hg : walk st.next st.cr3 p = some g) : Confined B st₀ (st.poke g o u) ∧
      ∀ user vaddr, (st.poke g o u).translate user vaddr = st.translate user vaddr := by
  have hB := h.space.apart p g hp hg
  refine ⟨{ space := ?_, cr3 := h.cr3, mem := fun x hx hne => ?_, slot := fun i hi => ?_ },
    fun user vaddr =>
    translate_poke fun t htlen ht => h.not_table hk hp hlen hg htlen ht⟩
  · have hbit : ∀ x, (st.poke g o u).memoryManager.bit x = st.memoryManager.bit x := fun _ => rfl
    refine (h.space.congr hbit fun t i a ht hw => ?_).1
    have hne : a ≠ g := by
      rintro rfl
      have := ht.length_lt
      rw [h.space.trie.inner_inj ht.inner (.inr hp) hw hg] at this
      omega
    have he : (st.poke g o u).entry a i = st.entry a i := entry_congr (poke_mem_of_ne hne)
    exact ⟨next_congr he, by rw [he]⟩
  · rw [poke_mem_of_ne, h.mem x hx hne]
    rintro rfl
    exact hB hx
  · rw [entry_congr (poke_mem_of_ne _), h.slot i hi]
    rintro heq
    exact hB (heq ▸ h.cr3 ▸ h.space.root)

theorem grow (h : Confined B st₀ st) (hs : Space (256 ≤ ·) 4 st.cr3 B st')
    (hg : Grown (256 ≤ ·) 4 st.cr3 C st st')
    (hC : ∀ q, C q → Path (256 ≤ ·) 4 q) : Confined B st₀ st' where
  space := by rwa [hg.cr3]
  cr3 := hg.cr3.trans h.cr3
  mem g hB hne := by
    rw [hg.mem g ((h.space.bit g).2 (.inl hB)) fun t ht _ hw => ?_, h.mem g hB hne]
    rcases ht with rfl | ht
    · cases hw
      exact hne h.cr3
    · exact h.space.apart t g ht hw hB
  slot i hi := by
    rw [← h.cr3, hg.entry [] i st.cr3 (.inl rfl) (by decide) rfl (by omega) fun hc => ?_,
      h.cr3, h.slot i hi]
    have := (hC _ hc).head i rfl
    omega

end Confined

/-! ## Mapping pages -/

theorem slot_page_of_high {n y : Nat} (hv : appBase ≤ vaddr) (hlt : vaddr < 2 ^ 64)
    (hlo : (LinearAddress4Level.mk vaddr).pageNumber % 512 ^ 4 ≤ y)
    (_ : y < (LinearAddress4Level.mk vaddr).pageNumber % 512 ^ 4 + n)
    (hy : y < 512 ^ 4) : 256 ≤ slot y := by
  rw [LinearAddress4Level.pageNumber, Nat.mod_mod] at hlo
  rw [appBase] at hv
  dsimp only at hlo
  rw [slot]
  omega

theorem covers_high {n : Nat} (hv : appBase ≤ vaddr) (hlt : vaddr < 2 ^ 64)
    (hq : Covers [] 4 ((LinearAddress4Level.mk vaddr).pageNumber % 512 ^ 4) n q) : Path
    (256 ≤ ·) 4 q :=
  path_of_covers (fun _ => slot_page_of_high hv hlt) hq

/-- `SetupPageMaps` in the upper half, whether it gets to the end or not. -/
theorem Confined.setupPageMaps (h : Confined B st₀ st) (hv : appBase ≤ vaddr)
    (hlt : vaddr < 2 ^ 64) {n : Nat}
    {res : Except Error Unit} (hrun : st.setupPageMaps ⟨vaddr⟩ n = some (res, st')) :
    Confined B st₀ st' := by
  obtain ⟨res', hmap, -⟩ := setupPageMaps_eq hrun
  have ho :=
    setupPageMap_spec (Nat.le_refl 4) _ n h.space walk_nil (fun q hq => covers_high hv hlt hq)
      (by simp)
  rw [hmap] at ho
  cases res' with
  | error err => exact h.grow ho.2.space ho.2.grown fun q hq => covers_high hv hlt hq
  | ok m => exact h.grow ho.2.1 ho.2.2.1 fun q hq => covers_high hv hlt hq

end Mmu

end Moxia
