import Moxia.Paging.Halves
import Mathlib.Data.List.Range

/-!
# Stores of the kernel

What the kernel writes on behalf of an application stays in the upper half exactly if no address
below it is reached (`StoresHigh`), and then it changes pages of the application only
(`Confined.storeBytes`).
-/

namespace Moxia

open Lib

namespace Mmu

/-- All stores after `st` are in the upper half. -/
def HighStores (st st' : Mmu) : Prop := ∃ new, st'.stores = st.stores ++ new ∧
    ∀ v ∈ new, appBase ≤ v

/-- None of the addresses from `dst` on that are reached before a fault is below the upper half. -/
def StoresHigh (st : Mmu) (dst : Nat) (bytes : List UInt8) : Prop :=
  ∀ k, k < bytes.length → (∀ j, j ≤ k → (st.translate false ((dst + j) % 2 ^ 64)).isSome) →
    appBase ≤ (dst + k) % 2 ^ 64

variable {B : Nat → Prop} {st₀ st st' st'' : Mmu} {dst g o : Nat} {b : UInt8} {bytes : List UInt8}

theorem HighStores.refl (st : Mmu) : HighStores st st := ⟨[], (List.append_nil _).symm, by simp⟩

theorem HighStores.of_eq (h : st'.stores = st.stores) : HighStores st st' :=
  ⟨[], by rw [h, List.append_nil], by simp⟩

theorem HighStores.trans (h : HighStores st st') (h' : HighStores st' st'') :
    HighStores st st'' := by
  obtain ⟨new, heq, hhigh⟩ := h
  obtain ⟨new', heq', hhigh'⟩ := h'
  refine ⟨new ++ new', by rw [heq', heq, List.append_assoc], fun v hv => ?_⟩
  rcases List.mem_append.1 hv with hv | hv
  · exact hhigh v hv
  · exact hhigh' v hv

/-- Stores are never taken back. -/
theorem HighStores.split (h : HighStores st st'') (hpre : st.stores <+: st'.stores)
    (hpre' : st'.stores <+: st''.stores) :
    HighStores st st' ∧ HighStores st' st'' := by
  obtain ⟨new, heq, hhigh⟩ := h
  obtain ⟨l, hl⟩ := hpre
  obtain ⟨l', hl'⟩ := hpre'
  rw [← hl', ← hl, List.append_assoc, List.append_cancel_left_eq] at heq
  subst heq
  exact ⟨⟨l, hl.symm, fun v hv => hhigh v (List.mem_append_left _ hv)⟩,
    ⟨l', hl'.symm, fun v hv => hhigh v (List.mem_append_right _ hv)⟩⟩

theorem not_highStores {v : Nat} (hpre : st.stores ++ [v] <+: st'.stores) (hv : v < appBase) :
    ¬ HighStores st st' := by
  rintro ⟨new, heq, hhigh⟩
  rw [heq, List.prefix_append_right_inj] at hpre
  exact absurd (hhigh v (hpre.subset (List.mem_singleton_self v))) (Nat.not_le_of_lt hv)

/-! ## Byte by byte -/

theorem storeByte_stores (st : Mmu) (dst g o : Nat) (b : UInt8) :
    (st.storeByte dst g o b).stores = st.stores ++ [dst] := rfl

theorem prefix_storeByte (st : Mmu) (dst g o : Nat) (b : UInt8) :
    st.stores <+: (st.storeByte dst g o b).stores :=
  List.prefix_append _ _

theorem prefix_storeBytes (st : Mmu) (dst : Nat) (bytes : List UInt8) :
    st.stores <+: (st.storeBytes dst bytes).1.stores := by
  induction bytes generalizing st dst with
  | nil => exact List.prefix_rfl
  | cons b bytes ih =>
    rw [storeBytes]
    split
    · exact List.prefix_rfl
    · exact (prefix_storeByte _ _ _ _ _).trans (ih _ _)

theorem storesHigh_cons (hdst : dst < 2 ^ 64) : StoresHigh st dst (b :: bytes) ↔
    ((st.translate false dst).isSome →
      appBase ≤ dst ∧ StoresHigh st ((dst + 1) % 2 ^ 64) bytes) := by
  have hmod : ∀ k, ((dst + 1) % 2 ^ 64 + k) % 2 ^ 64 = (dst + (k + 1)) % 2 ^ 64 := fun k => by omega
  have hzero : (dst + 0) % 2 ^ 64 = dst := Nat.mod_eq_of_lt hdst
  constructor
  · refine fun h hsome => ⟨?_, fun k hk hall => ?_⟩
    · have := h 0 (Nat.succ_pos _) fun j hj => by rwa [Nat.le_zero.1 hj, hzero]
      rwa [hzero] at this
    · rw [hmod]
      refine h (k + 1) (Nat.succ_lt_succ hk) fun j hj => ?_
      cases j with
      | zero => rwa [hzero]
      | succ j => rw [← hmod]; exact hall j (Nat.le_of_succ_le_succ hj)
  · intro h k hk hall
    have hsome := hall 0 (Nat.zero_le k)
    rw [hzero] at hsome
    obtain ⟨hhigh, h⟩ := h hsome
    cases k with
    | zero => rwa [hzero]
    | succ k =>
      rw [← hmod]
      refine h k (Nat.lt_of_succ_lt_succ hk) fun j hj => ?_
      rw [hmod]
      exact hall (j + 1) (Nat.succ_le_succ hj)

theorem Confined.of_eq (h : Confined B st₀ st) (hmem : st'.mem = st.mem)
    (hmm : st'.memoryManager = st.memoryManager)
    (hcr3 : st'.cr3 = st.cr3) : Confined B st₀ st' := by
  have hentry : ∀ a i, st'.entry a i = st.entry a i := fun a i => entry_congr (congrFun hmem a)
  refine { space := ?_, cr3 := hcr3.trans h.cr3, mem := fun g => by rw [hmem]; exact h.mem g,
           slot := fun i hi => by rw [hentry]; exact h.slot i hi }
  rw [hcr3]
  exact (h.space.congr (fun g => by rw [hmm]) fun t i a _ _ =>
    ⟨next_congr (hentry a i), by rw [hentry]⟩).1

theorem Confined.storeByte (h : Confined B st₀ st) (hk : KernelHalf B st₀) (hdst : dst < 2 ^ 64)
    (hv : appBase ≤ dst)
    (htr : st.translate false dst = some (g, o)) : Confined B st₀ (st.storeByte dst g o b) ∧
      (st.storeByte dst g o b).mem st.cr3 = st.mem st.cr3 ∧
      ∀ v, (st.storeByte dst g o b).translate false v = st.translate false v := by
  obtain ⟨p, hp, hlen, hg⟩ := h.page hk hdst (.inl hv) htr
  obtain ⟨hpoke, hsame⟩ := h.poke hk hp hlen hg (o := o) (u := b)
  exact ⟨hpoke.of_eq rfl rfl rfl, poke_mem_of_ne (h.cr3_ne_page hk hp hlen hg), fun v =>
    (translate_congr rfl fun _ _ _ _ _ _ => rfl).trans (hsame false v)⟩

theorem Confined.storeBytes (h : Confined B st₀ st) (hk : KernelHalf B st₀) (hdst : dst < 2 ^ 64) :
    (StoresHigh st dst bytes → Confined B st₀ (st.storeBytes dst bytes).1 ∧
        HighStores st (st.storeBytes dst bytes).1 ∧
        (st.storeBytes dst bytes).1.mem st.cr3 = st.mem st.cr3) ∧
      (HighStores st (st.storeBytes dst bytes).1 → StoresHigh st dst bytes) := by
  induction bytes generalizing st dst with
  | nil =>
      exact ⟨fun _ => ⟨h, HighStores.refl st, rfl⟩, fun _ k hk => absurd hk (Nat.not_lt_zero k)⟩
  | cons b bytes ih =>
    rw [storesHigh_cons hdst, Mmu.storeBytes]
    cases htr : st.translate false dst with
    | none => exact ⟨fun _ => ⟨h, HighStores.refl st, rfl⟩, fun _ hsome => by cases hsome⟩
    | some res =>
      obtain ⟨g, o⟩ := res
      dsimp only
      by_cases hv : appBase ≤ dst
      · obtain ⟨hst, hroot, htranslate⟩ := h.storeByte hk hdst hv htr (b := b)
        have hhigh : HighStores st (st.storeByte dst g o b) :=
          ⟨[dst], rfl, fun v hv' => List.mem_singleton.1 hv' ▸ hv⟩
        have hsh : StoresHigh (st.storeByte dst g o b) ((dst + 1) % 2 ^ 64) bytes ↔
            StoresHigh st ((dst + 1) % 2 ^ 64) bytes := by
          simp only [StoresHigh, htranslate]
        obtain ⟨hfwd, hbwd⟩ := ih hst (Nat.mod_lt _ (by decide))
        rw [hsh] at hfwd hbwd
        refine ⟨fun hcond => ?_, fun hst' _ => ⟨hv, ?_⟩⟩
        · obtain ⟨hc, hs, hmem⟩ := hfwd (hcond rfl).2
          exact ⟨hc, hhigh.trans hs, hmem.trans hroot⟩
        · exact hbwd (hst'.split (prefix_storeByte _ _ _ _ _) (prefix_storeBytes _ _ _)).2
      · refine ⟨fun hcond => absurd (hcond rfl).1 hv, fun hst' => ?_⟩
        have hpre := prefix_storeBytes (st.storeByte dst g o b) ((dst + 1) % 2 ^ 64) bytes
        rw [storeByte_stores] at hpre
        exact absurd hst' (not_highStores hpre (Nat.lt_of_not_le hv))

theorem storeBytes_all (hdst : dst < 2 ^ 64) (hrun : st.storeBytes dst bytes = (st', true)) :
    st'.stores = st.stores ++ (List.range bytes.length).map (fun k => (dst + k) % 2 ^ 64) ∧
      ∀ k, k < bytes.length → Canonical ((dst + k) % 2 ^ 64) := by
  induction bytes generalizing st dst with
  | nil =>
    cases hrun
    exact ⟨(List.append_nil _).symm, fun k hk => absurd hk (Nat.not_lt_zero k)⟩
  | cons b bytes ih =>
    have hmod : ∀ k, ((dst + 1) % 2 ^ 64 + k) % 2 ^ 64 = (dst + (k + 1)) % 2 ^ 64 :=
      fun k => by omega
    have hzero : (dst + 0) % 2 ^ 64 = dst := Nat.mod_eq_of_lt hdst
    rw [storeBytes] at hrun
    cases htr : st.translate false dst with
    | none => rw [htr] at hrun; cases hrun
    | some res =>
      rw [htr] at hrun
      obtain ⟨heq, hcanon⟩ := ih (Nat.mod_lt _ (by decide)) hrun
      rw [storeByte_stores] at heq
      simp only [hmod] at heq hcanon
      refine ⟨?_, fun k hk => ?_⟩
      · rw [heq, List.length_cons, List.range_succ_eq_map, List.map_cons, List.map_map,
          List.append_assoc, hzero]
        rfl
      · cases k with
        | zero =>
          rw [hzero]
          by_contra hne
          rw [translate, if_neg hne] at htr
          cases htr
        | succ k => exact hcanon k (Nat.lt_of_succ_lt_succ hk)

end Mmu

end Moxia
