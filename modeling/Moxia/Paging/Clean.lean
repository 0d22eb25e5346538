import Moxia.Paging.Space
import Mathlib.Data.List.Nodup

/-!
# Taking page tables apart (`CleanPageMap`)

`CleanPageMap` of the table at `b` gives back the frame of each path through an entry of it, each
once, and leaves the rest of memory as it is (`cleanPageMap_spec`).
-/

namespace Moxia

open Lib

namespace Mmu

variable {S : Nat → Prop} {d r : Nat} {B : Nat → Prop} {C C' : List Nat → Prop} {st st' st'' : Mmu}
  {a c f g i k l : Nat} {b p q t : List Nat}

/-- The paths `C` are taken away from `st`. -/
structure Shrunk (S : Nat → Prop) (d r : Nat) (C : List Nat → Prop) (st st' : Mmu) : Prop where
  keep : ∀ p, Path S d p → ¬ C p → walk st'.next r p = walk st.next r p
  gone : ∀ p, Path S d p → C p → walk st'.next r p = none
  mem : ∀ a, (∀ t i, Path S d (t ++ [i]) → C (t ++ [i]) → walk st.next r t ≠ some a) →
    st'.mem a = st.mem a
  rangeBegin : st'.memoryManager.rangeBegin = st.memoryManager.rangeBegin
  rangeEnd : st'.memoryManager.rangeEnd = st.memoryManager.rangeEnd
  cr3 : st'.cr3 = st.cr3
  stores : st'.stores = st.stores
  /-- Each frame is given back once. -/
  freed : ∃ l, st'.freed = st.freed ++ l ∧ l.Nodup ∧ ∀ g, g ∈ l ↔
    ∃ p, Path S d p ∧ C p ∧ walk st.next r p = some g

namespace Shrunk

theorem refl (hC : ∀ p, Path S d p → C p → walk st.next r p = none) : Shrunk S d r C st st where
  keep _ _ _ := rfl
  gone := hC
  mem _ _ := rfl
  rangeBegin := rfl
  rangeEnd := rfl
  cr3 := rfl
  stores := rfl
  freed := by
    refine ⟨[], (List.append_nil _).symm, List.nodup_nil,
      fun g => ⟨fun hg => absurd hg List.not_mem_nil, ?_⟩⟩
    rintro ⟨p, hp, hc, hw⟩
    rw [hC p hp hc] at hw
    cases hw

theorem keep_inner (h : Shrunk S d r C st st') (hp : Inner (Path S d) p) (hc : ¬ C p) :
    walk st'.next r p = walk st.next r p := by
  rcases hp with rfl | hp
  · rw [walk_nil, walk_nil]
  · exact h.keep p hp hc

theorem old (h : Shrunk S d r C st st') (hp : Inner (Path S d) p)
    (hw : walk st'.next r p = some g) :
    walk st.next r p = some g := by
  rcases hp with rfl | hp
  · rwa [walk_nil] at hw ⊢
  by_cases hc : C p
  · rw [h.gone p hp hc] at hw
    cases hw
  · rwa [← h.keep p hp hc]

theorem trans (ht : IsTrie st.next r (Path S d)) (h : Shrunk S d r C st st')
    (h' : Shrunk S d r C' st' st'') {D : List Nat → Prop}
    (hD : ∀ p, Path S d p → (D p ↔ C p ∨ C' p)) : Shrunk S d r D st st'' where
  keep p hp hd := by
    rw [hD p hp, not_or] at hd
    rw [h'.keep p hp hd.2, h.keep p hp hd.1]
  gone p hp hd := by
    by_cases hc' : C' p
    · exact h'.gone p hp hc'
    · rw [h'.keep p hp hc', h.gone p hp (((hD p hp).1 hd).resolve_right hc')]
  mem a hno := by
    rw [h'.mem a fun t i hp hc hw => hno t i hp ((hD _ hp).2 (.inr hc)) (h.old hp.inner hw),
      h.mem a fun t i hp hc => hno t i hp ((hD _ hp).2 (.inl hc))]
  rangeBegin := h'.rangeBegin.trans h.rangeBegin
  rangeEnd := h'.rangeEnd.trans h.rangeEnd
  cr3 := h'.cr3.trans h.cr3
  stores := h'.stores.trans h.stores
  freed := by
    obtain ⟨l, hl, hnd, hmem⟩ := h.freed
    obtain ⟨l', hl', hnd', hmem'⟩ := h'.freed
    refine ⟨l ++ l', by rw [hl', hl, List.append_assoc], List.nodup_append'.2 ⟨hnd, hnd',
      ?_⟩, fun g => ?_⟩
    · intro g hg hg'
      obtain ⟨p, hp, hc, hw⟩ := (hmem g).1 hg
      obtain ⟨q, hq, -, hw'⟩ := (hmem' g).1 hg'
      obtain rfl := ht.inj hp hq hw (h.old (.inr hq) hw')
      rw [h.gone p hp hc] at hw'
      cases hw'
    · rw [List.mem_append, hmem, hmem']
      constructor
      · rintro (⟨p, hp, hc, hw⟩ | ⟨p, hp, hc, hw⟩)
        · exact ⟨p, hp, (hD p hp).2 (.inl hc), hw⟩
        · exact ⟨p, hp, (hD p hp).2 (.inr hc), h.old (.inr hp) hw⟩
      · rintro ⟨p, hp, hd, hw⟩
        by_cases hc : C p
        · exact .inl ⟨p, hp, hc, hw⟩
        · exact .inr ⟨p, hp, ((hD p hp).1 hd).resolve_left hc, by rw [h.keep p hp hc, hw]⟩

end Shrunk

/-! ## One entry -/

theorem freeFrame_eq (st : Mmu) (hlt : f < kFrameCount) : ∃ manager,
    st.freeFrame f = some { st with memoryManager := manager, freed := st.freed ++ [f] } ∧
    manager.rangeBegin = st.memoryManager.rangeBegin ∧ manager.rangeEnd =
      st.memoryManager.rangeEnd ∧
    ∀ x, manager.bit x = if x = f then false else st.memoryManager.bit x := by
  obtain ⟨manager, hrun, hbegin, hend, hbit⟩ := st.memoryManager.free_spec f (n := 1) hlt
  refine ⟨manager, by rw [freeFrame, hrun, Option.map_some], hbegin, hend, fun x => ?_⟩
  have hiff : (f ≤ x ∧ x < f + 1) ↔ x = f := by omega
  rw [hbit, if_congr hiff rfl rfl]

/-- The frame of an entry with nothing under it is given back. -/
theorem Space.drop (h : Space S d r B st) (hpath : Path S d (t ++ [i]))
    (hf : walk st.next r t = some f)
    (hg : st.next f i = some g) (hleaf : ∀ q, Path S d q → t ++ [i] <+: q → q ≠ t ++ [i] →
    walk st.next r q = none) :
    ∃ st', st.freeFrame g = some st' ∧ Space S d r B (st'.zeroEntry f i) ∧
      Shrunk S d r (· = t ++ [i]) st (st'.zeroEntry f i) := by
  have hgone : walk st.next r (t ++ [i]) = some g := by rw [walk_snoc_of hf, hg]
  obtain ⟨manager, hrun, hbegin, hend, hbit⟩ := st.freeFrame_eq (h.lt _ g hpath hgone)
  have hself : ({ st with memoryManager := manager, freed := st.freed ++ [g] }.zeroEntry f i).entry
    f i = .empty := by
    rw [zeroEntry, entry_setEntry_self]
  have hother : ∀ a j, ¬ (a = f ∧ j = i) →
    ({ st with memoryManager := manager, freed := st.freed ++ [g] }.zeroEntry f i).entry a j =
    st.entry a j := by
    intro a j hne
    rw [zeroEntry, entry_setEntry_of_ne hne]
    rfl
  obtain ⟨hspace, hwalk⟩ := h.unlink hpath hf hg hleaf hbit hself hother
  refine ⟨_, hrun, hspace, ?_⟩
  refine { keep := fun p hp hne => ?_, gone := fun p hp heq => ?_, mem := fun a hno => ?_,
           rangeBegin := hbegin,
           rangeEnd := hend, cr3 := rfl, stores := rfl,
           freed := ⟨[g], rfl, List.nodup_singleton g, fun x => ?_⟩ }
  · rw [hwalk p (.inr hp), if_neg hne]
  · rw [hwalk p (.inr hp), if_pos heq]
  · refine setEntry_mem_of_ne ?_
    rintro rfl
    exact hno t i hpath rfl hf
  · rw [List.mem_singleton]
    constructor
    · rintro rfl
      exact ⟨_, hpath, rfl, hgone⟩
    · rintro ⟨p, -, rfl, hw⟩
      exact Option.some.inj (hw.symm.trans hgone)

/-- The paths through the first `k` entries of the table at `b`. -/
def Behind (b : List Nat) (k : Nat) (p : List Nat) : Prop := ∃ i s, i < k ∧ p = b ++ i :: s

theorem behind_succ : Behind b (k + 1) p ↔ Behind b k p ∨ b ++ [k] <+: p := by
  constructor
  · rintro ⟨i, s, hi, rfl⟩
    rcases Nat.lt_succ_iff_lt_or_eq.1 hi with hi | rfl
    · exact .inl ⟨i, s, hi, rfl⟩
    · exact .inr ⟨s, by simp⟩
  · rintro (⟨i, s, hi, rfl⟩ | ⟨s, rfl⟩)
    · exact ⟨i, s, Nat.lt_succ_of_lt hi, rfl⟩
    · exact ⟨k, s, Nat.lt_succ_self k, by simp⟩

theorem Path.snoc (h : Path S d b) (hlen : b.length < d) (hi : i < 512) : Path S d (b ++ [i]) where
  ne_nil := by simp
  length_le := by rw [List.length_append]; exact hlen
  lt j hj := by
    rcases List.mem_append.1 hj with hj | hj
    · exact h.lt j hj
    · rwa [List.mem_singleton.1 hj]
  head j hj := by
    cases b with
    | nil => exact absurd rfl h.ne_nil
    | cons => exact h.head j hj

/-! ## All entries -/

section

variable {sub : Nat → Mmu → Option Mmu}

/-- What the call for the table at `b` does. -/
def Cleans (S : Nat → Prop) (d r : Nat) (B : Nat → Prop) (b : List Nat)
    (sub : Nat → Mmu → Option Mmu) : Prop :=
  ∀ c st, Space S d r B st → walk st.next r b = some c →
    ∃ st', sub c st = some st' ∧ Space S d r B st' ∧ Shrunk S d r (Behind b 512) st st'

theorem cleanEntry_spec (hpath : Path S d (b ++ [k])) (hsub : Cleans S d r B (b ++ [k]) sub)
    (h : Space S d r B st)
    (hf : walk st.next r b = some f) :
    ∃ st', cleanEntry sub f st k = some st' ∧ Space S d r B st' ∧
      Shrunk S d r (b ++ [k] <+: ·) st st' := by
  have hreached : ¬ identityFrames ≤ f := Nat.not_le.2 (h.reached b k f hpath hf)
  by_cases hp : (st.entry f k).present
  · have hnext := next_of_present hp
    have hc : walk st.next r (b ++ [k]) = some (st.entry f k).pointer := by
      rw [walk_snoc_of hf, hnext]
    obtain ⟨st₁, hrun₁, hs₁, hsh₁⟩ := hsub _ st h hc
    -- the tables below are not the one with the entry
    have hmem : st₁.mem f = st.mem f := hsh₁.mem f fun t i ht ⟨j, s, _, heq⟩ hw => by
      obtain rfl := h.trie.inner_inj ht.inner hpath.inner hw hf
      have := congrArg List.length heq
      simp only [List.length_append, List.length_cons, List.length_nil] at this
      omega
    have hnext₁ : st₁.next f k = some (st.entry f k).pointer := by
      rw [next_congr (entry_congr hmem), hnext]
    have hf₁ : walk st₁.next r b = some f := by
      rw [hsh₁.keep_inner hpath.inner, hf]
      rintro ⟨j, s, -, heq⟩
      have := congrArg List.length heq
      simp only [List.length_append, List.length_cons, List.length_nil] at this
      omega
    obtain ⟨st₂, hrun₂, hs₂, hsh₂⟩ := hs₁.drop hpath hf₁ hnext₁ fun q hq hpre hne => by
      obtain ⟨s, rfl⟩ := hpre
      cases s with
      | nil => exact absurd (List.append_nil _) hne
      | cons j s => exact hsh₁.gone _ hq ⟨j, s, hq.lt j (by simp), rfl⟩
    refine ⟨st₂.zeroEntry f k, ?_, hs₂, Shrunk.trans h.trie hsh₁ hsh₂ fun p hp => ⟨?_, ?_⟩⟩
    · rw [cleanEntry, if_neg hreached, if_pos hp, hrun₁, Option.bind_eq_bind, Option.bind_some,
        hrun₂, Option.bind_some]
    · rintro ⟨s, rfl⟩
      cases s with
      | nil => exact .inr (List.append_nil _)
      | cons j s => exact .inl ⟨j, s, hp.lt j (by simp), rfl⟩
    · rintro (⟨j, s, -, rfl⟩ | rfl)
      · exact List.prefix_append _ _
      · exact List.prefix_rfl
  · refine ⟨st, by rw [cleanEntry, if_neg hreached, if_neg hp], h, Shrunk.refl fun p _ hpre => ?_⟩
    by_contra hsome
    have hk := isSome_of_prefix hpre (Option.isSome_iff_ne_none.2 hsome)
    rw [walk_snoc_of hf, next_eq_none (by simpa using hp)] at hk
    cases hk

/-- Invariant: after `k` turns the paths through the first `k` entries are gone. -/
theorem cleanLoop_spec (hpath : ∀ i, i < 512 → Path S d (b ++ [i]))
    (hsub : ∀ i, i < 512 → Cleans S d r B (b ++ [i]) sub)
    (h : Space S d r B st) (hf : walk st.next r b = some f) (hk : k ≤ 512) :
    ∃ st', (List.range k).foldlM (cleanEntry sub f) st = some st' ∧ Space S d r B st' ∧
      Shrunk S d r (Behind b k) st st' := by
  induction k with
  | zero => exact ⟨st, rfl, h, Shrunk.refl fun p _ ⟨i, _, hi, _⟩ => absurd hi (Nat.not_lt_zero i)⟩
  | succ k ih =>
    obtain ⟨st₁, hrun₁, hs₁, hsh₁⟩ := ih (Nat.le_of_succ_le hk)
    have hf₁ : walk st₁.next r b = some f := by
      rw [hsh₁.keep_inner (hpath 0 (by decide)).inner, hf]
      rintro ⟨j, s, -, heq⟩
      have := congrArg List.length heq
      simp only [List.length_append, List.length_cons] at this
      omega
    obtain ⟨st₂, hrun₂, hs₂, hsh₂⟩ := cleanEntry_spec (hpath k hk) (hsub k hk) hs₁ hf₁
    refine ⟨st₂, ?_, hs₂, Shrunk.trans h.trie hsh₁ hsh₂ fun p _ => behind_succ⟩
    rw [List.range_succ, List.foldlM_append, hrun₁, Option.bind_eq_bind, Option.bind_some,
      List.foldlM_cons, hrun₂,
      Option.bind_eq_bind, Option.bind_some, List.foldlM_nil]
    rfl

end

theorem cleanPageMap_spec (hlen : b.length + l = d)
    (hpath : l ≠ 0 → ∀ i, i < 512 → Path S d (b ++ [i])) :
    Cleans S d r B b (cleanPageMap l) := by
  induction l generalizing b with
  | zero =>
    refine fun c st h _ => ⟨st, rfl, h, Shrunk.refl fun p hp ⟨i, s, _, heq⟩ => ?_⟩
    have := hp.length_le
    rw [heq, List.length_append, List.length_cons] at this
    omega
  | succ l ih =>
    refine fun c st h hf => cleanLoop_spec (hpath (Nat.succ_ne_zero l)) (fun i hi => ?_) h hf
      (Nat.le_refl 512)
    have hi' := hpath (Nat.succ_ne_zero l) i hi
    refine ih (by rw [List.length_append, List.length_singleton]; omega) fun hl j hj =>
      hi'.snoc ?_ hj
    rw [List.length_append, List.length_singleton]
    omega

end Mmu

end Moxia
