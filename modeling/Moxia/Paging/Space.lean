import Moxia.Lib.Trie
import Moxia.Memory.Allocate
import Moxia.Paging.Mmu

/-!
# Page tables as a trie

The present entries of page tables are the edges of a trie whose labels are entry numbers
(`Mmu.next`). A `Space` is the part of a tree of page tables that lies under the entries `S` of its
root, down to the pages at depth `d`: the kernel reaches the tables, the frames are apart from each
other and from the frames `B` that are in use elsewhere, and all other frames are free. Filling an
entry with a new frame (`Space.link`) and giving back the frame of an entry (`Space.unlink`) keep it
so.
-/

namespace Moxia

open Lib

namespace Mmu

variable {st st' : Mmu} {a f g h i j frame : Nat} {e : PageMapEntry}

/-! ## Reading entries back -/

theorem entry_setEntry_self : (st.setEntry f i e).entry f i = e := by
  rw [entry, setEntry]
  dsimp only
  rw [Function.update_self, loadLE_storeLE_self, Nat.mod_eq_of_lt (by exact e.data_lt),
    PageMapEntry.ofData_data]

theorem entry_setEntry_of_ne (hne : ¬ (a = f ∧ j = i)) :
    (st.setEntry f i e).entry a j = st.entry a j := by
  rw [entry, setEntry]
  dsimp only
  by_cases ha : a = f
  · subst ha
    rw [Function.update_self, loadLE_storeLE_of_disjoint (by omega), entry]
  · rw [Function.update_of_ne ha, entry]

theorem loadLE_zero (off : Nat) : ∀ n, loadLE (fun _ => 0) off n = 0
  | 0 => rfl
  | n + 1 => by rw [loadLE, loadLE_zero (off + 1) n]; rfl

theorem entry_clearFrame_self : (st.clearFrame h).entry h j = .empty := by
  rw [entry, clearFrame]
  dsimp only
  rw [Function.update_self, loadLE_zero]
  rfl

theorem entry_clearFrame_of_ne (hne : a ≠ h) : (st.clearFrame h).entry a j = st.entry a j := by
  rw [entry, clearFrame]
  dsimp only
  rw [Function.update_of_ne hne, entry]

theorem entry_congr (hmem : st'.mem a = st.mem a) : st'.entry a j = st.entry a j := by
  rw [entry, entry, hmem]

theorem setEntry_mem_of_ne (hne : a ≠ f) : (st.setEntry f i e).mem a = st.mem a :=
  Function.update_of_ne hne ..

theorem lt_frameCount (hlt : f < identityFrames) : f < kFrameCount :=
  Nat.lt_of_lt_of_le hlt (by decide)

/-! ## The trie -/

/-- The frame that an entry points to. -/
def next (st : Mmu) (a i : Nat) : Option Nat :=
  if (st.entry a i).present then some (st.entry a i).pointer else none

theorem next_of_present (hp : (st.entry a i).present = true) :
    st.next a i = some (st.entry a i).pointer := if_pos hp

theorem next_eq_none (hp : (st.entry a i).present = false) : st.next a i = none :=
  if_neg (by simp [hp])

theorem next_eq_some : st.next a i = some f ↔ (st.entry a i).present = true ∧
    (st.entry a i).pointer = f := by
  rw [next]
  split
  · rename_i hp
    rw [Option.some.injEq]
    exact ⟨fun h => ⟨hp, h⟩, fun h => h.2⟩
  · rename_i hp
    exact ⟨fun h => absurd h.symm (Option.some_ne_none f), fun h => absurd h.1 hp⟩

theorem next_congr (he : st'.entry a i = st.entry a i) :
    st'.next a i = st.next a i := by rw [next, next, he]

/-- The paths under the entries `S`, down to depth `d`. -/
structure Path (S : Nat → Prop) (d : Nat) (p : List Nat) : Prop where
  ne_nil : p ≠ []
  length_le : p.length ≤ d
  lt : ∀ i ∈ p, i < 512
  head : ∀ i ∈ p.head?, S i

variable {S : Nat → Prop} {d r : Nat} {B : Nat → Prop} {p q t : List Nat}

theorem pathSet (S : Nat → Prop) (d : Nat) : PathSet (Path S d) where
  ne_nil h := h.ne_nil
  closed {p i} h := by
    refine or_iff_not_imp_left.2 fun hp =>
      ⟨hp, ?_, fun j hj => h.lt j (List.mem_append_left _ hj), fun j hj => ?_⟩
    · have := h.length_le
      rw [List.length_append] at this
      omega
    · refine h.head j ?_
      cases p with
      | nil => exact absurd rfl hp
      | cons => exact hj

theorem Path.mono {S' : Nat → Prop} (hp : Path S d p) (hS : ∀ i, S i → S' i) : Path S' d p :=
  { hp with head := fun i hi => hS i (hp.head i hi) }

theorem Path.length_lt (hp : Path S d (t ++ [i])) : t.length < d := by
  have := hp.length_le
  rw [List.length_append, List.length_singleton] at this
  omega

theorem Path.last_lt (hp : Path S d (t ++ [i])) : i < 512 := hp.lt i (by simp)

theorem Path.inner (hp : Path S d (t ++ [i])) : Inner (Path S d) t := (pathSet S d).closed hp

/-- The tree of page tables with root `r`; the frames `B` are those in use outside of it. -/
structure Space (S : Nat → Prop) (d r : Nat) (B : Nat → Prop) (st : Mmu) : Prop where
  trie : IsTrie st.next r (Path S d)
  root : B r
  bit : ∀ g, st.memoryManager.bit g = true ↔ B g ∨ ∃ p, Path S d p ∧ walk st.next r p = some g
  apart : ∀ p g, Path S d p → walk st.next r p = some g → ¬ B g
  lt : ∀ p g, Path S d p → walk st.next r p = some g → g < kFrameCount
  small : ∀ t i a, Path S d (t ++ [i]) → walk st.next r t = some a → (st.entry a i).hugePage = false
  reached : ∀ t i a, Path S d (t ++ [i]) → walk st.next r t = some a → a < identityFrames

namespace Space

theorem bit_of_walk (h : Space S d r B st) (hp : Inner (Path S d) p)
    (hw : walk st.next r p = some g) :
    st.memoryManager.bit g = true := by
  rcases hp with rfl | hp
  · cases hw
    exact (h.bit _).2 (.inl h.root)
  · exact (h.bit g).2 (.inr ⟨p, hp, hw⟩)

theorem fresh (h : Space S d r B st) (hg : st.memoryManager.bit g = false) : ¬ B g ∧
    ∀ p, Inner (Path S d) p → walk st.next r p ≠ some g := by
  refine ⟨fun hB => ?_, fun p hp hw => ?_⟩
  · rw [(h.bit g).2 (.inl hB)] at hg
    cases hg
  · rw [h.bit_of_walk hp hw] at hg
    cases hg

/-- Entries outside of the tables of the trie, and flags of its entries, do not matter. -/
theorem congr (h : Space S d r B st) (hbit : ∀ g, st'.memoryManager.bit g = st.memoryManager.bit g)
    (hentry : ∀ t i a, Path S d (t ++ [i]) → walk st.next r t = some a →
      st'.next a i = st.next a i ∧ (st'.entry a i).hugePage = (st.entry a i).hugePage) :
    Space S d r B st' ∧ ∀ p, Inner (Path S d) p → walk st'.next r p = walk st.next r p := by
  have hwalk : ∀ p, Inner (Path S d) p → walk st'.next r p = walk st.next r p := fun p hp =>
    walk_congr (pathSet S d) (fun t i a ht ha => (hentry t i a ht ha).1) hp
  refine ⟨⟨h.trie.congr fun p hp a ha => ?_, h.root, fun g => ?_, fun p g hp hw => ?_,
    fun p g hp hw => ?_,
    fun t i a ht ha => ?_, fun t i a ht ha => ?_⟩, hwalk⟩
  · rwa [hwalk p (.inr hp)] at ha
  · rw [hbit, h.bit]
    refine or_congr_right (exists_congr fun p => and_congr_right fun hp => ?_)
    rw [hwalk p (.inr hp)]
  · exact h.apart p g hp (by rwa [hwalk p (.inr hp)] at hw)
  · exact h.lt p g hp (by rwa [hwalk p (.inr hp)] at hw)
  · rw [hwalk t ht.inner] at ha
    rw [(hentry t i a ht ha).2]
    exact h.small t i a ht ha
  · rw [hwalk t ht.inner] at ha
    exact h.reached t i a ht ha

/-- A free frame, all of whose entries are empty, is put into an entry that was not present. -/
theorem link (h : Space S d r B st) (hpath : Path S d (t ++ [i])) (hf : walk st.next r t = some f)
    (habs : (st.entry f i).present = false) (hg : st.memoryManager.bit g = false)
    (hlt : g < identityFrames)
    (hbit : ∀ x, st'.memoryManager.bit x = if x = g then true else st.memoryManager.bit x)
    (hlink : st'.next f i = some g) (hsmall : (st'.entry f i).hugePage = (st.entry f i).hugePage)
    (hzero : ∀ j, st'.entry g j = .empty)
    (hsame : ∀ a j, a ≠ g → ¬ (a = f ∧ j = i) → st'.entry a j = st.entry a j) :
    Space S d r B st' ∧ ∀ p, Inner (Path S d) p →
      walk st'.next r p = if p = t ++ [i] then some g else walk st.next r p := by
  obtain ⟨hgB, hfresh⟩ := h.fresh hg
  have hnone : st.next f i = none := next_eq_none habs
  have hfg : f ≠ g := fun hfg => hfresh t hpath.inner (hfg ▸ hf)
  have hleaf : ∀ j, st'.next g j = none := fun j => next_eq_none (by rw [hzero]; rfl)
  have hwalk : ∀ p, Inner (Path S d) p →
      walk st'.next r p = if p = t ++ [i] then some g else walk st.next r p := fun p hp =>
    walk_link (pathSet S d) h.trie hpath.inner hf hnone hfresh hlink (fun j _ => hleaf j)
      (fun a j ha hne => next_congr (hsame a j ha hne)) hp
  have hold : ∀ p, Path S d p → ∀ x, walk st'.next r p = some x → (p = t ++ [i] ∧ x = g) ∨
    walk st.next r p = some x := by
    intro p hp x hx
    rw [hwalk p (.inr hp)] at hx
    split at hx
    · exact .inl ⟨‹_›, (Option.some.inj hx).symm⟩
    · exact .inr hx
  refine ⟨⟨h.trie.link hfresh hold, h.root, fun x => ?_, fun p x hp hw => ?_, fun p x hp hw => ?_,
    fun s j a hs ha => ?_, fun s j a hs ha => ?_⟩, hwalk⟩
  · rw [hbit]
    by_cases hx : x = g
    · subst hx
      rw [if_pos rfl]
      exact iff_of_true rfl (.inr ⟨t ++ [i], hpath, by rw [hwalk _ (.inr hpath), if_pos rfl]⟩)
    · rw [if_neg hx, h.bit]
      refine or_congr_right ⟨?_, ?_⟩
      · rintro ⟨p, hp, hw⟩
        refine ⟨p, hp, ?_⟩
        rw [hwalk p (.inr hp), if_neg, hw]
        rintro rfl
        rw [walk_snoc_of hf, hnone] at hw
        cases hw
      · rintro ⟨p, hp, hw⟩
        rcases hold p hp x hw with ⟨-, rfl⟩ | hw
        · exact absurd rfl hx
        · exact ⟨p, hp, hw⟩
  · rcases hold p hp x hw with ⟨-, rfl⟩ | hw
    · exact hgB
    · exact h.apart p x hp hw
  · rcases hold p hp x hw with ⟨-, rfl⟩ | hw
    · exact lt_frameCount hlt
    · exact h.lt p x hp hw
  · by_cases hag : a = g
    · rw [hag, hzero]
      rfl
    · have ha' : walk st.next r s = some a := by
        rw [hwalk s hs.inner] at ha
        split at ha
        · exact absurd (Option.some.inj ha).symm hag
        · exact ha
      by_cases hedge : a = f ∧ j = i
      · obtain ⟨rfl, rfl⟩ := hedge
        rw [hsmall]
        exact h.small s j a hs ha'
      · rw [hsame a j hag hedge]
        exact h.small s j a hs ha'
  · rw [hwalk s hs.inner] at ha
    split at ha
    · exact Option.some.inj ha ▸ hlt
    · exact h.reached s j a hs ha

/-- A frame with no frames under it is given back, and its entry cleared. -/
theorem unlink (h : Space S d r B st) (hpath : Path S d (t ++ [i])) (hf : walk st.next r t = some f)
    (hg : st.next f i = some g) (hleaf : ∀ q, Path S d q → t ++ [i] <+: q → q ≠ t ++ [i] →
    walk st.next r q = none)
    (hbit : ∀ x, st'.memoryManager.bit x = if x = g then false else st.memoryManager.bit x)
    (hzero : st'.entry f i = .empty)
    (hsame : ∀ a j, ¬ (a = f ∧ j = i) → st'.entry a j = st.entry a j) :
    Space S d r B st' ∧ ∀ p, Inner (Path S d) p → walk st'.next r p = if p = t ++ [i] then none else
      walk st.next r p := by
  have hgone : walk st.next r (t ++ [i]) = some g := by rw [walk_snoc_of hf, hg]
  have hwalk : ∀ p, Inner (Path S d) p →
      walk st'.next r p = if p = t ++ [i] then none else walk st.next r p := by
    intro p hp
    rw [walk_unlink (pathSet S d) h.trie hpath.inner hf (next_eq_none (by rw [hzero]; rfl))
      (fun s a j _ _ _ hne => next_congr (hsame a j hne)) hp]
    by_cases hpt : p = t ++ [i]
    · rw [if_pos hpt, if_pos (hpt ▸ List.prefix_rfl)]
    · rw [if_neg hpt]
      split
      · rename_i hpre
        rcases hp with rfl | hp
        · exact absurd (List.prefix_nil.1 hpre) (by simp)
        · exact (hleaf p hp hpre hpt).symm
      · rfl
  have hold : ∀ p, Path S d p → ∀ x, walk st'.next r p = some x →
    p ≠ t ++ [i] ∧ walk st.next r p = some x := by
    intro p hp x hx
    rw [hwalk p (.inr hp)] at hx
    split at hx
    · cases hx
    · exact ⟨‹_›, hx⟩
  have holdInner : ∀ s, Inner (Path S d) s → ∀ a, walk st'.next r s = some a →
    walk st.next r s = some a := by
    intro s hs a ha
    rw [hwalk s hs] at ha
    split at ha
    · cases ha
    · exact ha
  refine ⟨⟨h.trie.congr fun p hp x hx => (hold p hp x hx).2, h.root, fun x => ?_, fun p x hp hw =>
    h.apart p x hp (hold p hp x hw).2, fun p x hp hw => h.lt p x hp (hold p hp x hw).2,
      fun s j a hs ha => ?_,
    fun s j a hs ha => h.reached s j a hs (holdInner s hs.inner a ha)⟩, hwalk⟩
  · rw [hbit]
    by_cases hx : x = g
    · subst hx
      rw [if_pos rfl]
      refine iff_of_false (by decide) ?_
      rintro (hB | ⟨p, hp, hw⟩)
      · exact h.apart _ x hpath hgone hB
      · obtain ⟨hne, hw⟩ := hold p hp x hw
        exact hne (h.trie.inj hp hpath hw hgone)
    · rw [if_neg hx, h.bit]
      refine or_congr_right ⟨?_, fun ⟨p, hp, hw⟩ => ⟨p, hp, (hold p hp x hw).2⟩⟩
      rintro ⟨p, hp, hw⟩
      refine ⟨p, hp, ?_⟩
      rw [hwalk p (.inr hp), if_neg, hw]
      rintro rfl
      exact hx (Option.some.inj (hw.symm.trans hgone))
  · have ha' := holdInner s hs.inner a ha
    by_cases hedge : a = f ∧ j = i
    · obtain ⟨rfl, rfl⟩ := hedge
      rw [hzero]
      rfl
    · rw [hsame a j hedge]
      exact h.small s j a hs ha'

/-- What hangs under the other entries can also be counted to the frames outside. -/
theorem narrow {S' : Nat → Prop} (h : Space S d r B st) (hS : ∀ i, S' i → S i) :
    Space S' d r (fun g => B g ∨ ∃ p, Path (fun i => S i ∧ ¬ S' i) d p ∧
      walk st.next r p = some g) st := by
  have hmono : ∀ {p}, Path S' d p → Path S d p := fun hp => hp.mono hS
  refine ⟨⟨fun hp hq => h.trie.inj (hmono hp) (hmono hq), fun hp => h.trie.root (hmono hp)⟩,
    .inl h.root, fun g => ?_,
    fun p g hp hw => ?_, fun p g hp => h.lt p g (hmono hp), fun t i a hp =>
      h.small t i a (hmono hp),
    fun t i a hp => h.reached t i a (hmono hp)⟩
  · rw [h.bit, or_assoc]
    refine or_congr_right ⟨?_, ?_⟩
    · rintro ⟨p, hp, hw⟩
      by_cases hhead : ∀ i ∈ p.head?, S' i
      · exact .inr ⟨p, { hp with head := hhead }, hw⟩
      · refine .inl
          ⟨p, { hp with head := fun i hi => ⟨hp.head i hi, fun hi' => hhead fun j hj => ?_⟩ }, hw⟩
        obtain rfl := Option.mem_unique hi hj
        exact hi'
    · rintro (⟨p, hp, hw⟩ | ⟨p, hp, hw⟩)
      · exact ⟨p, hp.mono fun _ hi => hi.1, hw⟩
      · exact ⟨p, hmono hp, hw⟩
  · rintro (hB | ⟨q, hq, hw'⟩)
    · exact h.apart p g (hmono hp) hw hB
    · obtain rfl := h.trie.inj (hmono hp) (hq.mono fun _ hi => hi.1) hw hw'
      obtain ⟨i, p, rfl⟩ := List.exists_cons_of_ne_nil hp.ne_nil
      exact (hq.head i rfl).2 (hp.head i rfl)

end Space

/-- The allocated frames. -/
def InUse (st : Mmu) (g : Nat) : Prop := st.memoryManager.bit g = true

theorem walk_of_empty (hempty : ∀ i, S i → i < 512 → st.entry r i = .empty) {p : List Nat}
    (hp : Path S d p) :
    walk st.next r p = none := by
  obtain ⟨i, p, rfl⟩ := List.exists_cons_of_ne_nil hp.ne_nil
  have hi := hempty i (hp.head i rfl) (hp.lt i (List.mem_cons_self ..))
  rw [walk_cons, next_eq_none (by rw [hi, PageMapEntry.empty_present]), Option.bind_none]

theorem space_of_empty (hr : st.InUse r) (hlt : r < identityFrames)
    (hempty : ∀ i, S i → i < 512 → st.entry r i = .empty) : Space S d r st.InUse st := by
  have hnone : ∀ p, Path S d p → walk st.next r p = none := fun p hp => walk_of_empty hempty hp
  have hroot : ∀ t i a, Path S d (t ++ [i]) → walk st.next r t = some a → t = [] ∧ a = r :=
    fun t i a ht hw => by
    rcases ht.inner with rfl | ht
    · exact ⟨rfl, (Option.some.inj hw).symm⟩
    · rw [hnone t ht] at hw
      cases hw
  refine ⟨⟨fun hp _ hw => ?_, fun hp => ?_⟩, hr, fun g => ?_, fun p g hp hw => ?_, fun p g hp hw =>
    ?_, fun t i a ht hw => ?_,
    fun t i a ht hw => (hroot t i a ht hw).2 ▸ hlt⟩
  · rw [hnone _ hp] at hw
    cases hw
  · rw [hnone _ hp]
    simp
  · exact ⟨.inl, fun hor => hor.resolve_right fun ⟨p, hp, hw⟩ => by rw [hnone p hp] at hw; cases hw⟩
  · rw [hnone p hp] at hw
    cases hw
  · rw [hnone p hp] at hw
    cases hw
  · obtain ⟨rfl, rfl⟩ := hroot t i a ht hw
    rw [hempty i (ht.head i rfl) ht.last_lt, PageMapEntry.empty_hugePage]

end Mmu

end Moxia
