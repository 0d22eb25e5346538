import Moxia.Paging.Mapping
import Moxia.Paging.Stores

/-!
# What the upper half holds

In the upper half of an address space that only `SetupPageMap` has filled, an address leads to a
byte exactly if its page is there (`Upper.translate`). The kernel writes there up to the first
address without a page, and what it has written is what the application finds (`Upper.storeBytes`).
-/

namespace Moxia

open Lib

namespace Mmu

/-- The upper half of an address space with root `r`, all of it open to the application. -/
structure Upper (B : Nat → Prop) (r : Nat) (st : Mmu) : Prop where
  cr3 : st.cr3 = r
  space : Space (256 ≤ ·) 4 r B st
  granted : ∀ t i a, Path (256 ≤ ·) 4 (t ++ [i]) → walk st.next r t = some a →
    (st.entry a i).present = true →
    (st.entry a i).Granted

/-- What an application finds at an address. -/
def byteAt (st : Mmu) (vaddr : Nat) : Option UInt8 := (st.translate true vaddr).map fun place =>
    st.mem place.1 place.2

/-- From `st` to `st'` nothing has changed but what is in the pages. -/
structure SamePages (r : Nat) (st st' : Mmu) : Prop where
  memoryManager : st'.memoryManager = st.memoryManager
  walk : ∀ p, Inner (Path (256 ≤ ·) 4) p → walk st'.next r p = walk st.next r p

variable {S : Nat → Prop} {d : Nat} {B : Nat → Prop} {C : List Nat → Prop}
  {st st' st'' : Mmu} {user : Bool}
  {r a f g i l n o v w dst : Nat} {p q t : List Nat} {b : UInt8} {bytes : List UInt8}

namespace SamePages

theorem refl (r : Nat) (st : Mmu) : SamePages r st st := ⟨rfl, fun _ _ => rfl⟩

theorem trans (h : SamePages r st st') (h' : SamePages r st' st'') : SamePages r st st'' :=
  ⟨h'.memoryManager.trans h.memoryManager, fun p hp => (h'.walk p hp).trans (h.walk p hp)⟩

theorem toExtends (h : SamePages r st st') : Extends (256 ≤ ·) 4 r C st st' where
  old p g hp hw := by rwa [h.walk p hp]
  new p g hp hw := by
    rw [h.walk p (.inr hp)] at hw
    exact .inl hw
  rangeBegin := by rw [h.memoryManager]
  rangeEnd := by rw [h.memoryManager]

theorem page (h : SamePages r st st') (hv : appBase ≤ v) (hlt : v < 2 ^ 64) :
    st'.page r (v / 4096) = st.page r (v / 4096) :=
  h.walk _ (.inr (path_pagePath (slot_of_high hv hlt)))

end SamePages

/-! ## Addresses -/

theorem translateFrom_eq (h : Space S d r B st)
      (hgr : ∀ t i a, Path S d (t ++ [i]) → walk st.next r t = some a →
      (st.entry a i).present = true → (st.entry a i).Granted) {b : List Nat}
        (hf : walk st.next r b = some f)
    (hpath : l ≠ 0 → Path S d (b ++ pagePath l (v / 4096))) :
    st.translateFrom user v l f = (walk st.next f (pagePath l (v / 4096))).map fun g =>
      (g, v % 4096) := by
  induction l generalizing b f with
  | zero => rfl
  | succ l ih =>
    have hp := hpath (Nat.succ_ne_zero l)
    rw [pagePath, List.append_cons] at hp
    have hi := hp.of_prefix (by simp)
    rw [translateFrom, pagePath, walk_cons]
    by_cases hpres : (st.entry f (v / 4096 / 512 ^ l % 512)).present = true
    · have hg := hgr b _ f hi hf hpres
      rw [if_pos ⟨hpres, hg.writable, fun _ => hg.user⟩, if_neg (by simp [h.small b _ f hi hf]),
        next_of_present hpres,
        Option.bind_some]
      exact ih (by rw [walk_snoc_of hf, next_of_present hpres]) fun _ => hp
    · rw [if_neg fun hand => hpres hand.1, next_eq_none (by simpa using hpres)]
      rfl

namespace Upper

theorem translate (h : Upper B r st) (hv : appBase ≤ v) (hlt : v < 2 ^ 64) :
    st.translate user v = (st.page r (v / 4096)).map fun g => (g, v % 4096) := by
  have hcanon : Canonical v := by
    rw [appBase] at hv
    exact .inr (by omega)
  rw [Mmu.translate, if_pos hcanon, h.cr3]
  have hp : Path (256 ≤ ·) 4 ([] ++ pagePath 4 (v / 4096)) := path_pagePath (slot_of_high hv hlt)
  exact translateFrom_eq h.space h.granted walk_nil fun _ => hp

theorem byteAt (h : Upper B r st) (hv : appBase ≤ v) (hlt : v < 2 ^ 64) :
    st.byteAt v = (st.page r (v / 4096)).map fun g => st.mem g (v % 4096) := by
  rw [Mmu.byteAt, h.translate hv hlt, Option.map_map]
  rfl

theorem inj (h : Upper B r st) (hv : appBase ≤ v) (hlt : v < 2 ^ 64) (hw : appBase ≤ w)
    (hlt' : w < 2 ^ 64)
    (hg : st.page r (v / 4096) = some g) (hg' : st.page r (w / 4096) = some g)
    (ho : v % 4096 = w % 4096) : v = w := by
  have hmod :=
    pagePath_inj (h.space.trie.inj (path_pagePath (slot_of_high hv hlt))
      (path_pagePath (slot_of_high hw hlt')) hg hg')
  rw [appBase] at hv hw
  omega

/-! ## Writing -/

theorem storeByte (h : Upper B r st) (hv : appBase ≤ v) (hlt : v < 2 ^ 64)
    (htr : st.translate false v = some (g, o)) (b : UInt8) :
    Upper B r (st.storeByte v g o b) ∧ SamePages r st (st.storeByte v g o b) ∧
      ∀ w, appBase ≤ w → w < 2 ^ 64 →
      (st.storeByte v g o b).byteAt w = if w = v then some b else st.byteAt w := by
  have htr' : st.translate false v = _ := h.translate hv hlt
  rw [htr] at htr'
  obtain ⟨g', hg, hgo⟩ := Option.map_eq_some_iff.1 htr'.symm
  cases hgo
  have hp := path_pagePath (slot_of_high hv hlt)
  -- a page is no table
  have hne : ∀ t i a, Path (256 ≤ ·) 4 (t ++ [i]) → walk st.next r t = some a → a ≠ g := by
    rintro t i a ht ha rfl
    have := ht.length_lt
    rw [h.space.trie.inner_inj ht.inner (.inr hp) ha hg, length_pagePath] at this
    exact absurd this (by decide)
  have hentry : ∀ t i a, Path (256 ≤ ·) 4 (t ++ [i]) → walk st.next r t = some a →
      (st.storeByte v g (v % 4096) b).entry a i = st.entry a i := fun t i a ht ha =>
    entry_congr (poke_mem_of_ne (hne t i a ht ha))
  have hbit : ∀ x, (st.storeByte v g (v % 4096) b).memoryManager.bit x = st.memoryManager.bit x :=
    fun _ => rfl
  obtain ⟨hspace, hwalk⟩ := h.space.congr hbit fun t i a ht ha =>
    ⟨next_congr (hentry t i a ht ha), by rw [hentry t i a ht ha]⟩
  have hup : Upper B r (st.storeByte v g (v % 4096) b) := by
    refine ⟨h.cr3, hspace, fun t i a ht ha hpres => ?_⟩
    rw [hwalk t ht.inner] at ha
    rw [hentry t i a ht ha] at hpres ⊢
    exact h.granted t i a ht ha hpres
  have hsame : SamePages r st (st.storeByte v g (v % 4096) b) := ⟨rfl, hwalk⟩
  refine ⟨hup, hsame, fun w hw hlt' => ?_⟩
  rw [hup.byteAt hw hlt', hsame.page hw hlt', h.byteAt hw hlt']
  split
  · rename_i heq
    rw [heq, hg, Option.map_some, Mmu.storeByte, poke]
    dsimp only
    rw [Function.update_self, Function.update_self]
  · rename_i hwv
    refine Option.map_congr fun g' hg' => ?_
    rw [Mmu.storeByte, poke]
    dsimp only
    by_cases hgg : g' = g
    · subst hgg
      rw [Function.update_self, Function.update_of_ne]
      exact fun ho => hwv (h.inj hw hlt' hv hlt hg' hg ho)
    · rw [Function.update_of_ne hgg]

theorem storeBytes (h : Upper B r st) (hv : appBase ≤ dst) (hlt : dst + bytes.length ≤ 2 ^ 64) :
    Upper B r (st.storeBytes dst bytes).1 ∧ SamePages r st (st.storeBytes dst bytes).1 ∧
      ((st.storeBytes dst bytes).2 = true ↔ ∀ k, k < bytes.length →
        (st.translate false (dst + k)).isSome) ∧
      ((st.storeBytes dst bytes).2 = true → ∀ w, appBase ≤ w → w < 2 ^ 64 →
        (st.storeBytes dst bytes).1.byteAt w =
        if dst ≤ w ∧ w < dst + bytes.length then bytes[w - dst]? else st.byteAt w) := by
  induction bytes generalizing st dst with
  | nil =>
    refine ⟨h, SamePages.refl r st, iff_of_true rfl fun k hk => absurd hk (Nat.not_lt_zero k),
      fun _ w _ _ => ?_⟩
    rw [List.length_nil, if_neg (by omega)]
    rfl
  | cons b bytes ih =>
    rw [List.length_cons] at hlt ⊢
    rw [Mmu.storeBytes]
    cases htr : st.translate false dst with
    | none =>
      refine ⟨h, SamePages.refl r st, iff_of_false (by simp) fun hall => ?_,
        fun hok => by cases hok⟩
      have := hall 0 (Nat.succ_pos _)
      rw [Nat.add_zero, htr] at this
      cases this
    | some place =>
      obtain ⟨g, o⟩ := place
      dsimp only
      obtain ⟨hup, hsame, hbyte⟩ := h.storeByte hv (by omega) htr b
      cases bytes with
      | nil =>
        refine ⟨hup, hsame, iff_of_true rfl fun k hk => ?_, fun _ w hw hlt' => ?_⟩
        · obtain rfl : k = 0 := by simpa using hk
          rw [Nat.add_zero, htr]
          rfl
        · rw [Mmu.storeBytes, hbyte w hw hlt', List.length_nil]
          by_cases hwd : w = dst
          · rw [if_pos hwd, if_pos (by omega), hwd, Nat.sub_self]
            rfl
          · rw [if_neg hwd, if_neg (by omega)]
      | cons b' bytes =>
        rw [List.length_cons] at hlt
        have hnext : (dst + 1) % 2 ^ 64 = dst + 1 := Nat.mod_eq_of_lt (by omega)
        rw [hnext]
        have hlt' : dst + 1 + (b' :: bytes).length ≤ 2 ^ 64 := by rw [List.length_cons]; omega
        obtain ⟨hup', hsame', hok, hbytes⟩ := ih hup (Nat.le_succ_of_le hv) hlt'
        have htranslate : ∀ k, k < bytes.length + 1 →
            (st.storeByte dst g o b).translate false (dst + 1 + k) =
            st.translate false (dst + (k + 1)) := fun k hk => by
          rw [Nat.add_assoc, Nat.add_comm 1 k, hup.translate (by omega) (by omega),
            h.translate (by omega) (by omega),
            hsame.page (by omega) (by omega)]
        refine ⟨hup', hsame.trans hsame', hok.trans ⟨fun hall k hk => ?_, fun hall k hk => ?_⟩,
          fun htrue w hw hlt' => ?_⟩
        · cases k with
          | zero => rw [Nat.add_zero, htr]; rfl
          | succ k =>
            rw [← htranslate k (Nat.lt_of_succ_lt_succ hk)]
            exact hall k (Nat.lt_of_succ_lt_succ hk)
        · rw [htranslate k hk]
          exact hall (k + 1) (Nat.succ_lt_succ hk)
        · rw [hbytes htrue w hw hlt', hbyte w hw hlt', List.length_cons]
          by_cases hwd : w = dst
          · rw [if_neg (by omega), if_pos hwd, if_pos (by omega), hwd, Nat.sub_self]
            rfl
          · by_cases hin : dst + 1 ≤ w ∧ w < dst + 1 + (bytes.length + 1)
            · obtain ⟨k, rfl⟩ := Nat.exists_eq_add_of_le hin.1
              rw [if_pos hin, if_pos (by omega), Nat.add_sub_cancel_left, Nat.add_assoc,
                Nat.add_sub_cancel_left,
                Nat.add_comm 1 k, List.getElem?_cons_succ]
            · rw [if_neg hin, if_neg hwd, if_neg (by omega)]

end Upper

theorem store_eq (st : Mmu) (dst : Nat) (bytes : List UInt8) :
    st.store dst bytes = if (st.storeBytes dst bytes).2 = true then some (st.storeBytes dst bytes).1
      else none := by
  rw [store]
  split <;> rename_i heq <;> rw [heq] <;> rfl

theorem store_append (hdst : dst < 2 ^ 64) {bytes' : List UInt8} :
    (st.store dst bytes).bind (fun st => st.store ((dst + bytes.length) % 2 ^ 64) bytes') =
      st.store dst (bytes ++ bytes') := by
  induction bytes generalizing st dst with
  | nil =>
    rw [List.length_nil, Nat.add_zero, Nat.mod_eq_of_lt hdst]
    rfl
  | cons b bytes ih =>
    rw [List.cons_append, store, store, Mmu.storeBytes, Mmu.storeBytes]
    cases htr : st.translate false dst with
    | none => rfl
    | some place =>
      have hlen : (dst + (b :: bytes).length) % 2 ^ 64 =
          ((dst + 1) % 2 ^ 64 + bytes.length) % 2 ^ 64 := by
        rw [List.length_cons]
        omega
      dsimp only
      rw [hlen]
      exact ih (Nat.mod_lt _ (by decide))

namespace Upper

/-! ## New pages -/

theorem grow (h : Upper B r st) (hs : Space (256 ≤ ·) 4 r B st') (hg : Grown (256 ≤ ·) 4 r C st st')
    (hm : Mapped r C st') :
    Upper B r st' where
  cr3 := hg.cr3.trans h.cr3
  space := hs
  granted t i a ht ha hpres := by
    have hwalk : walk st'.next r (t ++ [i]) = some (st'.entry a i).pointer := by
      rw [walk_snoc_of ha, next_of_present hpres]
    rcases hg.new _ _ ht hwalk with hold | ⟨hc, -⟩
    · obtain ⟨a₀, ha₀, hnext⟩ := exists_of_walk_snoc hold
      obtain rfl : a₀ = a := Option.some.inj ((hg.old t a₀ ht.inner ha₀).symm.trans ha)
      exact hg.granted t i a₀ ht ha₀ (h.granted t i a₀ ht ha₀ (next_eq_some.1 hnext).1)
    · obtain ⟨a', ha', hgr⟩ := hm t i hc
      obtain rfl := Option.some.inj (ha'.symm.trans ha)
      exact hgr

theorem byteAt_grow {x : Nat} (h : Upper B r st) (h' : Upper B r st')
    (hexact : MapsExactly (256 ≤ ·) r x n st st')
    (hv : appBase ≤ v) (hlt : v < 2 ^ 64) (hb : st.byteAt v = some b) : st'.byteAt v = some b := by
  rw [h.byteAt hv hlt] at hb
  obtain ⟨g, hg, rfl⟩ := Option.map_eq_some_iff.1 hb
  obtain ⟨hg', hmem⟩ := hexact.kept _ g (slot_of_high hv hlt) hg
  rw [h'.byteAt hv hlt, hg', Option.map_some, hmem]

end Upper

end Mmu

end Moxia
