import Moxia.Paging.Space

/-!
# Mapping pages (`SetupPageMap`)

`Covers b l x n` are the paths that lead to the `n` pages from number `x` on below a table of level
`l`. A successful `SetupPageMap` makes them present, writable and accessible to applications, and
leaves everything else as it is (`Grown`); it fails only when no frame is free
(`setupPageMap_spec`).
-/

namespace Moxia

open Lib

namespace Mmu

variable {S : Nat → Prop} {d r : Nat} {B : Nat → Prop} {C C' : List Nat → Prop} {st st' st'' : Mmu}
  {a f g i l n x c : Nat} {b p q t : List Nat} {e : PageMapEntry}

/-! ## The paths of a range of pages -/

/-- The entry numbers that lead to page `y` of a table of level `l`. -/
def pagePath : Nat → Nat → List Nat
  | 0, _ => []
  | l + 1, y => y / 512 ^ l % 512 :: pagePath l y

theorem length_pagePath : ∀ l y, (pagePath l y).length = l
  | 0, _ => rfl
  | l + 1, y => congrArg Nat.succ (length_pagePath l y)

theorem lt_of_mem_pagePath {y : Nat} : ∀ {l}, i ∈ pagePath l y → i < 512
  | 0, h => by cases h
  | l + 1, h => by
    rcases List.mem_cons.1 h with rfl | h
    · exact Nat.mod_lt _ (by decide)
    · exact lt_of_mem_pagePath h

theorem pagePath_mod : ∀ {l m : Nat} (y : Nat), l ≤ m → pagePath l (y % 512 ^ m) = pagePath l y
  | 0, _, _, _ => rfl
  | l + 1, m, y, h => by
    obtain ⟨k, rfl⟩ := Nat.exists_eq_add_of_le h
    rw [pagePath, pagePath, pagePath_mod y (Nat.le_of_succ_le h), Nat.add_assoc, Nat.pow_add,
      Nat.mod_mul_right_div_self, Nat.add_comm 1 k, Nat.pow_succ, Nat.mod_mul_left_mod]

def Covers (b : List Nat) (l x n : Nat) (q : List Nat) : Prop :=
  ∃ y s, x ≤ y ∧ y < x + n ∧ y < 512 ^ l ∧ s ≠ [] ∧ s <+: pagePath l y ∧ q = b ++ s

theorem not_covers_zero : ¬ Covers b 0 x n q := by
  rintro ⟨y, s, -, -, -, hs, hpre, -⟩
  exact hs (List.prefix_nil.1 hpre)

/-- The first entry, the pages under it, and the pages behind it. -/
theorem covers_succ (hx : x < 512 ^ (l + 1)) (hn : 0 < n) : Covers b (l + 1) x n q ↔
    q = b ++ [x / 512 ^ l] ∨ Covers (b ++ [x / 512 ^ l]) l (x % 512 ^ l) n q ∨
      Covers b (l + 1) ((x / 512 ^ l + 1) * 512 ^ l) (x % 512 ^ l + n - 512 ^ l) q := by
  have hP : 0 < 512 ^ l := Nat.pow_pos (by decide)
  rw [Nat.pow_succ] at hx
  have hi : x / 512 ^ l < 512 := Nat.div_lt_of_lt_mul hx
  have hx' := Nat.div_add_mod x (512 ^ l)
  have hxmod := Nat.mod_lt x hP
  rw [Nat.mul_comm] at hx'
  constructor
  · rintro ⟨y, s, hxy, hyn, hy, hs, hpre, rfl⟩
    have hy' := Nat.div_add_mod y (512 ^ l)
    rw [Nat.mul_comm] at hy'
    have hle : x / 512 ^ l ≤ y / 512 ^ l := Nat.div_le_div_right hxy
    rcases Nat.eq_or_lt_of_le hle with heq | hlt
    · obtain ⟨k, s, rfl⟩ := List.exists_cons_of_ne_nil hs
      rw [pagePath, List.cons_prefix_cons, ← heq, Nat.mod_eq_of_lt hi] at hpre
      obtain ⟨rfl, hpre⟩ := hpre
      cases s with
      | nil => exact .inl rfl
      | cons k' s =>
        rw [← heq] at hy'
        refine .inr (.inl ⟨y % 512 ^ l, k' :: s, by omega, by omega, Nat.mod_lt _ hP, by
          simp, ?_, by simp⟩)
        rwa [pagePath_mod y (Nat.le_refl l)]
    · have hmul := Nat.mul_le_mul_right (512 ^ l) (Nat.succ_le_of_lt hlt)
      rw [Nat.succ_eq_add_one] at hmul
      refine .inr (.inr ⟨y, s, by omega, ?_, hy, hs, hpre, rfl⟩)
      rw [Nat.add_mul, Nat.one_mul] at hmul ⊢
      omega
  · rintro (rfl | ⟨y, s, hxy, hyn, hy, hs, hpre, rfl⟩ | ⟨y, s, hxy, hyn, hy, hs, hpre, rfl⟩)
    · refine ⟨x, [x / 512 ^ l], Nat.le_refl x, by omega, by rwa [Nat.pow_succ], by simp, ?_, rfl⟩
      rw [pagePath, Nat.mod_eq_of_lt hi]
      exact List.prefix_append [_] _
    · have hdiv : (x / 512 ^ l * 512 ^ l + y) / 512 ^ l = x / 512 ^ l := by
        rw [Nat.mul_comm, Nat.mul_add_div hP, Nat.div_eq_of_lt hy, Nat.add_zero]
      have hpath : pagePath l (x / 512 ^ l * 512 ^ l + y) = pagePath l y := by
        rw [← pagePath_mod (m := l) _ (Nat.le_refl l), Nat.mul_add_mod_self_right,
          Nat.mod_eq_of_lt hy]
      refine ⟨x / 512 ^ l * 512 ^ l + y, x / 512 ^ l :: s, by omega, by omega, ?_, by
        simp, ?_, by simp⟩
      · have := Nat.mul_le_mul_right (512 ^ l) (Nat.succ_le_of_lt hi)
        rw [Nat.succ_eq_add_one, Nat.add_mul, Nat.one_mul] at this
        rw [Nat.pow_succ]
        omega
      · rw [pagePath, hdiv, hpath, Nat.mod_eq_of_lt hi]
        exact List.cons_prefix_cons.2 ⟨rfl, hpre⟩
    · rw [Nat.add_mul, Nat.one_mul] at hxy hyn
      exact ⟨y, s, by omega, by omega, hy, hs, hpre, rfl⟩

/-! ## Growth -/

/-- From `st` to `st'` the tree has grown by paths in `C`, each with a frame that was free. -/
structure Grown (S : Nat → Prop) (d r : Nat) (C : List Nat → Prop) (st st' : Mmu) : Prop where
  old : ∀ p g, Inner (Path S d) p → walk st.next r p = some g → walk st'.next r p = some g
  new : ∀ p g, Path S d p → walk st'.next r p = some g →
    walk st.next r p = some g ∨ (C p ∧ st.memoryManager.bit g = false)
  entry : ∀ t i a, Inner (Path S d) t → t.length < d → walk st.next r t = some a → i < 512 →
    ¬ C (t ++ [i]) →
    st'.entry a i = st.entry a i
  granted : ∀ t i a, Path S d (t ++ [i]) → walk st.next r t = some a → (st.entry a i).Granted →
    (st'.entry a i).Granted
  mem : ∀ g, st.memoryManager.bit g = true →
    (∀ t, Inner (Path S d) t → t.length < d → walk st.next r t ≠ some g) →
    st'.mem g = st.mem g
  page : ∀ p g, Path S d p → p.length = d → walk st.next r p = none → walk st'.next r p = some g →
    st'.mem g = fun _ => 0
  rangeBegin : st'.memoryManager.rangeBegin = st.memoryManager.rangeBegin
  rangeEnd : st'.memoryManager.rangeEnd = st.memoryManager.rangeEnd
  cr3 : st'.cr3 = st.cr3
  stores : st'.stores = st.stores

namespace Grown

theorem refl (S : Nat → Prop) (d r : Nat) (C : List Nat → Prop) (st : Mmu) :
    Grown S d r C st st where
  old _ _ _ hw := hw
  new _ _ _ hw := .inl hw
  entry _ _ _ _ _ _ _ _ := rfl
  granted _ _ _ _ _ he := he
  mem _ _ _ := rfl
  page p g hp _ hnone hw := by rw [hnone] at hw; cases hw
  rangeBegin := rfl
  rangeEnd := rfl
  cr3 := rfl
  stores := rfl

theorem mono (h : Grown S d r C st st') (hC : ∀ p, C p → C' p) : Grown S d r C' st st' :=
  { h with
    new := fun p g hp hw => (h.new p g hp hw).imp_right fun hc => ⟨hC p hc.1, hc.2⟩
    entry := fun t i a ht hlen ha hi hc => h.entry t i a ht hlen ha hi fun h => hc (hC _ h) }

theorem bit (h : Grown S d r C st st') (hs : Space S d r B st) (hs' : Space S d r B st')
    (hg : st.memoryManager.bit g = true) : st'.memoryManager.bit g = true :=
  (hs'.bit g).2 (((hs.bit g).1 hg).imp_right fun ⟨p, hp, hw⟩ => ⟨p, hp, h.old p g (.inr hp) hw⟩)

theorem table (h : Grown S d r C st st') (hg : st.memoryManager.bit g = true)
    (ht : Inner (Path S d) t)
    (hw : walk st'.next r t = some g) : walk st.next r t = some g := by
  rcases ht with rfl | ht
  · rwa [walk_nil] at hw ⊢
  · refine (h.new t g ht hw).resolve_right fun hnew => ?_
    rw [hnew.2] at hg
    cases hg

theorem trans (h : Grown S d r C st st') (h' : Grown S d r C st' st'') (hs : Space S d r B st)
    (hs' : Space S d r B st') : Grown S d r C st st'' where
  old p g hp hw := h'.old p g hp (h.old p g hp hw)
  new p g hp hw := by
    rcases h'.new p g hp hw with hw | ⟨hc, hbit⟩
    · exact h.new p g hp hw
    · refine .inr ⟨hc, ?_⟩
      by_contra hne
      rw [h.bit hs hs' (by simpa using hne)] at hbit
      cases hbit
  entry t i a ht hlen ha hi hc := by
    rw [h'.entry t i a ht hlen (h.old t a ht ha) hi hc, h.entry t i a ht hlen ha hi hc]
  granted t i a ht ha he := h'.granted t i a ht (h.old t a ht.inner ha) (h.granted t i a ht ha he)
  mem g hg hno := by
    rw [h'.mem g (h.bit hs hs' hg) fun t ht hlen hw => hno t ht hlen (h.table hg ht hw),
      h.mem g hg hno]
  page p g hp hlen hnone hw := by
    cases hmid : walk st'.next r p with
    | none => exact h'.page p g hp hlen hmid hw
    | some g' =>
      obtain rfl : g' = g := Option.some.inj ((h'.old p g' (.inr hp) hmid).symm.trans hw)
      rw [h'.mem g' (hs'.bit_of_walk (.inr hp) hmid) fun t ht hlt hw' => ?_,
        h.page p g' hp hlen hnone hmid]
      rw [hs'.trie.inner_inj ht (.inr hp) hw' hmid] at hlt
      omega
  rangeBegin := h'.rangeBegin.trans h.rangeBegin
  rangeEnd := h'.rangeEnd.trans h.rangeEnd
  cr3 := h'.cr3.trans h.cr3
  stores := h'.stores.trans h.stores

end Grown

/-! ## One entry -/

/-- The frames that `NewPageMap` may hand out: they are free, and the kernel reaches them. -/
structure Spare (st : Mmu) (g : Nat) : Prop where
  rangeBegin : st.memoryManager.rangeBegin ≤ g
  rangeEnd : g < st.memoryManager.rangeEnd
  lt : g < identityFrames
  free : st.memoryManager.bit g = false

theorem Spare.allocate (hg : st.Spare g) : ∃ frame manager,
    st.memoryManager.allocate 1 = some (.ok (frame, manager)) ∧ frame < identityFrames := by
  have hw : Window st.memoryManager.Clear st.memoryManager.rangeEnd 1 g := by
    refine ⟨hg.rangeEnd, fun x hx hx' => ?_⟩
    obtain rfl : x = g := by omega
    exact hg.free
  obtain ⟨⟨frame, manager⟩, hrun⟩ :=
    st.memoryManager.allocate_window hw hg.rangeBegin (lt_frameCount hg.lt) (Nat.le_refl 1)
  have hcases := st.memoryManager.allocate_cases (Nat.le_refl 1)
  rw [hrun] at hcases
  exact ⟨frame, manager, hrun, Nat.lt_of_le_of_lt (hcases.1.2 ⟨hg.rangeBegin, hw⟩) hg.lt⟩

theorem newPageMap_none (h : st.newPageMap = none) : ¬ st.Spare g := fun hg => by
  obtain ⟨frame, manager, hrun, hlt⟩ := hg.allocate
  rw [newPageMap, hrun, Option.bind_some] at h
  dsimp only at h
  rw [if_pos hlt] at h
  cases h

theorem newPageMap_allocate (h : st.newPageMap = some (.ok g, st')) : ∃ manager,
    st.memoryManager.allocate 1 = some (.ok (g, manager)) ∧ g < identityFrames ∧
      st' = { st with memoryManager := manager }.clearFrame g := by
  obtain ⟨r, hrun, hr⟩ := Option.bind_eq_some_iff.1 h
  rcases r with err | ⟨frame, manager⟩
  · cases hr
  · obtain ⟨hlt, heq⟩ := Option.ite_none_right_eq_some.1 hr
    cases heq
    exact ⟨manager, hrun, hlt, rfl⟩

theorem newPageMap_ok (h : st.newPageMap = some (.ok g, st')) : ∃ manager,
    st' = { st with memoryManager := manager }.clearFrame g ∧ st.memoryManager.bit g = false ∧
      g < identityFrames ∧
    manager.rangeBegin = st.memoryManager.rangeBegin ∧ manager.rangeEnd =
      st.memoryManager.rangeEnd ∧
    ∀ x, manager.bit x = if x = g then true else st.memoryManager.bit x := by
  obtain ⟨manager, hrun, hlt, rfl⟩ := newPageMap_allocate h
  have hcases := st.memoryManager.allocate_cases (Nat.le_refl 1)
  rw [hrun] at hcases
  obtain ⟨⟨⟨-, hw⟩, -⟩, hmap, hmark⟩ := hcases
  obtain ⟨m, hm, hbegin, hend, hbit⟩ := st.memoryManager.markAllocated_spec g hmap
  obtain rfl := Option.some.inj (hmark.symm.trans hm)
  refine ⟨manager, rfl, hw.all g (Nat.le_refl g) (Nat.lt_succ_self g), hlt, hbegin,
    hend, fun x => ?_⟩
  have hiff : (g ≤ x ∧ x < g + 1) ↔ x = g := by omega
  rw [hbit, if_congr hiff rfl rfl]

theorem newPageMap_spare (h : st.newPageMap = some (.ok g, st')) : st.Spare g := by
  obtain ⟨manager, hrun, hlt, -⟩ := newPageMap_allocate h
  have hcases := st.memoryManager.allocate_cases (Nat.le_refl 1)
  rw [hrun] at hcases
  obtain ⟨⟨⟨hbegin, hw⟩, -⟩, -⟩ := hcases
  exact ⟨hbegin, hw.le, hlt, hw.all g (Nat.le_refl g) (Nat.lt_succ_self g)⟩

theorem newPageMap_error {err : Error} (h : st.newPageMap = some (.error err, st')) :
    st' = st ∧ err = .kNoEnoughMemory ∧ ∀ g, ¬ st.Spare g := by
  obtain ⟨r, hrun, hr⟩ := Option.bind_eq_some_iff.1 h
  rcases r with err | ⟨frame, manager⟩
  · cases hr
    have hcases := st.memoryManager.allocate_cases (Nat.le_refl 1)
    rw [hrun] at hcases
    refine ⟨rfl, hcases.1, fun g hg => ?_⟩
    obtain ⟨frame, manager, hrun', -⟩ := hg.allocate
    rw [hrun] at hrun'
    cases hrun'
  · cases (Option.ite_none_right_eq_some.1 hr).2

/-- `page_map[i].bits.writable = 1; page_map[i].bits.user = 1;` -/
def grant (st : Mmu) (pageMap i : Nat) : Mmu :=
  st.setEntry pageMap i (st.entry pageMap i).grant

theorem entry_grant_self : (st.grant f i).entry f i = (st.entry f i).grant := entry_setEntry_self

theorem next_grant (st : Mmu) (f i a j : Nat) : (st.grant f i).next a j = st.next a j := by
  by_cases hne : a = f ∧ j = i
  · obtain ⟨rfl, rfl⟩ := hne
    rw [next, next, entry_grant_self, PageMapEntry.grant_present, PageMapEntry.grant_pointer]
  · exact next_congr (entry_setEntry_of_ne hne)

theorem Space.grant (h : Space S d r B st) (hpath : Path S d (t ++ [i]))
    (hf : walk st.next r t = some f)
    (hp : (st.entry f i).present = true) : Space S d r B (st.grant f i) ∧
      Grown S d r (· = t ++ [i]) st (st.grant f i) ∧ ((st.grant f i).entry f i).Granted := by
  have hgranted : ((st.grant f i).entry f i).Granted := by
    rw [entry_grant_self]
    exact PageMapEntry.granted_grant hp
  have hother : ∀ {a j}, ¬ (a = f ∧ j = i) → (st.grant f i).entry a j = st.entry a j :=
    entry_setEntry_of_ne
  have hentry : ∀ a j, (st.grant f i).next a j = st.next a j ∧
      ((st.grant f i).entry a j).hugePage = (st.entry a j).hugePage := fun a j => by
    refine ⟨next_grant st f i a j, ?_⟩
    by_cases hne : a = f ∧ j = i
    · obtain ⟨rfl, rfl⟩ := hne
      rw [entry_grant_self, PageMapEntry.grant_hugePage]
    · rw [hother hne]
  have hbit : ∀ g, (st.grant f i).memoryManager.bit g = st.memoryManager.bit g := fun _ => rfl
  obtain ⟨hspace, hwalk⟩ := h.congr hbit fun _ j a _ _ => hentry a j
  refine ⟨hspace, ?_, hgranted⟩
  refine { old := fun p g hp hw => ?_, new := fun p g hp hw => ?_,
           entry := fun s j a hs _ ha _ hc => hother ?_,
           granted := fun s j a _ _ he => ?_, mem := fun g _ hno => ?_,
           page := fun p g hp _ hnone hw => ?_,
           rangeBegin := rfl, rangeEnd := rfl, cr3 := rfl, stores := rfl }
  · rwa [hwalk p hp]
  · rw [hwalk p (.inr hp)] at hw
    exact .inl hw
  · rintro ⟨rfl, rfl⟩
    exact hc (by rw [h.trie.inner_inj hs hpath.inner ha hf])
  · by_cases hne : a = f ∧ j = i
    · obtain ⟨rfl, rfl⟩ := hne
      exact hgranted
    · rwa [hother hne]
  · refine setEntry_mem_of_ne ?_
    rintro rfl
    exact hno t hpath.inner hpath.length_lt hf
  · rw [hwalk p (.inr hp), hnone] at hw
    cases hw

theorem Space.fill (h : Space S d r B st) (hpath : Path S d (t ++ [i]))
    (hf : walk st.next r t = some f)
    (habs : (st.entry f i).present = false) {st₁ : Mmu} (hnew : st.newPageMap = some (.ok c, st₁))
    {e : PageMapEntry}
    (he : e = ((st₁.entry f i).setPointer c).setPresent.grant)
    (hst : st' = st₁.setEntry f i e) :
    Space S d r B st' ∧ Grown S d r (· = t ++ [i]) st st' ∧
      walk st'.next r (t ++ [i]) = some c := by
  obtain ⟨manager, rfl, hbit, hlt, hbegin, hend, hbits⟩ := newPageMap_ok hnew
  subst hst
  have hcf : ∀ s a, Inner (Path S d) s → walk st.next r s = some a → a ≠ c := by
    rintro s a hs ha rfl
    exact (h.fresh hbit).2 s hs ha
  have hfc := hcf t f hpath.inner hf
  have hclear : ({ st with memoryManager := manager }.clearFrame c).entry f i = st.entry f i :=
    entry_clearFrame_of_ne hfc
  set st₁ := { st with memoryManager := manager }.clearFrame c with hst₁
  have hsame : ∀ a j, a ≠ c → ¬ (a = f ∧ j = i) → (st₁.setEntry f i e).entry a j = st.entry a j :=
    fun a j ha hne => by
    rw [entry_setEntry_of_ne hne]
    exact entry_clearFrame_of_ne ha
  have hzero : ∀ j, (st₁.setEntry f i e).entry c j = .empty := fun j => by
    rw [entry_setEntry_of_ne fun hne => hfc hne.1.symm]
    exact entry_clearFrame_self
  have hself : (st₁.setEntry f i e).entry f i = e := entry_setEntry_self
  have hlink : (st₁.setEntry f i e).next f i = some c := by
    rw [next, hself, he, PageMapEntry.grant_present, PageMapEntry.setPresent_present, if_pos rfl,
      PageMapEntry.grant_pointer,
      PageMapEntry.setPresent_pointer,
        PageMapEntry.pointer_setPointer _ (Nat.lt_trans hlt (by decide))]
  have hsmall : ((st₁.setEntry f i e).entry f i).hugePage = (st.entry f i).hugePage := by
    rw [hself, he, PageMapEntry.grant_hugePage, PageMapEntry.setPresent_hugePage,
      PageMapEntry.setPointer_hugePage, hclear]
  obtain ⟨hspace, hwalk⟩ := h.link hpath hf habs hbit hlt hbits hlink hsmall hzero hsame
  have hgone : walk st.next r (t ++ [i]) = none := by rw [walk_snoc_of hf, next_eq_none habs]
  refine ⟨hspace, ?_, by rw [hwalk _ (.inr hpath), if_pos rfl]⟩
  refine { old := fun p g hp hw => ?_, new := fun p g hp hw => ?_,
           entry := fun s j a hs _ ha _ hc => ?_,
           granted := fun s j a hs ha hgr => ?_, mem := fun g hg hno => ?_,
           page := fun p g hp hlen hnone hw => ?_,
           rangeBegin := hbegin, rangeEnd := hend, cr3 := rfl, stores := rfl }
  · rw [hwalk p hp, if_neg, hw]
    rintro rfl
    rw [hgone] at hw
    cases hw
  · rw [hwalk p (.inr hp)] at hw
    split at hw
    · cases hw
      exact .inr ⟨‹_›, hbit⟩
    · exact .inl hw
  · refine hsame a j (hcf s a hs ha) ?_
    rintro ⟨rfl, rfl⟩
    exact hc (by rw [h.trie.inner_inj hs hpath.inner ha hf])
  · by_cases hne : a = f ∧ j = i
    · obtain ⟨rfl, rfl⟩ := hne
      rw [hself, he]
      exact PageMapEntry.granted_grant rfl
    · rwa [hsame a j (hcf s a hs.inner ha) hne]
  · have hgf : g ≠ f := by
      rintro rfl
      exact hno t hpath.inner hpath.length_lt hf
    have hgc : g ≠ c := by
      rintro rfl
      rw [hbit] at hg
      cases hg
    rw [setEntry_mem_of_ne hgf]
    exact Function.update_of_ne hgc ..
  · rw [hwalk p (.inr hp)] at hw
    split at hw
    · obtain rfl := Option.some.inj hw
      rw [setEntry_mem_of_ne hfc.symm]
      exact Function.update_self ..
    · rw [hnone] at hw
      cases hw

/-- A table that is reached: its entry is there, or gets a new frame. -/
theorem setNewPageMap_of_lt (hlt : f < identityFrames) : st.setNewPageMapIfNotPresent f i =
    if (st.entry f i).present then some (.ok (st.entry f i).pointer, st)
    else Result.andThen st.newPageMap fun childMap st =>
      some (.ok childMap, st.setEntry f i ((st.entry f i).setPointer childMap).setPresent) := by
  rw [setNewPageMapIfNotPresent, if_neg (Nat.not_le.2 hlt)]

/-- One turn of the loop up to the call for the next level. -/
theorem fill_ok (h : Space S d r B st) (hpath : Path S d (t ++ [i]))
    (hf : walk st.next r t = some f) {st₁ : Mmu}
    (hrun : st.setNewPageMapIfNotPresent f i = some (.ok c, st₁)) :
    Space S d r B (st₁.grant f i) ∧ Grown S d r (· = t ++ [i]) st (st₁.grant f i) ∧
      walk (st₁.grant f i).next r (t ++ [i]) = some c ∧ ((st₁.grant f i).entry f i).Granted := by
  rw [setNewPageMap_of_lt (h.reached t i f hpath hf)] at hrun
  split at hrun
  · rename_i hp
    cases hrun
    obtain ⟨hspace, hgrown, hgranted⟩ := h.grant hpath hf hp
    exact ⟨hspace, hgrown,
      hgrown.old _ _ (.inr hpath) (by rw [walk_snoc_of hf, next_of_present hp]), hgranted⟩
  · rename_i habs
    obtain ⟨c', st₂, hnew, hrun⟩ := andThen_eq_ok hrun
    cases hrun
    have hcollapse : ∀ (s : Mmu) (e : PageMapEntry), (s.setEntry f i e).grant f i =
      s.setEntry f i e.grant := fun s e => by
      rw [Mmu.grant, entry_setEntry_self, setEntry, setEntry, setEntry]
      dsimp only
      rw [Function.update_idem, Function.update_self, storeLE_storeLE]
    obtain ⟨hspace, hgrown, hwalk⟩ := h.fill hpath hf (by simpa using habs) hnew rfl (hcollapse _ _)
    refine ⟨hspace, hgrown, hwalk, ?_⟩
    rw [entry_grant_self, entry_setEntry_self]
    exact PageMapEntry.granted_grant rfl

theorem fill_error (h : Space S d r B st) (hpath : Path S d (t ++ [i]))
    (hf : walk st.next r t = some f) {err : Error}
    (hrun : st.setNewPageMapIfNotPresent f i = some (.error err, st')) :
    st' = st ∧ err = .kNoEnoughMemory ∧ (∀ g, ¬ st.Spare g) ∧ walk st.next r (t ++ [i]) = none := by
  rw [setNewPageMap_of_lt (h.reached t i f hpath hf)] at hrun
  split at hrun
  · cases hrun
  · rename_i habs
    rcases andThen_eq_error hrun with hnew | ⟨c, st₂, -, hrun⟩
    · obtain ⟨hst, herr, hfull⟩ := newPageMap_error hnew
      exact ⟨hst, herr, hfull, by rw [walk_snoc_of hf, next_eq_none (by simpa using habs)]⟩
    · cases hrun

theorem fill_none (h : Space S d r B st) (hpath : Path S d (t ++ [i]))
    (hf : walk st.next r t = some f)
    (hrun : st.setNewPageMapIfNotPresent f i = none) :
    (∀ g, ¬ st.Spare g) ∧ walk st.next r (t ++ [i]) = none := by
  rw [setNewPageMap_of_lt (h.reached t i f hpath hf)] at hrun
  split at hrun
  · cases hrun
  · rename_i habs
    refine ⟨fun g => newPageMap_none ?_, by
      rw [walk_snoc_of hf, next_eq_none (by simpa using habs)]⟩
    rcases hnew : st.newPageMap with _ | ⟨_ | c, st₁⟩
    · rfl
    all_goals
      rw [hnew] at hrun
      cases hrun

/-! ## All entries -/

/-- The paths in `C` are there, and applications may use them. -/
def Mapped (r : Nat) (C : List Nat → Prop) (st : Mmu) : Prop :=
  ∀ t i, C (t ++ [i]) → ∃ a, walk st.next r t = some a ∧ (st.entry a i).Granted

/-- A call for the paths `C` has come to `st'`, where it has run out of frames. -/
structure Short (S : Nat → Prop) (d r : Nat) (B : Nat → Prop) (C : List Nat → Prop)
    (st st' : Mmu) : Prop where
  space : Space S d r B st'
  grown : Grown S d r C st st'
  full : ∀ g, ¬ st'.Spare g
  missing : ∃ q, C q ∧ walk st'.next r q = none

/-- What is left of a call for the paths `C`, after which `rem` pages remain. -/
def Outcome (S : Nat → Prop) (d r : Nat) (B : Nat → Prop) (C : List Nat → Prop)
    (rem : Nat) (st : Mmu) :
    Result Nat → Prop
  | some (.ok m, st') => m = rem ∧ Space S d r B st' ∧ Grown S d r C st st' ∧ Mapped r C st'
  | some (.error err, st') => err = .kNoEnoughMemory ∧ Short S d r B C st st'
  | none => ∃ st', Short S d r B C st st'

theorem Grown.mapped (h : Grown S d r C st st') (hC : ∀ q, C' q → Path S d q)
    (hm : Mapped r C' st) : Mapped r C' st' :=
  fun t i hc => by
    obtain ⟨a, ha, hgr⟩ := hm t i hc
    exact ⟨a, h.old t a (hC _ hc).inner ha, h.granted t i a (hC _ hc) ha hgr⟩

theorem Short.after (h : Space S d r B st) (hmid : Space S d r B st') (hg : Grown S d r C' st st')
    (hC : ∀ q, C q → C' q)
    (hs : Short S d r B C st' st'') : Short S d r B C' st st'' where
  space := hs.space
  grown := hg.trans (hs.grown.mono hC) h hmid
  full := hs.full
  missing := by
    obtain ⟨q, hq, hnone⟩ := hs.missing
    exact ⟨q, hC q hq, hnone⟩

/-- What has happened before a call that is part of a larger one. -/
theorem Outcome.after {rem : Nat} {res : Result Nat} (h : Space S d r B st)
    (hmid : Space S d r B st')
    (hg : Grown S d r C' st st') (hC : ∀ q, C q → C' q) (ho : Outcome S d r B C rem st' res) :
    (Outcome S d r B C' rem st res ∧ (res = none ∨ ∃ err st'', res = some (.error err, st''))) ∨
      ∃ st'', res = some (.ok rem, st'') ∧ Space S d r B st'' ∧ Grown S d r C' st st'' ∧
        Grown S d r C' st' st'' ∧
        Mapped r C st'' := by
  obtain - | ⟨_ | m, st''⟩ := res
  · obtain ⟨st'', hs⟩ := ho
    exact .inl ⟨⟨st'', hs.after h hmid hg hC⟩, .inl rfl⟩
  · exact .inl ⟨⟨ho.1, ho.2.after h hmid hg hC⟩, .inr ⟨_, _, rfl⟩⟩
  · obtain ⟨rfl, hs, hgr, hm⟩ := ho
    exact .inr ⟨st'', rfl, hs, hg.trans (hgr.mono hC) h hmid, hgr.mono hC, hm⟩

section

variable {sub : Nat → LinearAddress4Level → Nat → Mmu → Result Nat} {addr : LinearAddress4Level}
    {fuel : Nat}

/-- Invariant: from the entry of page `x` on, the paths to `n` pages are still to be made. -/
theorem setupLoop_spec (hl : l < 4)
      (hsub : ∀ {b c n st} (addr : LinearAddress4Level), Space S d r B st →
      walk st.next r b = some c → 0 < n →
        (∀ q, Covers b l (addr.pageNumber % 512 ^ l) n q → Path S d q) →
      Outcome S d r B (Covers b l (addr.pageNumber % 512 ^ l) n)
        (addr.pageNumber % 512 ^ l + n - 512 ^ l) st
        (sub c addr n st))
    (h : Space S d r B st) (hf : walk st.next r b = some f)
    (hx : addr.pageNumber % 512 ^ (l + 1) = x)
    (hfuel : 512 ≤ fuel + x / 512 ^ l) (hC : ∀ q, Covers b (l + 1) x n q → Path S d q) :
    Outcome S d r B (Covers b (l + 1) x n) (x + n - 512 ^ (l + 1)) st
      (setupLoop (l + 1) sub f fuel addr n st) := by
  have hP : 0 < 512 ^ l := Nat.pow_pos (by decide)
  induction fuel generalizing st addr x n with
  | zero =>
    have hxlt : x < 512 ^ l * 512 := by
      rw [← Nat.pow_succ, ← hx]; exact Nat.mod_lt _ (Nat.pow_pos (by decide))
    have := Nat.div_lt_of_lt_mul hxlt
    omega
  | succ fuel ih =>
    have hxlt : x < 512 ^ (l + 1) := hx ▸ Nat.mod_lt _ (Nat.pow_pos (by decide))
    have hi : x / 512 ^ l < 512 := Nat.div_lt_of_lt_mul (by rwa [Nat.pow_succ] at hxlt)
    have hxmod : addr.pageNumber % 512 ^ l = x % 512 ^ l := by
      rw [← hx, Nat.pow_succ, Nat.mod_mul_right_mod]
    have hpart : addr.part (l + 1) = x / 512 ^ l := by
      rw [LinearAddress4Level.part_succ hl, ← hx, Nat.pow_succ, Nat.mod_mul_right_div_self]
    have hxdiv := Nat.div_add_mod x (512 ^ l)
    rw [Nat.mul_comm] at hxdiv
    rw [setupLoop]
    by_cases hn : n = 0
    · subst hn
      rw [if_pos rfl]
      exact ⟨by omega, h, Grown.refl .., fun t i ⟨y, _, hxy, hyx, _⟩ => by omega⟩
    have hn' : 0 < n := Nat.pos_of_ne_zero hn
    have hcov := fun q => covers_succ (b := b) (q := q) hxlt hn'
    have hfirst : Covers b (l + 1) x n (b ++ [x / 512 ^ l]) := (hcov _).2 (.inl rfl)
    have hpath : Path S d (b ++ [x / 512 ^ l]) := hC _ hfirst
    rw [if_neg hn, hpart]
    dsimp only
    -- the entry
    rcases hset : st.setNewPageMapIfNotPresent f (x / 512 ^ l) with - | ⟨err | c, st₁⟩
    · obtain ⟨hfull, hnone⟩ := fill_none h hpath hf hset
      exact ⟨st, h, Grown.refl .., hfull, _, hfirst, hnone⟩
    · obtain ⟨rfl, rfl, hfull, hnone⟩ := fill_error h hpath hf hset
      exact ⟨rfl, h, Grown.refl .., hfull, _, hfirst, hnone⟩
    obtain ⟨hs₁, hg₁, hc, hgr⟩ := fill_ok h hpath hf hset
    rw [andThen_ok]
    -- the pages under it
    change Outcome _ _ _ _ _ _ _ (Result.andThen (sub c addr n (st₁.grant f (x / 512 ^ l))) _)
    have ho := hsub addr hs₁ hc hn' fun q hq => hC q ((hcov q).2 (.inr (.inl (hxmod ▸ hq))))
    rw [hxmod] at ho
    obtain ⟨ho, hres | ⟨err, st₂, hres⟩⟩ | ⟨st₂, hres, hs₂, hg₂, hg₂', hm₂⟩ :=
      ho.after h hs₁ (hg₁.mono fun q hq => (hcov q).2 (.inl hq)) fun q hq =>
        (hcov q).2 (.inr (.inl hq))
    · rw [hres] at ho ⊢
      exact ho
    · rw [hres] at ho ⊢
      exact ho
    rw [hres, andThen_ok]
    have hf₂ : walk st₂.next r b = some f := hg₂.old b f hpath.inner hf
    have hgr₂ : (st₂.entry f (x / 512 ^ l)).Granted :=
      hg₂'.granted b _ f hpath (hg₁.old b f hpath.inner hf) hgr
    split
    · -- the last entry of the table
      rename_i hlast
      rw [hlast] at hxdiv
      refine ⟨by rw [Nat.pow_succ]; omega, hs₂, hg₂, fun t i hq => ?_⟩
      rcases (hcov _).1 hq with heq | hin | ⟨y, _, hy, _, hlt, _⟩
      · obtain ⟨rfl, hi⟩ := List.append_inj' heq rfl
        rw [List.singleton_inj] at hi
        exact ⟨f, hf₂, hi ▸ hgr₂⟩
      · exact hm₂ t i hin
      · rw [hlast] at hy
        rw [Nat.pow_succ] at hlt
        omega
    · -- the pages behind it
      rename_i hlast
      have hx' : ((addr.setPart (l + 1) (x / 512 ^ l + 1)).clearParts l).pageNumber %
          512 ^ (l + 1) =
          (x / 512 ^ l + 1) * 512 ^ l := by
        rw [← hpart, LinearAddress4Level.pageNumber_next hl (by omega), Nat.pow_succ,
          Nat.mul_comm (512 ^ l),
          Nat.mul_mod_mul_right]
        rw [LinearAddress4Level.part_succ hl] at hpart ⊢
        have hnext : (addr.pageNumber / 512 ^ l + 1) % 512 = addr.pageNumber / 512 ^ l %
          512 + 1 := by omega
        rw [hnext]
      have hloop := ih hs₂ hf₂ hx' (by rw [Nat.mul_div_cancel _ hP]; omega)
        fun q hq => hC q ((hcov q).2 (.inr (.inr hq)))
      have hrem : (x / 512 ^ l + 1) * 512 ^ l + (x % 512 ^ l + n - 512 ^ l) - 512 ^ (l + 1) =
        x + n - 512 ^ (l + 1) := by
        have := Nat.mul_le_mul_right (512 ^ l) (by omega : x / 512 ^ l + 1 ≤ 511)
        rw [Nat.add_mul] at this ⊢
        rw [Nat.pow_succ]
        omega
      rw [hrem] at hloop
      rw [Nat.add_sub_cancel]
      obtain ⟨ho, -⟩ | ⟨st₃, hres₃, hs₃, hg₃, hg₃', hm₃⟩ :=
        hloop.after h hs₂ hg₂ fun q hq => (hcov q).2 (.inr (.inr hq))
      · exact ho
      rw [hres₃]
      refine ⟨rfl, hs₃, hg₃, fun t i hq => ?_⟩
      rcases (hcov _).1 hq with heq | hin | hbehind
      · obtain ⟨rfl, hi⟩ := List.append_inj' heq rfl
        rw [List.singleton_inj] at hi
        exact ⟨f, hg₃'.old t f hpath.inner hf₂, hi ▸ hg₃'.granted t _ f hpath hf₂ hgr₂⟩
      · exact hg₃'.mapped (fun q hq => hC q ((hcov q).2 (.inr (.inl hq)))) hm₂ t i hin
      · exact hm₃ t i hbehind

end

theorem setupPageMap_spec (hl : l ≤ 4) (addr : LinearAddress4Level) (n : Nat) (h : Space S d r B st)
    (hf : walk st.next r b = some f)
    (hC : ∀ q, Covers b l (addr.pageNumber % 512 ^ l) n q → Path S d q)
    (hn : l = 0 → 0 < n) :
    Outcome S d r B (Covers b l (addr.pageNumber % 512 ^ l) n)
      (addr.pageNumber % 512 ^ l + n - 512 ^ l) st
      (setupPageMap l f addr n st) := by
  induction l generalizing b f n st addr with
  | zero =>
    rw [setupPageMap, Nat.pow_zero, Nat.mod_one, Nat.zero_add]
    exact ⟨rfl, h, Grown.refl .., fun t i hc => absurd hc not_covers_zero⟩
  | succ l ih =>
    rw [setupPageMap]
    exact setupLoop_spec hl (fun addr h hc hn hC => ih (Nat.le_of_lt hl) addr _ h hc hC fun _ => hn)
      h hf rfl (Nat.le_add_right ..) hC

/-! ## In every state -/

/-- Neither CR3 nor the record of stores changes. -/
structure Steady (st st' : Mmu) : Prop where
  cr3 : st'.cr3 = st.cr3
  stores : st'.stores = st.stores

theorem Steady.refl (st : Mmu) : Steady st st := ⟨rfl, rfl⟩

theorem Steady.trans (h : Steady st st') (h' : Steady st' st'') : Steady st st'' :=
  ⟨h'.cr3.trans h.cr3, h'.stores.trans h.stores⟩

theorem Steady.andThen {α β : Type} {x : Result α} {y : α → Mmu → Result β} {res : Except Error β}
    (hx : ∀ res st', x = some (res, st') → Steady st st')
    (hy : ∀ m s st', y m s = some (res, st') → Steady s st')
    (hrun : Result.andThen x y = some (res, st')) : Steady st st' := by
  rcases x with - | ⟨err | m, s⟩
  · cases hrun
  · cases hrun
    exact hx _ _ rfl
  · exact (hx _ _ rfl).trans (hy m s st' hrun)

theorem newPageMap_steady {res : Except Error Nat}
    (hrun : st.newPageMap = some (res, st')) : Steady st st' := by
  cases res with
  | error err =>
    obtain ⟨rfl, -, -⟩ := newPageMap_error hrun
    exact Steady.refl _
  | ok g =>
    obtain ⟨manager, rfl, -⟩ := newPageMap_ok hrun
    exact ⟨rfl, rfl⟩

theorem setNewPageMapIfNotPresent_steady {res : Except Error Nat}
    (hrun : st.setNewPageMapIfNotPresent f i = some (res, st')) : Steady st st' := by
  rw [setNewPageMapIfNotPresent] at hrun
  obtain ⟨-, hrun⟩ := Option.ite_none_left_eq_some.1 hrun
  split at hrun
  · cases hrun
    exact Steady.refl _
  · refine Steady.andThen (fun _ _ => newPageMap_steady) (fun m s st' h => ?_) hrun
    cases h
    exact ⟨rfl, rfl⟩

theorem setupLoop_steady {sub : Nat → LinearAddress4Level → Nat → Mmu → Result Nat}
    (hsub : ∀ c addr n st res st', sub c addr n st = some (res, st') → Steady st st') {fuel : Nat} :
    ∀ {addr : LinearAddress4Level} {n : Nat} {st st' : Mmu} {res : Except Error Nat},
      setupLoop l sub f fuel addr n st = some (res, st') → Steady st st' := by
  induction fuel with
  | zero =>
    intro addr n st st' res hrun
    cases hrun
    exact Steady.refl _
  | succ fuel ih =>
    intro addr n st st' res hrun
    rw [setupLoop] at hrun
    split at hrun
    · cases hrun
      exact Steady.refl _
    refine Steady.andThen (fun _ _ => setNewPageMapIfNotPresent_steady) (fun c s s' hrun => ?_) hrun
    refine (Steady.mk rfl rfl : Steady s (s.grant f (addr.part l))).trans ?_
    refine Steady.andThen (hsub c addr n _) (fun m s s' hrun => ?_) hrun
    split at hrun
    · cases hrun
      exact Steady.refl _
    · exact ih hrun

theorem setupPageMap_steady {addr : LinearAddress4Level} {res : Except Error Nat}
    (hrun : setupPageMap l f addr n st = some (res, st')) : Steady st st' := by
  induction l generalizing f addr n st st' res with
  | zero =>
    cases hrun
    exact Steady.refl _
  | succ l ih =>
    rw [setupPageMap] at hrun
    exact setupLoop_steady (fun _ _ _ _ _ _ => ih) hrun

theorem setupPageMaps_eq {addr : LinearAddress4Level} {res : Except Error Unit}
    (hrun : st.setupPageMaps addr n = some (res, st')) :
    ∃ res', setupPageMap 4 st.cr3 addr n st = some (res', st') ∧
      (res = .ok () ↔ ∃ m, res' = .ok m) := by
  rw [setupPageMaps] at hrun
  rcases hmap : setupPageMap 4 st.cr3 addr n st with - | ⟨err | m, s⟩
  · rw [hmap] at hrun
    cases hrun
  · rw [hmap] at hrun
    cases hrun
    exact ⟨_, rfl, by simp⟩
  · rw [hmap] at hrun
    cases hrun
    exact ⟨_, rfl, by simp⟩

theorem setupPageMaps_steady {addr : LinearAddress4Level} {res : Except Error Unit}
    (hrun : st.setupPageMaps addr n = some (res, st')) : Steady st st' := by
  obtain ⟨res', hmap, -⟩ := setupPageMaps_eq hrun
  exact setupPageMap_steady hmap

end Mmu

end Moxia
