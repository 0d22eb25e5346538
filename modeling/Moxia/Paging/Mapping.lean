import Moxia.Paging.Setup
import Mathlib.Data.Set.Card

/-!
# What a mapping call leaves

`page` is the frame behind a page number. With enough spare frames a call of `SetupPageMap` for the
whole tree gets to its end, and then maps the pages of its range and no others
(`setupPageMap_exact`).
-/

namespace Moxia

open Lib

namespace Mmu

variable {S : Nat → Prop} {d r : Nat} {B : Nat → Prop} {C C' : List Nat → Prop} {st st' st'' : Mmu}
  {g l n x y : Nat}
  {b p q t : List Nat}

/-! ## Page numbers and paths -/

theorem pagePath_inj {z : Nat} : ∀ {l}, pagePath l y = pagePath l z → y % 512 ^ l = z % 512 ^ l
  | 0, _ => by rw [Nat.pow_zero, Nat.mod_one, Nat.mod_one]
  | l + 1, h => by
    rw [pagePath, pagePath, List.cons.injEq] at h
    rw [Nat.pow_succ, Nat.mod_mul, Nat.mod_mul, pagePath_inj h.2, h.1]

theorem covers_pagePath (hy : y < 512 ^ l) : Covers [] l x n (pagePath l y) ↔
    (x ≤ y ∧ y < x + n) ∧ l ≠ 0 := by
  constructor
  · rintro ⟨z, s, hxz, hzn, hz, hs, hpre, heq⟩
    rw [List.nil_append] at heq
    subst heq
    have heq := hpre.eq_of_length (by rw [length_pagePath, length_pagePath])
    have hmod := pagePath_inj heq
    rw [Nat.mod_eq_of_lt hy, Nat.mod_eq_of_lt hz] at hmod
    subst hmod
    refine ⟨⟨hxz, hzn⟩, ?_⟩
    rintro rfl
    exact hs rfl
  · rintro ⟨⟨hlo, hhi⟩, hl⟩
    refine ⟨y, _, hlo, hhi, hy, ?_, List.prefix_rfl, rfl⟩
    rw [← List.length_pos_iff, length_pagePath]
    omega

theorem finite_covers (b : List Nat) (l x n : Nat) : {q | Covers b l x n q}.Finite := by
  refine ((Set.finite_lt_nat (512 ^ l)).prod (Set.finite_lt_nat (l + 1))).image
    (fun yk => b ++ (pagePath l yk.1).take yk.2) |>.subset ?_
  rintro q ⟨y, s, -, -, hy, -, hpre, rfl⟩
  refine ⟨(y, s.length), ⟨hy, ?_⟩, ?_⟩
  · have := hpre.length_le
    rw [length_pagePath] at this
    exact Nat.lt_succ_of_le this
  · exact congrArg (b ++ ·) (List.prefix_iff_eq_take.1 hpre).symm

/-! ## Enough frames -/

/-- The paths of `C` that are not there yet. -/
def Missing (r : Nat) (C : List Nat → Prop) (st : Mmu) : Set (List Nat) :=
  {q | C q ∧ walk st.next r q = none}

/-- Each path that is not there takes one frame, and there are that many. -/
def Enough (r : Nat) (C : List Nat → Prop) (st : Mmu) : Prop :=
  (Missing r C st).encard ≤ {g | st.Spare g}.encard

/-- What `Grown` says of the tree itself: paths in `C` have been added, each with a frame that was
free. -/
structure Extends (S : Nat → Prop) (d r : Nat) (C : List Nat → Prop) (st st' : Mmu) : Prop where
  old : ∀ p g, Inner (Path S d) p → walk st.next r p = some g → walk st'.next r p = some g
  new : ∀ p g, Path S d p → walk st'.next r p = some g →
    walk st.next r p = some g ∨ (C p ∧ st.memoryManager.bit g = false)
  rangeBegin : st'.memoryManager.rangeBegin = st.memoryManager.rangeBegin
  rangeEnd : st'.memoryManager.rangeEnd = st.memoryManager.rangeEnd

theorem Grown.toExtends (h : Grown S d r C st st') (hC : ∀ q, C q → C' q) :
    Extends S d r C' st st' where
  old := h.old
  new p g hp hw := (h.new p g hp hw).imp_right fun hc => ⟨hC p hc.1, hc.2⟩
  rangeBegin := h.rangeBegin
  rangeEnd := h.rangeEnd

theorem Extends.trans (h : Extends S d r C st st') (h' : Extends S d r C st' st'')
    (hs : Space S d r B st)
    (hs' : Space S d r B st') : Extends S d r C st st'' where
  old p g hp hw := h'.old p g hp (h.old p g hp hw)
  new p g hp hw := by
    rcases h'.new p g hp hw with hw | ⟨hc, hbit⟩
    · exact h.new p g hp hw
    · refine .inr ⟨hc, ?_⟩
      by_contra hne
      have hused : st'.memoryManager.bit g = true := (hs'.bit g).2
        (((hs.bit g).1 (by simpa using hne)).imp_right fun ⟨p, hp, hw⟩ =>
          ⟨p, hp, h.old p g (.inr hp) hw⟩)
      rw [hused] at hbit
      cases hbit
  rangeBegin := h'.rangeBegin.trans h.rangeBegin
  rangeEnd := h'.rangeEnd.trans h.rangeEnd

/-- Whoever runs out of frames has used up all of them, for paths that were not there. -/
theorem not_exhausted (h : Space S d r B st) (hC : ∀ q, C q → Path S d q) (hfin : {q | C q}.Finite)
    (hen : Enough r C st)
    (hs : Space S d r B st') (hx : Extends S d r C st st') (hfull : ∀ g, ¬ st'.Spare g) (hq : C q) :
    walk st'.next r q ≠ none := fun hnone => by
  have hnone₀ : walk st.next r q = none := by
    cases hw : walk st.next r q with
    | none => rfl
    | some g => rw [hx.old q g (.inr (hC q hq)) hw] at hnone; cases hnone
  have hqm : q ∈ Missing r C st := ⟨hq, hnone₀⟩
  have hsub : {g | st.Spare g} ⊆ (fun p => (walk st'.next r p).getD 0) ''
    (Missing r C st \ {q}) := by
    intro g hg
    have hused : st'.memoryManager.bit g = true := by
      by_contra hfree
      refine hfull g ⟨?_, ?_, hg.lt, by simpa using hfree⟩
      · rw [hx.rangeBegin]
        exact hg.rangeBegin
      · rw [hx.rangeEnd]
        exact hg.rangeEnd
    rcases (hs.bit g).1 hused with hB | ⟨p, hp, hw⟩
    · have := (h.bit g).2 (.inl hB)
      rw [hg.free] at this
      cases this
    · rcases hx.new p g hp hw with hw₀ | ⟨hc, -⟩
      · have := (h.bit g).2 (.inr ⟨p, hp, hw₀⟩)
        rw [hg.free] at this
        cases this
      · refine ⟨p, ⟨⟨hc, ?_⟩, ?_⟩, by simp [hw]⟩
        · cases hw₀ : walk st.next r p with
          | none => rfl
          | some g' =>
            obtain rfl := Option.some.inj ((hx.old p g' (.inr hp) hw₀).symm.trans hw)
            have := (h.bit g').2 (.inr ⟨p, hp, hw₀⟩)
            rw [hg.free] at this
            cases this
        · rintro rfl
          rw [hnone] at hw
          cases hw
  have hle := (Set.encard_mono hsub).trans (Set.encard_image_le _ _)
  have hfin' : (Missing r C st \ {q}).Finite :=
    (hfin.subset fun p hp => hp.1).subset Set.sdiff_subset
  have hcard := Set.encard_sdiff_singleton_add_one hqm
  have hlt : (Missing r C st \ {q}).encard < (Missing r C st).encard := by
    rw [← hcard]
    exact ENat.lt_add_one_iff hfin'.encard_lt_top.ne |>.2 le_rfl
  exact absurd (hen.trans hle) (not_le.2 hlt)

theorem not_short (h : Space S d r B st) (hC : ∀ q, C q → Path S d q) (hfin : {q | C q}.Finite)
    (hen : Enough r C st) :
    ¬ Short S d r B C st st' := fun hs => by
  obtain ⟨q, hq, hnone⟩ := hs.missing
  exact not_exhausted h hC hfin hen hs.space (hs.grown.toExtends fun _ => id) hs.full hq hnone

/-! ## The whole tree -/

/-- The frame of page `y`. -/
def page (st : Mmu) (r y : Nat) : Option Nat := walk st.next r (pagePath 4 y)

/-- The slot of page `y`. -/
def slot (y : Nat) : Nat := y / 512 ^ 3 % 512

theorem pagePath_four (y : Nat) :
    pagePath 4 y = [slot y, y / 512 ^ 2 % 512, y / 512 ^ 1 % 512, y / 512 ^ 0 % 512] := rfl

theorem path_pagePath (hS : S (slot y)) : Path S 4 (pagePath 4 y) where
  ne_nil := by simp [pagePath_four]
  length_le := Nat.le_of_eq (length_pagePath 4 y)
  lt i hi := lt_of_mem_pagePath hi
  head i hi := by
    rw [pagePath_four] at hi
    cases hi
    exact hS

theorem Path.of_prefix (h : Path S d (p ++ q)) (hp : p ≠ []) : Path S d p where
  ne_nil := hp
  length_le := Nat.le_trans (List.IsPrefix.length_le (List.prefix_append p q)) h.length_le
  lt i hi := h.lt i (List.mem_append_left q hi)
  head i hi := by
    refine h.head i ?_
    cases p with
    | nil => exact absurd rfl hp
    | cons => exact hi

theorem path_of_covers (hS : ∀ y, x ≤ y → y < x + n → y < 512 ^ 4 → S (slot y))
    (hq : Covers [] 4 x n q) : Path S 4 q := by
  obtain ⟨y, s, hlo, hhi, hy, hs, ⟨s', hs'⟩, rfl⟩ := hq
  have hp : Path S 4 (q ++ s') := hs' ▸ path_pagePath (hS y hlo hhi hy)
  exact hp.of_prefix hs

/-- From `st` to `st'` exactly the `n` pages from `x` on have been mapped, as far as there are so
many. -/
structure MapsExactly (S : Nat → Prop) (r x n : Nat) (st st' : Mmu) : Prop where
  mapped : ∀ y, y < 512 ^ 4 → S (slot y) →
    ((st'.page r y).isSome ↔ (x ≤ y ∧ y < x + n) ∨ (st.page r y).isSome)
  /-- A page that was there keeps its frame and what is in it. -/
  kept : ∀ y g, S (slot y) → st.page r y = some g → st'.page r y = some g ∧ st'.mem g = st.mem g
  /-- A new page has a frame that was free, and only zeros in it. -/
  fresh : ∀ y g, S (slot y) → st.page r y = none → st'.page r y = some g →
    st.memoryManager.bit g = false ∧ st'.mem g = fun _ => 0
  apart : ∀ y z g, y < 512 ^ 4 → z < 512 ^ 4 → S (slot y) → S (slot z) → st'.page r y = some g →
    st'.page r z = some g → y = z
  noTable : ∀ y g t, S (slot y) → st'.page r y = some g → Inner (Path S 4) t → t.length < 4 →
    walk st'.next r t ≠ some g
  granted : ∀ y t i, x ≤ y → y < x + n → y < 512 ^ 4 → t ++ [i] <+: pagePath 4 y →
    ∃ a, walk st'.next r t = some a ∧ (st'.entry a i).Granted

theorem Mapped.isSome (hm : Mapped r C st) (hc : C q) (hq : q ≠ []) :
    (walk st.next r q).isSome := by
  obtain ⟨t, i, rfl⟩ := (List.eq_nil_or_concat q).resolve_left hq
  rw [List.concat_eq_append] at hc ⊢
  obtain ⟨a, ha, hgr⟩ := hm t i hc
  rw [walk_snoc_of ha, next_of_present hgr.present]
  rfl

theorem Grown.mapsExactly (h : Space S 4 r B st) (h' : Space S 4 r B st')
    (hg : Grown S 4 r (Covers [] 4 x n) st st')
    (hm : Mapped r (Covers [] 4 x n) st') : MapsExactly S r x n st st' where
  mapped y hy hS := by
    have hp : Path S 4 (pagePath 4 y) := path_pagePath hS
    constructor
    · intro hsome
      obtain ⟨g, hw⟩ := Option.isSome_iff_exists.1 hsome
      rcases hg.new _ g hp hw with hw | ⟨hc, -⟩
      · exact .inr (Option.isSome_iff_exists.2 ⟨g, hw⟩)
      · exact .inl ((covers_pagePath hy).1 hc).1
    · rintro (hr | hsome)
      · have hc : Covers [] 4 x n (pagePath 4 y) := (covers_pagePath hy).2 ⟨hr, by decide⟩
        exact hm.isSome hc hp.ne_nil
      · obtain ⟨g, hw⟩ := Option.isSome_iff_exists.1 hsome
        exact Option.isSome_iff_exists.2 ⟨g, hg.old _ g (.inr hp) hw⟩
  kept y g hS hw := by
    have hp : Path S 4 (pagePath 4 y) := path_pagePath hS
    refine ⟨hg.old _ g (.inr hp) hw, hg.mem g (h.bit_of_walk (.inr hp) hw) fun t ht hlen hwt => ?_⟩
    rw [h.trie.inner_inj ht (.inr hp) hwt hw, length_pagePath] at hlen
    exact absurd hlen (by decide)
  fresh y g hS hnone hw := by
    have hp : Path S 4 (pagePath 4 y) := path_pagePath hS
    refine ⟨?_, hg.page _ g hp (length_pagePath 4 y) hnone hw⟩
    rcases hg.new _ g hp hw with hw | ⟨-, hbit⟩
    · rw [Mmu.page, hw] at hnone
      cases hnone
    · exact hbit
  apart y z g hy hz hSy hSz hwy hwz := by
    have hmod := pagePath_inj (h'.trie.inj (path_pagePath hSy) (path_pagePath hSz) hwy hwz)
    rwa [Nat.mod_eq_of_lt hy, Nat.mod_eq_of_lt hz] at hmod
  noTable y g t hS hw ht hlen hwt := by
    rw [h'.trie.inner_inj ht (.inr (path_pagePath hS)) hwt hw, length_pagePath] at hlen
    exact absurd hlen (by decide)
  granted y t i hlo hhi hy hpre := hm t i ⟨y, t ++ [i], hlo, hhi, hy, by simp, hpre, rfl⟩

/-- What a call for `n` pages does, whatever slots besides those of the range are left out of the
tree. -/
theorem setupPageMap_total (h : Space S 4 r B st) (addr : LinearAddress4Level)
    (hS : ∀ y, addr.pageNumber ≤ y → y < addr.pageNumber + n → y < 512 ^ 4 → S (slot y))
    (hen : Enough r (Covers [] 4 addr.pageNumber n) st) :
    ∃ st', setupPageMap 4 r addr n st = some (.ok (addr.pageNumber + n - 512 ^ 4), st') ∧
      Space S 4 r B st' ∧
      Grown S 4 r (Covers [] 4 addr.pageNumber n) st st' ∧
        Mapped r (Covers [] 4 addr.pageNumber n) st' := by
  have hC : ∀ q, Covers [] 4 addr.pageNumber n q → Path S 4 q := fun q hq => path_of_covers hS hq
  have hmod : addr.pageNumber % 512 ^ 4 = addr.pageNumber := Nat.mod_eq_of_lt addr.pageNumber_lt
  have ho := setupPageMap_spec (Nat.le_refl 4) addr n h walk_nil (by rwa [hmod]) (by simp)
  rw [hmod] at ho
  have hns : ∀ st', ¬ Short S 4 r B (Covers [] 4 addr.pageNumber n) st st' := fun st' =>
    not_short h hC (finite_covers _ _ _ _) hen
  rcases hres : setupPageMap 4 r addr n st with _ | ⟨err | m, st'⟩ <;> rw [hres] at ho
  · obtain ⟨st', hs⟩ := ho
    exact absurd hs (hns st')
  · exact absurd ho.2 (hns st')
  · obtain ⟨hrem, hs, hg, hm⟩ := ho
    exact ⟨st', by rw [hrem], hs, hg, hm⟩

theorem setupPageMaps_total (h : Space S 4 st.cr3 B st) (addr : LinearAddress4Level)
    (hS : ∀ y, addr.pageNumber ≤ y → y < addr.pageNumber + n → y < 512 ^ 4 → S (slot y))
    (hen : Enough st.cr3 (Covers [] 4 addr.pageNumber n) st) :
    ∃ st', st.setupPageMaps addr n = some (.ok (), st') ∧ Space S 4 st.cr3 B st' ∧
      Grown S 4 st.cr3 (Covers [] 4 addr.pageNumber n) st st' ∧
        Mapped st.cr3 (Covers [] 4 addr.pageNumber n) st' := by
  obtain ⟨st', hrun, hs⟩ := setupPageMap_total h addr hS hen
  exact ⟨st', by rw [setupPageMaps, hrun, andThen_ok], hs⟩

/-- `SetupPageMap` of level 4 maps exactly the pages of its range, as far as they lie in the
tree. -/
theorem setupPageMap_exact (h : Space S 4 r B st) {addr : LinearAddress4Level}
    (hS : ∀ y, addr.pageNumber ≤ y → y < addr.pageNumber + n → y < 512 ^ 4 → S (slot y))
    (hen : Enough r (Covers [] 4 addr.pageNumber n) st) :
    ∃ st', setupPageMap 4 r addr n st = some (.ok (addr.pageNumber + n - 512 ^ 4), st') ∧
      Space S 4 r B st' ∧
      MapsExactly S r addr.pageNumber n st st' := by
  obtain ⟨st', hrun, hs, hg, hm⟩ := setupPageMap_total h addr hS hen
  exact ⟨st', hrun, hs, hg.mapsExactly h hs hm⟩

/-- A machine on which only the PML4, in frame 1, is in use. -/
def blank : Mmu where
  mem := fun _ _ => 0
  memoryManager := ⟨fun line => if line = 0 then 2 else 0, 2, kFrameCount⟩
  cr3 := 1

theorem bit_blank : blank.memoryManager.bit g = true ↔ g = 1 := by
  have hmod := Nat.mod_lt g (by decide : 0 < 64)
  rw [BitmapMemoryManager.bit, blank, kBitsPerMapLine]
  dsimp only
  split
  · rename_i hline
    rw [show (2 : BitVec 64) = BitVec.twoPow 64 1 from rfl, BitVec.getLsbD_twoPow]
    simp only [Bool.and_eq_true, decide_eq_true_eq]
    omega
  · simp only [BitVec.ofNat_eq_ofNat, BitVec.getLsbD_zero, Bool.false_eq_true, false_iff]
    omega

theorem entry_blank (a i : Nat) : blank.entry a i = .empty := by
  rw [entry, blank]
  dsimp only
  rw [loadLE_zero]
  rfl

theorem space_blank (S : Nat → Prop) : Space S 4 1 blank.InUse blank :=
  space_of_empty (bit_blank.2 rfl) (by decide) fun i _ _ => entry_blank 1 i

theorem spare_blank (hlo : 2 ≤ g) (hlt : g < identityFrames) : blank.Spare g := by
  refine ⟨hlo, lt_frameCount hlt, hlt, ?_⟩
  rw [← Bool.not_eq_true, bit_blank]
  omega

theorem enough_one {lo : Nat} (hspare : ∀ g, lo ≤ g → g < lo + 4 → st.Spare g) :
    Enough r (Covers [] 4 x 1) st := by
  have hsub : Missing r (Covers [] 4 x 1) st ⊆ (fun g => (pagePath 4 x).take (g + 1 - lo)) ''
    {g | st.Spare g} := by
    rintro q ⟨⟨y, s, hlo, hhi, -, hs, hpre, rfl⟩, -⟩
    obtain rfl : y = x := by omega
    have hpos := List.length_pos_iff.2 hs
    have hle := hpre.length_le
    rw [length_pagePath] at hle
    refine ⟨lo + q.length - 1, hspare _ (by omega) (by omega), ?_⟩
    dsimp only
    rw [show lo + q.length - 1 + 1 - lo = q.length by omega]
    exact (List.prefix_iff_eq_take.1 hpre).symm
  exact (Set.encard_mono hsub).trans (Set.encard_image_le _ _)

theorem enough_blank : Enough 1 (Covers [] 4 x 1) blank :=
  enough_one fun g (hlo : 2 ≤ g) hhi => spare_blank hlo (Nat.lt_trans hhi (by decide))

theorem setupPageMap_exact_blank :
    ∃ st', setupPageMap 4 1 ⟨0xffff800000000000⟩ 1 blank =
        some (.ok ((LinearAddress4Level.mk 0xffff800000000000).pageNumber + 1 - 512 ^ 4), st') ∧
      Space (fun _ => True) 4 1 blank.InUse st' ∧
      MapsExactly (fun _ => True) 1 (LinearAddress4Level.mk 0xffff800000000000).pageNumber
        1 blank st' :=
  setupPageMap_exact (space_blank _) (fun _ _ _ _ => trivial) enough_blank

end Mmu

end Moxia
