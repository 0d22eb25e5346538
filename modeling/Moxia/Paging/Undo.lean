import Moxia.Lib.Run
import Moxia.Paging.Clean
import Moxia.Paging.Mapping

/-!
# Unmapping undoes mapping

`CleanPageMaps` takes apart all that hangs under one slot of the PML4 (`cleanPageMaps_spec`). After
calls of `SetupPageMaps` in a slot that was empty this is what these calls have allocated
(`cleanPageMaps_undoes`).
-/

namespace Moxia

open Lib

namespace Mmu

variable {S : Nat → Prop} {r : Nat} {B : Nat → Prop} {st st' : Mmu} {c g i s : Nat} {p q : List Nat}

/-! ## The tree under a slot -/

theorem path_under {d : Nat} (hs : s < 512) : Path (· = s) (d + 1) (s :: p) ↔
    Inner (Path (fun _ => True) d) p := by
  constructor
  · intro h
    refine or_iff_not_imp_left.2 fun hp =>
      ⟨hp, ?_, fun j hj => h.lt j (List.mem_cons_of_mem _ hj), fun _ _ => trivial⟩
    exact Nat.le_of_succ_le_succ h.length_le
  · intro h
    refine ⟨by simp, ?_, fun j hj => ?_, fun j hj => ?_⟩
    · rcases h with rfl | h
      · exact Nat.succ_le_succ (Nat.zero_le d)
      · exact Nat.succ_le_succ h.length_le
    · rcases List.mem_cons.1 hj with rfl | hj
      · exact hs
      · rcases h with rfl | h
        · cases hj
        · exact h.lt j hj
    · exact (Option.some.inj hj).symm

theorem Path.eq_cons {d : Nat} (h : Path (· = s) d p) : ∃ q, p = s :: q := by
  cases p with
  | nil => exact absurd rfl h.ne_nil
  | cons i q => exact ⟨q, by rw [h.head i rfl]⟩

/-- The table in the slot `s` is the root of a tree of its own. -/
theorem Space.under (h : Space (· = s) 4 r B st) (hs : s < 512) (hc : st.next r s = some c)
    (hbit : ∀ g, st'.memoryManager.bit g = st.memoryManager.bit g)
    (hentry : ∀ a i, a ≠ r → st'.entry a i = st.entry a i) :
    Space (fun _ => True) 3 c (fun g => B g ∨ g = c) st' ∧
      ∀ p, Inner (Path (fun _ => True) 3) p → walk st'.next c p = walk st.next r (s :: p) := by
  have hstep : ∀ p, walk st.next r (s :: p) = walk st.next c p :=
    fun p => by rw [walk_cons, hc, Option.bind_some]
  have hne : ∀ p a, Inner (Path (fun _ => True) 3) p → walk st.next c p = some a → a ≠ r := by
    rintro p a hp hw rfl
    rw [← hstep] at hw
    exact h.trie.root ((path_under hs).2 hp) hw
  have hwalk : ∀ p, Inner (Path (fun _ => True) 3) p → walk st'.next c p = walk st.next c p :=
    fun p hp =>
    walk_congr (pathSet _ 3) (fun t i a ht ha => next_congr (hentry a i (hne t a ht.inner ha))) hp
  have hwalk' : ∀ p, Inner (Path (fun _ => True) 3) p →
    walk st'.next c p = walk st.next r (s :: p) := fun p hp => by
    rw [hwalk p hp, hstep]
  refine ⟨⟨⟨fun hp hq hpa hqa => ?_, fun hp hpa => ?_⟩, .inr rfl, fun g => ?_, fun p g hp hw => ?_,
    fun p g hp hw => ?_,
    fun t i a ht hw => ?_, fun t i a ht hw => ?_⟩, hwalk'⟩
  · rw [hwalk' _ (.inr hp)] at hpa
    rw [hwalk' _ (.inr hq)] at hqa
    exact (List.cons.inj
      (h.trie.inj ((path_under hs).2 (.inr hp)) ((path_under hs).2 (.inr hq)) hpa hqa)).2
  · rw [hwalk' _ (.inr hp)] at hpa
    have heq := h.trie.inj ((path_under hs).2 (.inr hp)) ((path_under hs).2 (.inl rfl)) hpa
      (by rw [hstep, walk_nil])
    exact hp.ne_nil (List.cons.inj heq).2
  · rw [hbit, h.bit, or_assoc]
    refine or_congr_right ⟨?_, ?_⟩
    · rintro ⟨p, hp, hw⟩
      obtain ⟨q, rfl⟩ := hp.eq_cons
      rcases (path_under hs).1 hp with rfl | hq
      · rw [hstep, walk_nil] at hw
        exact .inl (Option.some.inj hw).symm
      · exact .inr ⟨q, hq, by rw [hwalk' q (.inr hq), hw]⟩
    · rintro (rfl | ⟨q, hq, hw⟩)
      · exact ⟨[s], (path_under hs).2 (.inl rfl), by rw [hstep, walk_nil]⟩
      · exact ⟨s :: q, (path_under hs).2 (.inr hq), by rw [← hwalk' q (.inr hq), hw]⟩
  · rw [hwalk' p (.inr hp)] at hw
    rintro (hB | rfl)
    · exact h.apart _ g ((path_under hs).2 (.inr hp)) hw hB
    · have heq := h.trie.inj ((path_under hs).2 (.inr hp)) ((path_under hs).2 (.inl rfl)) hw
        (by rw [hstep, walk_nil])
      exact hp.ne_nil (List.cons.inj heq).2
  · rw [hwalk' p (.inr hp)] at hw
    exact h.lt _ g ((path_under hs).2 (.inr hp)) hw
  · have hw' := hw
    rw [hwalk _ ht.inner] at hw'
    rw [hentry a i (hne t a ht.inner hw')]
    rw [hwalk' _ ht.inner] at hw
    exact h.small (s :: t) i a ((path_under hs).2 (.inr ht)) hw
  · rw [hwalk' _ ht.inner] at hw
    exact h.reached (s :: t) i a ((path_under hs).2 (.inr ht)) hw

/-! ## Taking it apart -/

/-- What `CleanPageMaps` leaves of the tree under the slot `s`. -/
structure Cleaned (s : Nat) (B : Nat → Prop) (st st' : Mmu) : Prop where
  bit : ∀ g, st'.memoryManager.bit g = true ↔ B g
  freed : ∃ l, st'.freed = st.freed ++ l ∧ l.Nodup ∧ ∀ g, g ∈ l ↔
    st.memoryManager.bit g = true ∧ ¬ B g
  self : st'.entry st.cr3 s = .empty
  other : ∀ i, i ≠ s → st'.entry st.cr3 i = st.entry st.cr3 i
  rangeBegin : st'.memoryManager.rangeBegin = st.memoryManager.rangeBegin
  rangeEnd : st'.memoryManager.rangeEnd = st.memoryManager.rangeEnd
  cr3 : st'.cr3 = st.cr3

theorem cleanPageMaps_spec (h : Space (· = s) 4 st.cr3 B st) (hs : s < 512)
    (hc : st.next st.cr3 s = some c)
    {addr : LinearAddress4Level} (haddr : addr.part 4 = s) :
    ∃ st', st.cleanPageMaps addr = some st' ∧ Cleaned s B st st' := by
  have hpres := next_eq_some.1 hc
  have hwc : walk st.next st.cr3 [s] = some c := by rw [walk_cons, hc, Option.bind_some, walk_nil]
  have hpc : Path (· = s) 4 [s] := (path_under hs).2 (.inl rfl)
  -- the slot is cleared first
  obtain ⟨st₁, hst₁⟩ : ∃ st₁, st₁ = st.zeroEntry st.cr3 s := ⟨_, rfl⟩
  have hother : ∀ a i, ¬ (a = st.cr3 ∧ i = s) → st₁.entry a i = st.entry a i := fun a i hne => by
    rw [hst₁, zeroEntry, entry_setEntry_of_ne hne]
  have hself : st₁.entry st.cr3 s = .empty := by rw [hst₁, zeroEntry, entry_setEntry_self]
  have hmm : st₁.memoryManager = st.memoryManager := by rw [hst₁]; rfl
  have hcr3 : st₁.cr3 = st.cr3 := by rw [hst₁]; rfl
  have hfreed : st₁.freed = st.freed := by rw [hst₁]; rfl
  obtain ⟨hsub, hwalk⟩ := h.under hs hc (fun g => by rw [hmm]) fun a i ha =>
    hother a i fun hne => ha hne.1
  have hpath : ∀ i, i < 512 → Path (fun _ => True) 3 ([] ++ [i]) := fun i hi =>
    ⟨by simp, by simp, fun j hj => by rw [List.mem_singleton.1 hj]; exact hi, fun _ _ => trivial⟩
  obtain ⟨st₂, hrun₂, hs₂, hsh⟩ :=
    cleanPageMap_spec (l := 3) (B := fun g => B g ∨ g = c) rfl (fun _ => hpath) c st₁ hsub walk_nil
  have hall : ∀ p, Path (fun _ => True) 3 p → Behind [] 512 p := by
    rintro (_ | ⟨i, p⟩) hp
    · exact absurd rfl hp.ne_nil
    · exact ⟨i, p, hp.lt i (List.mem_cons_self ..), rfl⟩
  -- the table itself comes last
  obtain ⟨manager, hrun₃, hbegin, hend, hbit⟩ := st₂.freeFrame_eq (h.lt _ c hpc hwc)
  have hrun : st.cleanPageMaps addr = some { st₂ with memoryManager := manager,
                                                      freed := st₂.freed ++ [c] } := by
    rw [cleanPageMaps, if_neg (Nat.not_le.2 (h.reached [] s st.cr3 hpc rfl)), haddr,
      hpres.2, ← hst₁]
    dsimp only
    rw [Option.bind_eq_bind, hrun₂, Option.bind_some, hrun₃]
  have hroot : st₂.mem st.cr3 = st₁.mem st.cr3 := hsh.mem st.cr3 fun t i ht _ hw => by
    rw [hwalk t ht.inner] at hw
    exact h.trie.root ((path_under hs).2 ht.inner) hw
  have hentry : ∀ i, ({ st₂ with memoryManager := manager, freed := st₂.freed ++ [c] } : Mmu).entry
      st.cr3 i =
      st₁.entry st.cr3 i := fun i => entry_congr hroot
  refine ⟨_, hrun, ?_⟩
  refine { bit := fun g => ?_, freed := ?_, self := by rw [hentry, hself], other := fun i hi => ?_,
           rangeBegin := hbegin.trans (by rw [hsh.rangeBegin, hmm]),
           rangeEnd := hend.trans (by rw [hsh.rangeEnd, hmm]),
           cr3 := hsh.cr3.trans hcr3 }
  · have hnone : ∀ p, Path (fun _ => True) 3 p → walk st₂.next c p = none :=
      fun p hp => hsh.gone p hp (hall p hp)
    dsimp only
    rw [hbit]
    split
    · rename_i hg
      refine iff_of_false (by decide) fun hB => ?_
      exact h.apart [s] g hpc (hg ▸ hwc) hB
    · rename_i hg
      rw [hs₂.bit]
      constructor
      · rintro ((hB | hgc) | ⟨p, hp, hw⟩)
        · exact hB
        · exact absurd hgc hg
        · rw [hnone p hp] at hw
          cases hw
      · exact fun hB => .inl (.inl hB)
  · obtain ⟨l, hl, hnd, hmem⟩ := hsh.freed
    have hmem' : ∀ g, g ∈ l ++ [c] ↔ ∃ p, Path (· = s) 4 p ∧ walk st.next st.cr3 p = some g := by
      intro g
      rw [List.mem_append, List.mem_singleton, hmem]
      constructor
      · rintro (⟨p, hp, -, hw⟩ | rfl)
        · exact ⟨s :: p, (path_under hs).2 (.inr hp), by rw [← hwalk p (.inr hp), hw]⟩
        · exact ⟨[s], hpc, hwc⟩
      · rintro ⟨p, hp, hw⟩
        obtain ⟨q, rfl⟩ := hp.eq_cons
        rcases (path_under hs).1 hp with rfl | hq
        · exact .inr (Option.some.inj (hw.symm.trans hwc))
        · exact .inl ⟨q, hq, hall q hq, by rw [hwalk q (.inr hq), hw]⟩
    refine ⟨l ++ [c], ?_, List.nodup_append'.2 ⟨hnd, List.nodup_singleton c, fun g hg hgc => ?_⟩,
      fun g => ?_⟩
    · dsimp only
      rw [hl, List.append_assoc, hfreed]
    · obtain ⟨p, hp, -, hw⟩ := (hmem g).1 hg
      rw [List.mem_singleton.1 hgc] at hw
      exact hsub.trie.root hp hw
    · rw [hmem', h.bit]
      constructor
      · rintro ⟨p, hp, hw⟩
        exact ⟨.inr ⟨p, hp, hw⟩, h.apart p g hp hw⟩
      · rintro ⟨hor, hB⟩
        exact hor.resolve_left hB
  · rw [hentry, hother _ _ fun hne => hi hne.2]

/-! ## After mapping calls -/

/-- `SetupPageMaps(addr, num_4kpages)` succeeds. -/
def Maps (st : Mmu) (call : LinearAddress4Level × Nat) (st' : Mmu) : Prop :=
  st.setupPageMaps call.1 call.2 = some (.ok (), st')

/-- The pages of the call, at least one, lie in the slot `s`. -/
structure InSlot (s : Nat) (call : LinearAddress4Level × Nat) : Prop where
  pos : 0 < call.2
  range : ∀ y, call.1.pageNumber ≤ y → y < call.1.pageNumber + call.2 → y < 512 ^ 4 ∧ slot y = s

/-- What calls of `SetupPageMaps` in the slot `s` have made of `st`. -/
structure Filled (s : Nat) (st st' : Mmu) : Prop where
  space : Space (· = s) 4 st'.cr3 st.InUse st'
  grown : Grown (· = s) 4 st.cr3 (Path (· = s) 4) st st'

theorem Filled.maps {st₁ : Mmu} {call : LinearAddress4Level × Nat}
    (h₀ : Space (· = s) 4 st.cr3 st.InUse st)
    (h : Filled s st st₁) (hin : InSlot s call) (hrun : Maps st₁ call st') :
    Filled s st st' ∧ (st'.next st'.cr3 s).isSome := by
  obtain ⟨addr, n⟩ := call
  obtain ⟨res, hmap, hres⟩ := setupPageMaps_eq hrun
  obtain ⟨m, rfl⟩ := hres.1 rfl
  have hmod : addr.pageNumber % 512 ^ 4 = addr.pageNumber := Nat.mod_eq_of_lt addr.pageNumber_lt
  have hC : ∀ q, Covers [] 4 addr.pageNumber n q → Path (· = s) 4 q := fun q hq =>
    path_of_covers (fun y hlo hhi _ => (hin.range y hlo hhi).2) hq
  have ho := setupPageMap_spec (Nat.le_refl 4) addr n h.space walk_nil (by rwa [hmod]) (by simp)
  rw [hmod, hmap] at ho
  obtain ⟨-, hs, hg, hm⟩ := ho
  have hcr3 := h.grown.cr3
  rw [hcr3] at hs hg hm
  refine ⟨⟨by rwa [hg.cr3, hcr3], h.grown.trans (hg.mono hC) h₀ (hcr3 ▸ h.space)⟩, ?_⟩
  -- the slot is on the way to each page
  have hslot := (hin.range addr.pageNumber (Nat.le_refl _) (Nat.lt_add_of_pos_right hin.pos)).2
  have hc : Covers [] 4 addr.pageNumber n [s] := by
    refine ⟨addr.pageNumber, [s], Nat.le_refl _, Nat.lt_add_of_pos_right hin.pos,
      addr.pageNumber_lt, by simp, ?_, rfl⟩
    rw [pagePath_four, hslot]
    exact List.prefix_append [s] _
  have hsome := hm.isSome hc (by simp)
  rw [walk_cons] at hsome
  rw [hg.cr3, hcr3]
  cases hnext : st'.next st.cr3 s with
  | none => rw [hnext] at hsome; cases hsome
  | some c => rfl

theorem Filled.run (h₀ : Space (· = s) 4 st.cr3 st.InUse st)
    {calls : List (LinearAddress4Level × Nat)} {st₁ : Mmu}
    (h : Filled s st st₁) (hin : ∀ call ∈ calls, InSlot s call) (hrun : Run Maps st₁ calls st') :
    Filled s st st' ∧ (calls ≠ [] → (st'.next st'.cr3 s).isSome) := by
  induction hrun with
  | nil => exact ⟨h, fun hne => absurd rfl hne⟩
  | @cons st₁ st₂ st' call calls hcall hrun ih =>
    obtain ⟨h₂, hsome⟩ := h.maps h₀ (hin call (List.mem_cons_self ..)) hcall
    obtain ⟨h', hsome'⟩ := ih h₂ fun c hc => hin c (List.mem_cons_of_mem _ hc)
    refine ⟨h', fun _ => ?_⟩
    cases calls with
    | nil => cases hrun; exact hsome
    | cons => exact hsome' (by simp)

theorem Maps.reached {call : LinearAddress4Level × Nat} (hpos : 0 < call.2)
    (hrun : Maps st call st') :
    st.cr3 < identityFrames := by
  obtain ⟨res, hmap, -⟩ := setupPageMaps_eq hrun
  rw [setupPageMap, setupLoop, if_neg (Nat.ne_of_gt hpos)] at hmap
  obtain ⟨entry, hentry, -⟩ := Option.bind_eq_some_iff.1 hmap
  rw [setNewPageMapIfNotPresent] at hentry
  exact Nat.lt_of_not_le (Option.ite_none_left_eq_some.1 hentry).1

/-- Mapping pages in an empty slot, in any number of calls, and then cleaning the slot changes
nothing: each frame the calls have allocated is given back once, no other frame is, and the other
slots are as they were. -/
theorem cleanPageMaps_undoes (hcr3 : st.InUse st.cr3) (hs : s < 512)
    (hempty : st.entry st.cr3 s = .empty)
    {calls : List (LinearAddress4Level × Nat)} (hne : calls ≠ [])
    (hin : ∀ call ∈ calls, InSlot s call)
    (hrun : Run Maps st calls st') {addr : LinearAddress4Level} (haddr : addr.part 4 = s) :
    ∃ st'' freed, st'.cleanPageMaps addr = some st'' ∧ st''.freed = st'.freed ++ freed ∧
      freed.Nodup ∧
      (∀ g, g ∈ freed ↔ st'.InUse g ∧ ¬ st.InUse g) ∧ st''.memoryManager = st.memoryManager ∧
      st''.entry st.cr3 s = .empty ∧ ∀ i, i < 512 → i ≠ s →
        st''.entry st.cr3 i = st.entry st.cr3 i := by
  have hreached : st.cr3 < identityFrames := by
    cases hrun with
    | nil => exact absurd rfl hne
    | cons hcall _ => exact hcall.reached (hin _ List.mem_cons_self).pos
  have h₀ : Space (· = s) 4 st.cr3 st.InUse st :=
    space_of_empty hcr3 hreached fun i hi _ => hi ▸ hempty
  obtain ⟨⟨hspace, hgrown⟩, hsome⟩ := Filled.run h₀ ⟨h₀, Grown.refl ..⟩ hin hrun
  obtain ⟨c, hc⟩ := Option.isSome_iff_exists.1 (hsome hne)
  obtain ⟨st'', hclean, h⟩ := cleanPageMaps_spec hspace hs hc haddr
  obtain ⟨l, hl, hnd, hmem⟩ := h.freed
  have hself := h.self
  have hother := h.other
  rw [hgrown.cr3] at hself hother
  refine ⟨st'', l, hclean, hl, hnd, hmem, ?_, hself, fun i hi hne => ?_⟩
  · refine BitmapMemoryManager.eq_of_bit (h.rangeBegin.trans hgrown.rangeBegin)
      (h.rangeEnd.trans hgrown.rangeEnd) fun g => ?_
    rw [Bool.eq_iff_iff]
    exact h.bit g
  · rw [hother i hne, hgrown.entry [] i st.cr3 (.inl rfl) (by decide) walk_nil hi fun hp =>
      hne (hp.head i rfl)]

theorem cleanPageMaps_undoes_blank : ∃ st' st'' freed, Maps blank (⟨0xffff800000000000⟩, 1) st' ∧
    st'.cleanPageMaps ⟨0xffff800000000fff⟩ = some st'' ∧ st''.freed = st'.freed ++ freed ∧
      freed.Nodup ∧
    (∀ g, g ∈ freed ↔ st'.InUse g ∧ ¬ blank.InUse g) ∧ st''.memoryManager = blank.memoryManager ∧
    st''.entry blank.cr3 256 = .empty ∧ ∀ i, i < 512 → i ≠ 256 →
      st''.entry blank.cr3 i = blank.entry blank.cr3 i := by
  obtain ⟨st', hrun, -⟩ :=
    setupPageMaps_total (n := 1) (space_blank fun _ => True) ⟨0xffff800000000000⟩
    (fun _ _ _ _ => trivial) enough_blank
  have hmaps : Maps blank (⟨0xffff800000000000⟩, 1) st' := hrun
  have hin : InSlot 256 (⟨0xffff800000000000⟩, 1) := by
    refine ⟨by decide, fun y hlo hhi => ?_⟩
    have hnum : (LinearAddress4Level.mk 0xffff800000000000).pageNumber = 256 * 512 ^ 3 := by decide
    rw [hnum] at hlo hhi
    rw [slot]
    omega
  have haddr : (LinearAddress4Level.mk 0xffff800000000fff).part 4 = 256 := by decide
  obtain ⟨st'', freed, hclean⟩ :=
    cleanPageMaps_undoes (bit_blank.2 rfl) (by decide) (entry_blank 1 256) (by simp)
    (by simpa using hin) (Run.single hmaps) haddr
  exact ⟨st', st'', freed, hmaps, hclean⟩

end Mmu

end Moxia
