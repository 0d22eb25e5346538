import Moxia.Lib.FirstFit
import Moxia.Lib.Run
import Moxia.Memory.Bits
import Mathlib.Data.List.Pairwise

/-!
# Allocating frames

`Allocate` goes on behind the first occupied frame of a window, and so finds the lowest window of
clear bits (`allocate_spec`). From it, along every run of `Allocate` and `Free`, the set bits are
those set at the start and those of the live allocations, which are pairwise disjoint
(`allocator_spec`).
-/

namespace Moxia

open Lib

namespace BitmapMemoryManager

variable {m m' : BitmapMemoryManager} {n s : Nat}

/-- The frame's bit is clear. -/
def Clear (m : BitmapMemoryManager) (f : Nat) : Prop := m.bit f = false

/-- What the inner loop of `Allocate` finds out, entered at `i`. -/
theorem scanRun_spec (m : BitmapMemoryManager) (s : Nat) : ∀ left i, match m.scanRun s i left with
    | some .found =>
        ∀ j, i ≤ j → j < i + left → s + j < m.rangeEnd ∧ s + j < kFrameCount ∧ m.Clear (s + j)
    | some .outOfRange => ∃ j, j < i + left ∧ m.rangeEnd ≤ s + j ∧ (j = i ∨ s + j ≤ kFrameCount)
    | some (.busy j) => j < i + left ∧ s + j < m.rangeEnd ∧ s + j < kFrameCount ∧ ¬ m.Clear (s + j)
    | none => kFrameCount < m.rangeEnd := by
  intro left
  induction left with
  | zero => exact fun i j hlo hhi => by omega
  | succ left ih =>
    intro i
    rw [scanRun]
    by_cases hend : s + i ≥ m.rangeEnd
    · rw [if_pos hend]
      exact ⟨i, by omega, hend, .inl rfl⟩
    rw [if_neg hend, getBit_eq]
    by_cases hmap : s + i < kFrameCount
    swap
    · rw [if_neg hmap]
      show kFrameCount < m.rangeEnd
      omega
    rw [if_pos hmap]
    cases hbit : m.bit (s + i) with
    | true => exact ⟨by omega, by omega, hmap, by rw [Clear, hbit]; decide⟩
    | false =>
      show match m.scanRun s (i + 1) left with
        | some .found => _ | some .outOfRange => _ | some (.busy j) => _ | none => _
      specialize ih (i + 1)
      split at ih
      · intro j hlo hhi
        by_cases hj : j = i
        · subst hj
          exact ⟨by omega, hmap, hbit⟩
        · exact ih j (by omega) (by omega)
      · obtain ⟨j, hj, hout, hmap'⟩ := ih
        exact ⟨j, by omega, hout, .inr (by omega)⟩
      · obtain ⟨hj, hbusy⟩ := ih
        exact ⟨by omega, hbusy⟩
      · exact ih

theorem setBits_of_past (m : BitmapMemoryManager) (b : Bool) (start : Nat) :
    ∀ n, 0 < n → kFrameCount < start + n →
    m.setBits b start n = none
  | 0, hn, _ => absurd hn (Nat.lt_irrefl 0)
  | n + 1, _, h => by
    by_cases hpast : n = 0 ∨ start + n ≤ kFrameCount
    · have hlast : kFrameCount ≤ start + n := by omega
      rw [setBits]
      cases m.setBits b start n with
      | none => rfl
      | some m' => exact m'.setBit_eq_none hlast b
    · rw [setBits, setBits_of_past m b start n (by omega) (by omega)]
      rfl

/-- What a search for `n` frames from `s` on finds, given enough rounds. Only a scan that leaves the
map gets stuck. -/
theorem allocateFrom_spec (m : BitmapMemoryManager) (hn : 1 ≤ n) : ∀ fuel s, 0 < fuel →
    m.rangeEnd < s + fuel →
    match m.allocateFrom n fuel s with
    | some (.ok (r, m')) => FirstFit m.Clear s m.rangeEnd n (some r) ∧ r + n ≤ kFrameCount ∧
        m.markAllocated r n = some m'
    | some (.error err) => err = .kNoEnoughMemory ∧ FirstFit m.Clear s m.rangeEnd n none ∧
        (s ≤ kFrameCount → m.rangeEnd ≤ kFrameCount)
    | none => kFrameCount < m.rangeEnd ∧ ∃ s, m.scanRun s 0 n = none := by
  intro fuel
  induction fuel with
  | zero => exact fun s h => absurd h (Nat.lt_irrefl 0)
  | succ fuel ih =>
    intro s _ hfuel
    have hscan := m.scanRun_spec s n 0
    rw [allocateFrom]
    rcases hrun : m.scanRun s 0 n with _ | _ | j | _ <;> rw [hrun] at hscan
    · exact ⟨hscan, s, hrun⟩
    · obtain ⟨j, hj, hout, hmap⟩ := hscan
      exact ⟨rfl, .past (by omega), fun hs => by omega⟩
    · -- the search goes on behind frame `s + j`
      obtain ⟨hj, hend, hmap, hbusy⟩ := hscan
      have hskip : ∀ r, FirstFit m.Clear (s + j + 1) m.rangeEnd n r →
        FirstFit m.Clear s m.rangeEnd n r :=
        fun r h => h.skip (by omega) (by omega) hbusy
      have ih := ih (s + j + 1) (by omega) (by omega)
      simp only [Option.bind_eq_bind, Option.bind_some]
      split at ih
      · exact ⟨hskip _ ih.1, ih.2⟩
      · exact ⟨ih.1, hskip _ ih.2.1, fun _ => ih.2.2 (by omega)⟩
      · exact ih
    · have hlast := hscan (n - 1) (by omega) (by omega)
      have hw : Window m.Clear m.rangeEnd n s := by
        refine ⟨by omega, fun f hlo hhi => ?_⟩
        have := (hscan (f - s) (by omega) (by omega)).2.2
        rwa [Nat.add_sub_cancel' hlo] at this
      obtain ⟨m', hm', -⟩ := m.markAllocated_spec s (n := n) (by omega)
      rw [Option.bind_eq_bind, Option.bind_some, hm']
      exact ⟨.here hw, by omega, hm'⟩

theorem allocate_cases (m : BitmapMemoryManager) (hn : 1 ≤ n) : match m.allocate n with
    | some (.ok (r, m')) =>
        FirstFit m.Clear m.rangeBegin m.rangeEnd n (some r) ∧ r + n ≤ kFrameCount ∧
        m.markAllocated r n = some m'
    | some (.error err) =>
        err = .kNoEnoughMemory ∧ FirstFit m.Clear m.rangeBegin m.rangeEnd n none ∧
        (m.rangeBegin ≤ kFrameCount → m.rangeEnd ≤ kFrameCount)
    | none => kFrameCount < m.rangeEnd ∧ ∃ s, m.scanRun s 0 n = none :=
  m.allocateFrom_spec hn _ _ (Nat.succ_pos _) (by omega)

/-- With a range inside the map `Allocate` returns the lowest free window, or says that there is
none. -/
theorem allocate_spec (m : BitmapMemoryManager) (hend : m.rangeEnd ≤ kFrameCount) (hn : 1 ≤ n) :
    (∃ s m', m.allocate n = some (.ok (s, m')) ∧
      FirstFit m.Clear m.rangeBegin m.rangeEnd n (some s) ∧
      m'.rangeBegin = m.rangeBegin ∧ m'.rangeEnd = m.rangeEnd ∧
      ∀ f, m'.bit f = if s ≤ f ∧ f < s + n then true else m.bit f) ∨
    (m.allocate n = some (.error .kNoEnoughMemory) ∧
      FirstFit m.Clear m.rangeBegin m.rangeEnd n none) := by
  have hcases := m.allocate_cases hn
  rcases hrun : m.allocate n with _ | err | ⟨s, m'⟩ <;> rw [hrun] at hcases
  · exact absurd hend (Nat.not_le.2 hcases.1)
  · exact .inr ⟨by rw [hcases.1], hcases.2.1⟩
  · obtain ⟨hfit, hmap, hmark⟩ := hcases
    obtain ⟨m₁, hm₁, hbegin, hend, hbit⟩ := m.markAllocated_spec s hmap
    obtain rfl := Option.some.inj (hmark.symm.trans hm₁)
    exact .inl ⟨s, m', rfl, hfit, hbegin, hend, hbit⟩

theorem scanRun_ne_none (m : BitmapMemoryManager) (s : Nat) : ∀ left i, s + i + left ≤ kFrameCount →
    m.scanRun s i left ≠ none
  | 0, _, _ => by simp [scanRun]
  | left + 1, i, h => by
    rw [scanRun]
    split
    · simp
    · rw [getBit_eq, if_pos (by omega), Option.bind_eq_bind, Option.bind_some]
      split
      · simp
      · exact m.scanRun_ne_none s left (i + 1) (by omega)

/-- With a window that the map covers the search succeeds, however far the range goes. -/
theorem allocateFrom_window (m : BitmapMemoryManager) {g : Nat} (hw : Window m.Clear m.rangeEnd n g)
    (hmap : g + n ≤ kFrameCount) :
    ∀ fuel s, s ≤ g → g < s + fuel → ∃ r, m.allocateFrom n fuel s = some (.ok r) := by
  intro fuel
  induction fuel with
  | zero => exact fun s hs hfuel => absurd hfuel (by omega)
  | succ fuel ih =>
    intro s hs hfuel
    have hle := hw.le
    have hscan := m.scanRun_spec s n 0
    rw [allocateFrom]
    rcases hrun : m.scanRun s 0 n with _ | _ | j | _ <;> rw [hrun] at hscan
    · exact absurd hrun (m.scanRun_ne_none s n 0 (by omega))
    · obtain ⟨j, hj, hout, -⟩ := hscan
      omega
    · obtain ⟨hj, -, -, hbusy⟩ := hscan
      have hlt : s + j < g := by
        by_contra hge
        exact hbusy (hw.all (s + j) (by omega) (by omega))
      exact ih (s + j + 1) (by omega) (by omega)
    · obtain ⟨m', hm', -⟩ := m.markAllocated_spec s (n := n) (by omega)
      exact ⟨(s, m'), by rw [Option.bind_eq_bind, Option.bind_some, hm']; rfl⟩

theorem allocate_window (m : BitmapMemoryManager) {g : Nat} (hw : Window m.Clear m.rangeEnd n g)
    (hbegin : m.rangeBegin ≤ g)
    (hmap : g + n ≤ kFrameCount) (hn : 1 ≤ n) : ∃ r, m.allocate n = some (.ok r) := by
  have := hw.le
  exact m.allocateFrom_window hw hmap _ _ hbegin (by omega)

theorem free_spec (m : BitmapMemoryManager) (start : Nat) {n : Nat} (h : start + n ≤ kFrameCount) :
    ∃ m', m.free start n = some m' ∧ m'.rangeBegin = m.rangeBegin ∧ m'.rangeEnd = m.rangeEnd ∧
      ∀ g, m'.bit g = if start ≤ g ∧ g < start + n then false else m.bit g :=
  m.setBits_spec false start n h

end BitmapMemoryManager

open BitmapMemoryManager

/-- The manager and the allocations that have not been freed, as first frame and length. -/
structure Allocations where
  manager : BitmapMemoryManager
  live : List (Nat × Nat) := []

namespace Allocations

variable {st st' : Allocations} {m₀ : BitmapMemoryManager}

inductive Event
  | allocate (numFrames : Nat)
  | free (startFrame numFrames : Nat)

def step (st : Allocations) : Event → Option Allocations
  | .allocate numFrames => do
    match ← st.manager.allocate numFrames with
    | .ok (startFrame, m) => some { manager := m, live := (startFrame, numFrames) :: st.live }
    | .error _ => some st
  | .free startFrame numFrames => do
    let m ← st.manager.free startFrame numFrames
    some { manager := m, live := st.live.erase (startFrame, numFrames) }

/-- At least one frame is asked for, and only live allocations are freed. -/
def Allowed (st : Allocations) : Event → Prop
  | .allocate numFrames => 1 ≤ numFrames
  | .free startFrame numFrames => (startFrame, numFrames) ∈ st.live

instance (st : Allocations) : ∀ e, Decidable (st.Allowed e)
  | .allocate _ => inferInstanceAs (Decidable (_ ≤ _))
  | .free _ _ => inferInstanceAs (Decidable (_ ∈ _))

def Step : Allocations → Event → Allocations → Prop := Guarded Allowed fun st e st' =>
    st.step e = some st'

/-- Frame `f` belongs to the allocation. -/
def Holds (a : Nat × Nat) (f : Nat) : Prop := a.1 ≤ f ∧ f < a.1 + a.2

instance (a : Nat × Nat) (f : Nat) : Decidable (Holds a f) := inferInstanceAs (Decidable (_ ∧ _))

def Disjoint (a b : Nat × Nat) : Prop := ∀ f, Holds a f → ¬ Holds b f

/-- The bits are those set at the start and those of the live allocations, all apart from each
other. -/
structure Inv (m₀ : BitmapMemoryManager) (st : Allocations) : Prop where
  rangeBegin : st.manager.rangeBegin = m₀.rangeBegin
  rangeEnd : st.manager.rangeEnd = m₀.rangeEnd
  bit : ∀ f, st.manager.bit f = true ↔ m₀.bit f = true ∨ ∃ a ∈ st.live, Holds a f
  disjoint : st.live.Pairwise Disjoint
  fresh : ∀ a ∈ st.live, a.1 + a.2 ≤ m₀.rangeEnd ∧ ∀ f, Holds a f → m₀.bit f = false
  pos : ∀ a ∈ st.live, 1 ≤ a.2

instance : Std.Symm Disjoint := ⟨fun _ _ h f hb ha => h f ha hb⟩

theorem Inv.start (m₀ : BitmapMemoryManager) : Inv m₀ { manager := m₀ } where
  rangeBegin := rfl
  rangeEnd := rfl
  bit f := by simp
  disjoint := .nil
  fresh a ha := by cases ha
  pos a ha := by cases ha

theorem Inv.nodup (h : Inv m₀ st) : st.live.Nodup := by
  refine h.disjoint.imp_of_mem fun {a b} ha _ hdis heq => ?_
  subst heq
  have hpos := h.pos a ha
  have hfirst : Holds a a.1 := ⟨Nat.le_refl _, by omega⟩
  exact hdis a.1 hfirst hfirst

theorem Inv.eq_of_holds (h : Inv m₀ st) {a b : Nat × Nat} {f : Nat} (ha : a ∈ st.live)
    (hb : b ∈ st.live)
    (haf : Holds a f) (hbf : Holds b f) : a = b := by
  by_contra hne
  exact h.disjoint.forall ha hb hne f haf hbf

theorem Inv.allocate (h : Inv m₀ st) (hend : m₀.rangeEnd ≤ kFrameCount) {n : Nat} (hn : 1 ≤ n)
    (hs : st.step (.allocate n) = some st') : Inv m₀ st' := by
  rcases st.manager.allocate_spec (h.rangeEnd ▸ hend) hn with ⟨s, m', hrun, hfit, hbegin', hend',
    hbit⟩ | ⟨hrun, -⟩
  swap
  · rw [step, hrun] at hs
    cases hs
    exact h
  rw [step, hrun] at hs
  cases hs
  obtain ⟨⟨-, hw⟩, -⟩ := hfit
  have hclear : ∀ f, Holds (s, n) f → st.manager.bit f = false := fun f hf => hw.all f hf.1 hf.2
  have hnew : ∀ f, Holds (s, n) f → m₀.bit f = false ∧ ∀ a ∈ st.live, ¬ Holds a f := by
    intro f hf
    have hnot := mt (h.bit f).2 (by rw [hclear f hf]; decide)
    rw [not_or, Bool.not_eq_true] at hnot
    exact ⟨hnot.1, fun a ha haf => hnot.2 ⟨a, ha, haf⟩⟩
  refine ⟨hbegin'.trans h.rangeBegin, hend'.trans h.rangeEnd, fun f => ?_, ?_, ?_, ?_⟩
  · have hlive : (∃ a ∈ (s, n) :: st.live, Holds a f) ↔ Holds (s, n) f ∨ ∃ a ∈ st.live,
      Holds a f := by simp
    have hbit : m'.bit f = if Holds (s, n) f then true else st.manager.bit f := hbit f
    rw [hbit, hlive]
    by_cases hf : Holds (s, n) f
    · rw [if_pos hf]
      simp only [hf, true_or, or_true]
    · rw [if_neg hf, h.bit]
      simp only [hf, false_or]
  · exact .cons (fun a ha f hf haf => (hnew f hf).2 a ha haf) h.disjoint
  · rw [List.forall_mem_cons]
    exact ⟨⟨by rw [← h.rangeEnd]; exact hw.le, fun f hf => (hnew f hf).1⟩, h.fresh⟩
  · rw [List.forall_mem_cons]
    exact ⟨hn, h.pos⟩

theorem Inv.free (h : Inv m₀ st) (hend : m₀.rangeEnd ≤ kFrameCount) {a : Nat × Nat}
    (ha : a ∈ st.live)
    (hs : st.step (.free a.1 a.2) = some st') : Inv m₀ st' := by
  have hle := (h.fresh a ha).1
  obtain ⟨m', hrun, hbegin', hend', hbit⟩ := st.manager.free_spec a.1 (n := a.2) (by omega)
  rw [step, hrun] at hs
  cases hs
  have hmem : ∀ b, b ∈ st.live.erase a ↔ b ≠ a ∧ b ∈ st.live := fun b => h.nodup.mem_erase_iff
  refine ⟨hbegin'.trans h.rangeBegin, hend'.trans h.rangeEnd, fun f => ?_, ?_, ?_, ?_⟩
  · have hbit : m'.bit f = if Holds a f then false else st.manager.bit f := hbit f
    rw [hbit]
    by_cases hf : Holds a f
    · have hout : ∀ b ∈ st.live.erase a, ¬ Holds b f := fun b hb hbf =>
        ((hmem b).1 hb).1 (h.eq_of_holds ((hmem b).1 hb).2 ha hbf hf)
      rw [if_pos hf, (h.fresh a ha).2 f hf]
      simpa using hout
    · rw [if_neg hf, h.bit]
      refine or_congr_right ⟨?_, ?_⟩
      · rintro ⟨b, hb, hbf⟩
        refine ⟨b, (hmem b).2 ⟨?_, hb⟩, hbf⟩
        rintro rfl
        exact hf hbf
      · rintro ⟨b, hb, hbf⟩
        exact ⟨b, ((hmem b).1 hb).2, hbf⟩
  · exact h.disjoint.sublist List.erase_sublist
  · exact fun b hb => h.fresh b ((hmem b).1 hb).2
  · exact fun b hb => h.pos b ((hmem b).1 hb).2

theorem Inv.run (h : Inv m₀ st) (hend : m₀.rangeEnd ≤ kFrameCount) {es : List Event}
    (hrun : Run Step st es st') :
    Inv m₀ st' := by
  refine hrun.inv (I := Inv m₀) (fun s e s' hs hstep => ?_) h
  cases e with
  | allocate n => exact hs.allocate hend hstep.1 hstep.2
  | free a n => exact hs.free hend (a := (a, n)) hstep.1 hstep.2

end Allocations

/-- `Allocate(n)` succeeds if and only if `n` consecutive frames of the range are clear. It then
returns the lowest such window and sets its bits; otherwise it returns `kNoEnoughMemory` and no
manager. -/
def AllocateOk (m : BitmapMemoryManager) (n : Nat) : Prop :=
  (∃ s m', m.allocate n = some (.ok (s, m')) ∧ FirstFit m.Clear m.rangeBegin m.rangeEnd n (some s) ∧
    ∀ f, m'.bit f = if s ≤ f ∧ f < s + n then true else m.bit f) ∨
  (m.allocate n = some (.error .kNoEnoughMemory) ∧ FirstFit m.Clear m.rangeBegin m.rangeEnd n none)

def FreeOk (m : BitmapMemoryManager) (startFrame n : Nat) : Prop :=
  ∃ m', m.free startFrame n = some m' ∧
    ∀ f, m'.bit f = if startFrame ≤ f ∧ f < startFrame + n then false else m.bit f

/-- Along every run from any bitmap, the live allocations and the bits agree, and every call does
what it should. -/
theorem allocator_spec {m₀ : BitmapMemoryManager} (hend : m₀.rangeEnd ≤ kFrameCount)
    {es : List Allocations.Event}
    {st : Allocations} (hrun : Run Allocations.Step { manager := m₀ } es st) :
    (∀ f, st.manager.bit f = true ↔ m₀.bit f = true ∨ ∃ a ∈ st.live, Allocations.Holds a f) ∧
      st.live.Pairwise Allocations.Disjoint ∧
      st.manager.rangeBegin = m₀.rangeBegin ∧ st.manager.rangeEnd = m₀.rangeEnd ∧
      (∀ n, 1 ≤ n → AllocateOk st.manager n) ∧ ∀ a ∈ st.live, FreeOk st.manager a.1 a.2 := by
  have h := (Allocations.Inv.start m₀).run hend hrun
  refine ⟨h.bit, h.disjoint, h.rangeBegin, h.rangeEnd, fun n hn => ?_, fun a ha => ?_⟩
  · rcases st.manager.allocate_spec (h.rangeEnd ▸ hend) hn
      with ⟨s, m', hrun, hfit, -, -, hbit⟩ | hnone
    · exact .inl ⟨s, m', hrun, hfit, hbit⟩
    · exact .inr hnone
  · have hle := (h.fresh a ha).1
    obtain ⟨m', hm', -, -, hbit⟩ := st.manager.free_spec a.1 (n := a.2) (by omega)
    exact ⟨m', hm', hbit⟩

/-- Frames 1 to 7: two windows are taken, the first is given back and partly taken again. -/
theorem allocator_spec_small : ∃ st, Run Allocations.Step { manager := new.setMemoryRange 1 8 }
    [.allocate 3, .allocate 2, .free 1 3, .allocate 2] st ∧ st.live = [(1, 2), (4, 2)] ∧
      st.live.Pairwise Allocations.Disjoint ∧ AllocateOk st.manager 3 := by
  have hexec : ((Run.exec Allocations.Allowed Allocations.step { manager := new.setMemoryRange 1 8 }
      [.allocate 3, .allocate 2, .free 1 3, .allocate 2]).any fun st => st.live = [(1, 2), (4, 2)])
        = true := by decide
  obtain ⟨st, hrun, hlive⟩ := Run.exists_of_exec hexec
  obtain ⟨-, hdis, -, -, halloc, -⟩ := allocator_spec (by decide) hrun
  exact ⟨st, hrun, hlive, hdis, halloc 3 (by decide)⟩

end Moxia
