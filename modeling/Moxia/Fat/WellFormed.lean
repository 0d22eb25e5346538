import Moxia.Fat.Chains

/-!
# Well-formed volumes

The directories are the root and what live directory entries of directories lead to. In a
well-formed volume the chains of the live entries and of the root are sound, long enough and
disjoint, and a directory is all zeros behind its first unused slot. Deleted slots may hold
anything.
-/

namespace Moxia.Fat

open Lib

namespace Volume

variable {v : Volume} {s t : Slot} {d : Nat} {l m : List Nat}

def slotsPerCluster (v : Volume) : Nat := v.bytesPerCluster / kEntrySize

/-- The slots of the directory with the clusters `l`, in order. -/
def slots (v : Volume) (l : List Nat) : List Slot :=
  l.flatMap fun c => (List.range v.slotsPerCluster).map fun i => ⟨c, i⟩

theorem mem_slots : s ∈ v.slots l ↔ s.cluster ∈ l ∧ s.index < v.slotsPerCluster := by
  obtain ⟨c, i⟩ := s
  simp [slots]

def InUse (v : Volume) (s : Slot) : Prop := v.name s 0 ≠ 0 ∧ v.name s 0 ≠ 0xe5

/-- The names `.` and `..`, padded with spaces. -/
def IsDots (v : Volume) (s : Slot) : Prop :=
  v.name s 0 = 0x2e ∧ (v.name s 1 = 0x20 ∨ v.name s 1 = 0x2e) ∧ ∀ i, i < 11 → 2 ≤ i →
    v.name s i = 0x20

/-- An entry of its own: in use, neither `.` nor `..`, and no long name or volume label. -/
def HasEntry (v : Volume) (s : Slot) : Prop := v.InUse s ∧ ¬ v.IsDots s ∧ v.attr s &&& kVolumeID = 0

def IsDirectory (v : Volume) (s : Slot) : Prop := v.attr s &&& kDirectory ≠ 0

instance (v : Volume) (s : Slot) : Decidable (v.InUse s) := inferInstanceAs (Decidable (_ ∧ _))
instance (v : Volume) (s : Slot) : Decidable (v.IsDots s) := inferInstanceAs (Decidable (_ ∧ _))
instance (v : Volume) (s : Slot) : Decidable (v.HasEntry s) := inferInstanceAs (Decidable (_ ∧ _))
instance (v : Volume) (s : Slot) : Decidable (v.IsDirectory s) :=
  inferInstanceAs (Decidable (_ ≠ _))

inductive IsDir (v : Volume) : Nat → Prop
  | root : IsDir v v.rootCluster
  | sub {d : Nat} {l : List Nat} {s : Slot} (hd : IsDir v d) (hl : v.IsChain d l)
      (hs : s ∈ v.slots l)
      (he : v.HasEntry s) (ha : v.IsDirectory s) (h0 : v.firstCluster s ≠ 0) :
      IsDir v (v.firstCluster s)

/-- A live directory entry. -/
def Live (v : Volume) (s : Slot) : Prop :=
  ∃ d l, v.IsDir d ∧ v.IsChain d l ∧ s ∈ v.slots l ∧ v.HasEntry s

/-- The clusters of an entry. -/
def EntryChain (v : Volume) (s : Slot) (l : List Nat) : Prop :=
  (v.firstCluster s = 0 ∧ l = []) ∨ v.IsChain (v.firstCluster s) l

structure WellFormed (v : Volume) : Prop where
  pos : 0 < v.bytesPerCluster
  aligned : kEntrySize ∣ v.bytesPerCluster
  numbers : v.NumbersOk
  root : ∃ l, v.IsChain v.rootCluster l
  chain : ∀ s, v.Live s → ∃ l, v.EntryChain s l
  size : ∀ s l, v.Live s → v.EntryChain s l → v.fileSize s ≤ l.length * v.bytesPerCluster
  disjoint : ∀ s t l m, v.Live s → v.Live t → s ≠ t → v.EntryChain s l →
    v.EntryChain t m → l.Disjoint m
  rootDisjoint : ∀ s l m, v.Live s → v.EntryChain s l → v.IsChain v.rootCluster m → l.Disjoint m
  zeros : ∀ d l, v.IsDir d → v.IsChain d l → (v.slots l).Pairwise fun s t =>
    v.name s 0 = 0 → ∀ o, o < kEntrySize → v.data t.cluster (t.offset + o) = 0

theorem EntryChain.unique (h : v.EntryChain s l) (h' : v.EntryChain s m) : l = m := by
  rcases h with ⟨h0, rfl⟩ | h <;> rcases h' with ⟨h0', rfl⟩ | h'
  · rfl
  · have := h'.inRange_head.1
    omega
  · have := h.inRange_head.1
    omega
  · exact h.unique h'

theorem EntryChain.inRange (h : v.EntryChain s l) : ∀ c ∈ l, v.InRange c := by
  rcases h with ⟨-, rfl⟩ | h
  · simp
  · exact h.inRange

theorem EntryChain.fat_ne_zero (h : v.EntryChain s l) : ∀ c ∈ l, v.fat c ≠ 0 := by
  rcases h with ⟨-, rfl⟩ | h
  · simp
  · exact fun c => h.fat_ne_zero

theorem EntryChain.nodup (h : v.EntryChain s l) : l.Nodup := by
  rcases h with ⟨-, rfl⟩ | h
  · exact List.nodup_nil
  · exact h.chain.nodup

namespace WellFormed

theorem dirChain (h : v.WellFormed) (hd : v.IsDir d) : ∃ l, v.IsChain d l := by
  cases hd with
  | root => exact h.root
  | @sub d l s hd hl hs he ha h0 =>
    obtain ⟨m, hm⟩ := h.chain s ⟨d, l, hd, hl, hs, he⟩
    exact ⟨m, hm.resolve_left fun h => h0 h.1⟩

/-- No entry lies in its own chain: a directory that did would not be reached from the root. -/
theorem apart (h : v.WellFormed) (hs : v.Live s) (hl : v.EntryChain s l) : s.cluster ∉ l := by
  obtain ⟨d, m, hd, hm, hsm, he⟩ := id hs
  intro hmem
  induction hd generalizing m with
  | root => exact h.rootDisjoint s l m hs hl hm hmem (mem_slots.1 hsm).1
  | @sub d' m' t hd' hm' ht het ha h0 ih =>
    by_cases hne : s = t
    · subst hne
      exact ih m' hm' ht
    · exact h.disjoint s t l m hs ⟨d', m', hd', hm', ht, het⟩ hne hl (.inr hm) hmem
        (mem_slots.1 hsm).1

/-- The chain of a regular file is disjoint from all directories. -/
theorem fileDisjoint (h : v.WellFormed) (hs : v.Live s) (ha : ¬ v.IsDirectory s)
    (hl : v.EntryChain s l)
    (hd : v.IsDir d) (hm : v.IsChain d m) : l.Disjoint m := by
  cases hd with
  | root => exact h.rootDisjoint s l m hs hl hm
  | @sub d l' t hd hl' ht he hta h0 =>
    have hne : s ≠ t := by
      rintro rfl
      exact ha hta
    exact h.disjoint s t l m hs ⟨d, l', hd, hl', ht, he⟩ hne hl (.inr hm)

end WellFormed

end Volume

end Moxia.Fat
