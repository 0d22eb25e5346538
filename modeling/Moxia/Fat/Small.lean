import Moxia.Fat.WellFormed

/-!
# Small volumes

Volumes with clusters of 512 bytes whose only directory is a root directory of one cluster. What
makes such a volume well-formed can be checked entry by entry (`small_wellFormed`).
-/

namespace Moxia.Fat

open Lib Volume

/-- The root directory starts with the entries `root`; all other bytes are zero. -/
def small (n : Nat) (fat : List Nat) (root : List UInt8) : Volume where
  bpb := { bytesPerSector := 512, sectorsPerCluster := 1, reservedSectorCount := 32, numFats := 1,
           fatSize32 := 1,
           rootCluster := 2 }
  numClusters := n
  fat := fun c => fat.getD c 0
  data := fun c o => if c = 2 then root.getD o 0 else 0

/-- An entry: its 11 name bytes, attribute, first cluster and size. -/
def entryBytes (name : List UInt8) (attr : UInt8) (cluster size : Nat) : List UInt8 :=
  name ++ [attr, 0, 0, 0, 0, 0, 0, 0, 0, UInt8.ofNat (cluster / 2 ^ 16),
    UInt8.ofNat (cluster / 2 ^ 24), 0, 0, 0, 0,
    UInt8.ofNat cluster, UInt8.ofNat (cluster / 2 ^ 8), UInt8.ofNat size,
      UInt8.ofNat (size / 2 ^ 8),
    UInt8.ofNat (size / 2 ^ 16), UInt8.ofNat (size / 2 ^ 24)]

theorem isChain_singleton {v : Volume} {c : Nat} (hend : isEndOfClusterchain (v.fat c) = true)
    (hc : v.InRange c) :
    v.IsChain c [c] :=
  ⟨.last (if_pos hend), fun _ hmem => List.mem_singleton.1 hmem ▸ hc⟩

variable {n k j : Nat} {fat : List Nat} {root : List UInt8} {m : List Nat}

theorem small_root (hn : 1 ≤ n) (hend : isEndOfClusterchain (fat.getD 2 0) = true) :
    (small n fat root).IsChain 2 [2] :=
  isChain_singleton hend ⟨Nat.le_refl 2, show 2 < n + 2 by omega⟩

theorem small_bytesPerCluster : (small n fat root).bytesPerCluster = 512 := by
  simp [small, Volume.bytesPerCluster]

theorem small_slotsPerCluster : (small n fat root).slotsPerCluster = 16 := by
  rw [slotsPerCluster, small_bytesPerCluster, kEntrySize]

theorem small_slots (hn : 1 ≤ n) (hend : isEndOfClusterchain (fat.getD 2 0) = true)
    {l : List Nat} {s : Slot}
    (hl : (small n fat root).IsChain 2 l) (hs : s ∈ (small n fat root).slots l) :
    ∃ i, i < 16 ∧ s = ⟨2, i⟩ := by
  rw [hl.unique (small_root hn hend)] at hs
  obtain ⟨hc, hi⟩ := mem_slots.1 hs
  obtain ⟨c, i⟩ := s
  obtain rfl : c = 2 := List.mem_singleton.1 hc
  exact ⟨i, small_slotsPerCluster ▸ hi, rfl⟩

theorem small_isDir (hn : 1 ≤ n) (hend : isEndOfClusterchain (fat.getD 2 0) = true)
    (hflat : ∀ i, i < 16 → (small n fat root).HasEntry ⟨2, i⟩ →
    ¬ (small n fat root).IsDirectory ⟨2, i⟩) {d : Nat}
    (hd : (small n fat root).IsDir d) : d = 2 := by
  induction hd with
  | root => rfl
  | @sub d l s hd hl hs he ha h0 ih =>
    subst ih
    obtain ⟨i, hi, rfl⟩ := small_slots hn hend hl hs
    exact absurd ha (hflat i hi he)

theorem small_live (hn : 1 ≤ n) (hend : isEndOfClusterchain (fat.getD 2 0) = true)
    (hflat : ∀ i, i < 16 → (small n fat root).HasEntry ⟨2, i⟩ →
    ¬ (small n fat root).IsDirectory ⟨2, i⟩) {s : Slot} :
    (small n fat root).Live s ↔ ∃ i, i < 16 ∧ s = ⟨2, i⟩ ∧ (small n fat root).HasEntry s := by
  constructor
  · rintro ⟨d, l, hd, hl, hs, he⟩
    obtain rfl := small_isDir hn hend hflat hd
    obtain ⟨i, hi, rfl⟩ := small_slots hn hend hl hs
    exact ⟨i, hi, rfl, he⟩
  · rintro ⟨i, hi, rfl, he⟩
    exact ⟨2, [2], .root, small_root hn hend,
      mem_slots.2 ⟨List.mem_singleton_self 2, small_slotsPerCluster.symm ▸ hi⟩, he⟩

/-- One file at most, in slot `j`, among `k` slots that are not unused. -/
theorem small_wellFormed (hn : 1 ≤ n) (hN : n + 2 ≤ 0x0ffffff8)
    (hend : isEndOfClusterchain (fat.getD 2 0) = true) (hlen : root.length = k * kEntrySize)
    (hused : ∀ i, i < k → root.getD (i * kEntrySize) 0 ≠ 0)
    (hone : ∀ i, i < 16 → (small n fat root).HasEntry ⟨2, i⟩ → i = j ∧
      ¬ (small n fat root).IsDirectory ⟨2, i⟩ ∧ (small n fat root).EntryChain ⟨2, i⟩ m ∧
      (small n fat root).fileSize ⟨2, i⟩ ≤ m.length * 512 ∧ 2 ∉ m) :
        (small n fat root).WellFormed := by
  have hroot : (small n fat root).IsChain 2 [2] := small_root hn hend
  have hlive : ∀ {s}, (small n fat root).Live s ↔ ∃ i, i < 16 ∧ s = ⟨2, i⟩ ∧
    (small n fat root).HasEntry s :=
    small_live hn hend fun i hi he => (hone i hi he).2.1
  have hB : (small n fat root).bytesPerCluster = 512 := small_bytesPerCluster
  refine ⟨by omega, ⟨16, by rw [hB, kEntrySize]⟩, hN, ⟨[2], hroot⟩, ?_, ?_, ?_, ?_, ?_⟩
  · intro s hs
    obtain ⟨i, hi, rfl, he⟩ := hlive.1 hs
    exact ⟨m, (hone i hi he).2.2.1⟩
  · intro s l hs hl
    obtain ⟨i, hi, rfl, he⟩ := hlive.1 hs
    rw [hl.unique (hone i hi he).2.2.1, hB]
    exact (hone i hi he).2.2.2.1
  · intro s t l l' hs ht hne
    obtain ⟨i, hi, rfl, he⟩ := hlive.1 hs
    obtain ⟨i', hi', rfl, he'⟩ := hlive.1 ht
    exact absurd (by rw [(hone i hi he).1, (hone i' hi' he').1]) hne
  · intro s l l' hs hl hl' c hc hc'
    obtain ⟨i, hi, rfl, he⟩ := hlive.1 hs
    rw [hl.unique (hone i hi he).2.2.1] at hc
    rw [hl'.unique hroot, List.mem_singleton] at hc'
    exact (hone i hi he).2.2.2.2 (hc' ▸ hc)
  · intro d l hd hl
    obtain rfl := small_isDir hn hend (fun i hi he => (hone i hi he).2.1) hd
    rw [hl.unique hroot]
    have hslots : (small n fat root).slots [2] = (List.range 16).map fun i => ⟨2, i⟩ := by
      simp [slots, small_slotsPerCluster]
    rw [hslots, List.pairwise_map]
    refine List.pairwise_lt_range.imp ?_
    intro a b hab hzero o _
    have hk : k ≤ a := by
      by_contra hlt
      exact hused a (by omega) hzero
    show root.getD (b * kEntrySize + o) 0 = 0
    have := Nat.mul_le_mul_right kEntrySize hk
    have := Nat.mul_le_mul_right kEntrySize (Nat.le_of_lt hab)
    rw [List.getD_eq_getElem?_getD, List.getElem?_eq_none (by omega), Option.getD_none]

/-! ### A volume with one file -/

/-- `A`, the name of the file. -/
def nameA : List UInt8 := 0x41 :: List.replicate 10 0x20

/-- Four clusters; the file `A` has 3 bytes in cluster 3. -/
def oneFile : Volume :=
  small 4 [0, 0, kEndOfClusterchain, kEndOfClusterchain] (entryBytes nameA 0x20 3 3)

theorem oneFile_hasEntry : ∀ i, i < 16 → (oneFile.HasEntry ⟨2, i⟩ ↔ i = 0) := by decide +kernel

theorem oneFile_chain : oneFile.EntryChain ⟨2, 0⟩ [3] := by
  refine .inr (isChain_singleton ?_ ?_) <;> decide +kernel

theorem oneFile_root : oneFile.IsChain 2 [2] := by
  refine isChain_singleton ?_ ?_ <;> decide +kernel

theorem oneFile_wellFormed : oneFile.WellFormed := by
  refine small_wellFormed (k := 1) (j := 0) (m := [3]) ?_ ?_ ?_ ?_ ?_ ?_
  iterate 5 decide +kernel
  intro i hi he
  obtain rfl := (oneFile_hasEntry i hi).1 he
  refine ⟨rfl, ?_, oneFile_chain, ?_, ?_⟩ <;> decide +kernel

theorem oneFile_live : oneFile.Live ⟨2, 0⟩ := by
  refine ⟨2, [2], .root, oneFile_root, ?_, ?_⟩ <;> decide +kernel

end Moxia.Fat
