import Moxia.Fat.Volume

/-!
# Fields of directory entries

A field of an entry is determined by the bytes of its slot (`firstCluster_congr` and so on), an
assignment to a field changes the bytes of this field only, and the bytes of different slots are
different bytes.
-/

namespace Moxia.Fat

open Lib

namespace Volume

variable {v v' : Volume} {s t : Slot}

/-- The byte at `o` of the entry in `s`. -/
def entryByte (v : Volume) (s : Slot) (o : Nat) : UInt8 := v.data s.cluster (s.offset + o)

theorem firstCluster_congr (h : ∀ o, 20 ≤ o → o < 28 → v'.entryByte s o = v.entryByte s o) :
    v'.firstCluster s = v.firstCluster s := by
  have hb : ∀ off, 20 ≤ off → off + 2 ≤ 28 →
      loadLE (v'.data s.cluster) (s.offset + off) 2 =
        loadLE (v.data s.cluster) (s.offset + off) 2 := by
    intro off hlo hhi
    refine loadLE_congr fun o h₁ h₂ => ?_
    have := h (o - s.offset) (by omega) (by omega)
    rwa [entryByte, entryByte, Nat.add_sub_cancel' (by omega)] at this
  rw [firstCluster, hb 26 (by omega) (by omega), hb 20 (by omega) (by omega), firstCluster]

theorem fileSize_congr (h : ∀ o, 28 ≤ o → o < 32 → v'.entryByte s o = v.entryByte s o) :
    v'.fileSize s = v.fileSize s := by
  refine loadLE_congr fun o h₁ h₂ => ?_
  have := h (o - s.offset) (by omega) (by omega)
  rwa [entryByte, entryByte, Nat.add_sub_cancel' (by omega)] at this

theorem fileSize_lt : v.fileSize s < 2 ^ 32 := loadLE_lt

/-! ### `memcpy` and assignments -/

theorem store_data {c off n : Nat} {src : Nat → UInt8} (c' o : Nat) :
    (v.store c off n src).data c' o =
    if c' = c ∧ off ≤ o ∧ o < off + n then src (o - off) else v.data c' o := by
  simp only [store]
  by_cases hc : c' = c
  · subst hc
    rw [Function.update_self, Lib.store]
    simp only [true_and]
  · rw [Function.update_of_ne hc, if_neg fun h => hc h.1]

@[simp] theorem store_fat (c off n : Nat) (src : Nat → UInt8) :
    (v.store c off n src).fat = v.fat := rfl
@[simp] theorem store_bpb (c off n : Nat) (src : Nat → UInt8) :
    (v.store c off n src).bpb = v.bpb := rfl
@[simp] theorem store_numClusters (c off n : Nat) (src : Nat → UInt8) :
    (v.store c off n src).numClusters = v.numClusters := rfl

@[simp] theorem setFirstCluster_fat (c : Nat) : (v.setFirstCluster s c).fat = v.fat := rfl
@[simp] theorem setFirstCluster_bpb (c : Nat) : (v.setFirstCluster s c).bpb = v.bpb := rfl
@[simp] theorem setFirstCluster_numClusters (c : Nat) :
    (v.setFirstCluster s c).numClusters = v.numClusters := rfl
@[simp] theorem setFileSize_fat (n : Nat) : (v.setFileSize s n).fat = v.fat := rfl
@[simp] theorem setFileSize_bpb (n : Nat) : (v.setFileSize s n).bpb = v.bpb := rfl
@[simp] theorem setFileSize_numClusters (n : Nat) :
    (v.setFileSize s n).numClusters = v.numClusters := rfl

theorem setField_data_of_ne {off n x c o : Nat}
    (h : c ≠ s.cluster ∨ o < s.offset + off ∨ s.offset + off + n ≤ o) :
    (v.setField s off n x).data c o = v.data c o := by
  rw [setField, store_data, if_neg]
  rintro ⟨hc, hlo, hhi⟩
  rcases h with h | h | h
  · exact h hc
  · omega
  · omega

theorem setField_data_self (v : Volume) (s : Slot) (off n x : Nat) :
    loadLE ((v.setField s off n x).data s.cluster) (s.offset + off) n = x % 256 ^ n := by
  have : (v.setField s off n x).data s.cluster =
    storeLE (v.data s.cluster) (s.offset + off) n x := by
    simp only [setField, store, Function.update_self]
    rfl
  rw [this, loadLE_storeLE_self]

theorem setFirstCluster_data_of_ne {c' c o : Nat}
    (h : c ≠ s.cluster ∨ o < s.offset + 20 ∨ s.offset + 28 ≤ o) :
    (v.setFirstCluster s c').data c o = v.data c o := by
  rw [setFirstCluster, setField_data_of_ne (by omega), setField_data_of_ne (by omega)]

theorem setFileSize_data_of_ne {n c o : Nat}
    (h : c ≠ s.cluster ∨ o < s.offset + 28 ∨ s.offset + 32 ≤ o) :
    (v.setFileSize s n).data c o = v.data c o :=
  setField_data_of_ne (by omega)

theorem firstCluster_setFirstCluster {c : Nat} (hc : c < 2 ^ 32) :
    (v.setFirstCluster s c).firstCluster s = c := by
  have hlow : loadLE ((v.setFirstCluster s c).data s.cluster) (s.offset + 26) 2 = c % 2 ^ 16 := by
    have hsame : loadLE ((v.setFirstCluster s c).data s.cluster) (s.offset + 26) 2 =
        loadLE ((v.setField s 26 2 (c % 2 ^ 16)).data s.cluster) (s.offset + 26) 2 :=
      loadLE_congr fun o _ _ => setField_data_of_ne (by omega)
    rw [hsame, setField_data_self]
    omega
  have hhigh : loadLE ((v.setFirstCluster s c).data s.cluster) (s.offset + 20) 2 = c / 2 ^ 16 := by
    rw [setFirstCluster, setField_data_self]
    omega
  rw [firstCluster, hlow, hhigh]
  exact Nat.mod_add_div c (2 ^ 16)

theorem fileSize_setFileSize (n : Nat) : (v.setFileSize s n).fileSize s = n % 2 ^ 32 := by
  have hpow : 256 ^ 4 = 2 ^ 32 := rfl
  rw [setFileSize, fileSize, setField_data_self, hpow]

theorem firstCluster_setFileSize (n : Nat) :
    (v.setFileSize s n).firstCluster s = v.firstCluster s :=
  firstCluster_congr fun o _ _ => setFileSize_data_of_ne (by omega)

end Volume

end Moxia.Fat
