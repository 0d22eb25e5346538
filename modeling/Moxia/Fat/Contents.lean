import Moxia.Fat.WellFormed

/-!
# The contents of a chain

`chainBytes` are the bytes along a chain, `contents` those of a file. The bytes of one cluster stand
in one piece in them (`chainBytes_piece`).
-/

namespace Moxia.Fat

namespace Volume

variable {v w : Volume} {s : Slot} {l m : List Nat} {c : Nat}

def clusterBytes (v : Volume) (c : Nat) : List UInt8 :=
  (List.range v.bytesPerCluster).map (v.data c)

/-- The bytes along the clusters `l`. -/
def chainBytes (v : Volume) (l : List Nat) : List UInt8 := l.flatMap v.clusterBytes

/-- The first `file_size` bytes along the chain. -/
def contents (v : Volume) (s : Slot) (l : List Nat) : List UInt8 :=
  (v.chainBytes l).take (v.fileSize s)

@[simp] theorem length_clusterBytes : (v.clusterBytes c).length = v.bytesPerCluster := by
    simp [clusterBytes]

theorem chainBytes_append : v.chainBytes (l ++ m) = v.chainBytes l ++ v.chainBytes m :=
  List.flatMap_append

@[simp] theorem chainBytes_cons : v.chainBytes (c :: l) = v.clusterBytes c ++ v.chainBytes l :=
  List.flatMap_cons

@[simp] theorem length_chainBytes : (v.chainBytes l).length = l.length * v.bytesPerCluster := by
  induction l with
  | nil => simp [chainBytes]
  | cons c l ih =>
    rw [chainBytes_cons, List.length_append, ih, length_clusterBytes, List.length_cons,
      Nat.succ_mul, Nat.add_comm]

theorem length_contents (h : v.fileSize s ≤ l.length * v.bytesPerCluster) :
    (v.contents s l).length = v.fileSize s := by
  rw [contents, List.length_take, length_chainBytes, Nat.min_eq_left h]

theorem clusterBytes_congr (hB : w.bytesPerCluster = v.bytesPerCluster)
    (h : ∀ o, o < v.bytesPerCluster → w.data c o = v.data c o) :
    w.clusterBytes c = v.clusterBytes c := by
  rw [clusterBytes, clusterBytes, hB]
  exact List.map_congr_left fun o ho => h o (List.mem_range.1 ho)

theorem chainBytes_congr (hB : w.bytesPerCluster = v.bytesPerCluster)
    (h : ∀ c ∈ l, ∀ o, o < v.bytesPerCluster → w.data c o = v.data c o) :
    w.chainBytes l = v.chainBytes l := by
  induction l with
  | nil => rfl
  | cons c l ih =>
    rw [chainBytes_cons, chainBytes_cons, clusterBytes_congr hB (h c List.mem_cons_self),
      ih fun x hx => h x (List.mem_cons_of_mem _ hx)]

theorem chainBytes_piece {pos off n : Nat} (hpos : l[pos]? = some c)
    (hn : off + n ≤ v.bytesPerCluster) :
    ((v.chainBytes l).drop (pos * v.bytesPerCluster + off)).take n =
      (List.range n).map fun i => v.data c (off + i) := by
  obtain ⟨hlt, rfl⟩ := List.getElem?_eq_some_iff.1 hpos
  have hsplit : l = l.take pos ++ l[pos] :: l.drop (pos + 1) := by
    rw [List.getElem_cons_drop, List.take_append_drop]
  have hbytes : v.chainBytes l =
      v.chainBytes (l.take pos) ++ (v.clusterBytes l[pos] ++ v.chainBytes (l.drop (pos + 1))) := by
    conv_lhs => rw [hsplit]
    rw [chainBytes_append, chainBytes_cons]
  have hlen : (v.chainBytes (l.take pos)).length = pos * v.bytesPerCluster := by
    rw [length_chainBytes, List.length_take_of_le (Nat.le_of_lt hlt)]
  rw [hbytes, ← List.drop_drop, List.drop_left' hlen,
    List.drop_append_of_le_length (by simp; omega),
    List.take_append_of_le_length (by simp; omega)]
  refine List.ext_getElem (by simp; omega) fun i h₁ h₂ => ?_
  simp [clusterBytes]

end Volume

end Moxia.Fat
