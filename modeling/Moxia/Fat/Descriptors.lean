import Moxia.Fat.Invariant
import Moxia.Fat.Readers
import Moxia.Fat.WriteFidelity
import Moxia.Lib.Files

/-!
# Any number of descriptors

A file with its chain is a file of bytes (`Stored`): a call of `Write` whose length is right changes
the bytes behind its offset and no others (`Stored.write`), whatever other descriptors of the file
have written, and all descriptors keep their places (`Placed`).
-/

namespace Moxia.Fat

open Lib Volume FileDescriptor

variable {v v₀ v₁ v' : Volume} {fd fd' : FileDescriptor} {s t : Slot} {l l₀ l₁ m ext : List Nat}
  {pos pos' off' f len p c : Nat}
  {buf : Nat → UInt8} {st st' : WriteState} {bytes : List UInt8} {r : Written} {file : File UInt8}

/-! ### What a call leaves behind its end -/

/-- Behind what has been written so far, the clusters `l₁` are as they were. -/
def TailKept (v₁ : Volume) (l₁ : List Nat) (p : Nat) (st : WriteState) : Prop :=
  ∀ i c o, l₁[i]? = some c → o < v₁.bytesPerCluster → p + st.total ≤ i * v₁.bytesPerCluster + o →
    st.vol.data c o = v₁.data c o

theorem TailKept.turn (h : TailKept v₁ l₁ bytes.length st)
    (hcopy' : CopyInv v₁ l₁ bytes buf len (l ++ ext) pos' st') (hcur : Cursor f l pos st)
    (ht : Turn buf len l pos st ext pos' off' st') : TailKept v₁ l₁ bytes.length st' := by
  intro i c o hc ho hle
  have hplace := hcopy'.place
  obtain ⟨htotal, hclOff, -, hdata⟩ := ht.copied
  rw [hdata, if_neg]
  · exact h i c o hc ho (by omega)
  · rintro ⟨rfl, -, hhi⟩
    have hc' : (l ++ ext)[i]? = some st'.cluster := by
      obtain ⟨k, -, hl, -⟩ := (hcopy'.took).chain
      rw [hl, List.getElem?_append_left (List.getElem?_eq_some_iff.1 hc).1, hc]
    have hi : i = pos' :=
      (List.getElem?_inj (List.getElem?_eq_some_iff.1 hc').1 (ht.cursor hcur).chain.chain.nodup).1
      (hc'.trans ht.here.symm)
    subst hi
    omega

/-- A call whose length is right writes to no byte of the chain behind its end. -/
theorem Appending.write_tail (h : Appending v₀ s l₀ v fd l pos bytes)
    (hok : WriteOk v.bytesPerCluster l.length bytes.length len)
    (hrun : fd.write v buf len = some r) {i o : Nat} (hc : l[i]? = some c)
    (ho : o < v.bytesPerCluster)
    (hle : bytes.length + len ≤ i * v.bytesPerCluster + o) : r.vol.data c o = v.data c o := by
  obtain ⟨v₁, cluster, st, hstart, hloop, rfl⟩ := write_eq_some hrun
  obtain ⟨ext₁, f, hst, htakes⟩ := startWrite_cases h.file h.entry h.writer.place hstart
  have hB₁ := hst.extend.bytesPerCluster
  have hmod : bytes.length % v₁.bytesPerCluster + len ≤ v₁.bytesPerCluster ∨ v₁.bytesPerCluster ∣
    bytes.length + len := by
    rw [hB₁]
    exact hok.1
  have hroom : bytes.length + len ≤ ((l ++ ext₁).length + 1) * v₁.bytesPerCluster := by
    rw [hB₁]
    exact h.room hok htakes
  obtain ⟨hall, l', pos', -, hcopy, htail⟩ := writeLoop_inv
    (P := fun l' pos' st => CopyInv v₁ (l ++ ext₁) bytes buf len l' pos' st ∧
      TailKept v₁ (l ++ ext₁) bytes.length st)
    (fun _ _ _ _ _ _ _ hcur hlt ht hi => by
      have hcopy := hi.1.turn hmod hroom hcur hlt ht
      exact ⟨hcopy, hi.2.turn hcopy hcur ht⟩)
    (hst.cursor h.file h.writer.off_le) ⟨h.copyInv hst buf len, fun _ _ _ _ _ _ => rfl⟩ hloop
  have hne : c ≠ s.cluster := fun heq => h.file.apart (heq ▸ List.mem_of_getElem? hc)
  have hlt := (List.getElem?_eq_some_iff.1 hc).1
  have htot : st.total = len := Nat.le_antisymm hcopy.total_le hall
  show (st.vol.setFileSize fd.fatEntry (fd.wrOff + st.total)).data c o = v.data c o
  rw [h.entry, setFileSize_data_of_ne (.inl hne),
    htail i c o (by rw [List.getElem?_append_left hlt, hc]) (hB₁.symm ▸ ho) ?_,
    hst.data c o (.inl hne)]
  rwa [htot, hB₁]

theorem chainBytes_drop_congr {q : Nat} (hB : v'.bytesPerCluster = v.bytesPerCluster)
    (hdata : ∀ i c o, l[i]? = some c → o < v.bytesPerCluster → q ≤ i * v.bytesPerCluster + o →
    v'.data c o = v.data c o) :
    (v'.chainBytes l).drop q = (v.chainBytes l).drop q := by
  induction l generalizing q with
  | nil => rfl
  | cons c l ih =>
    have hrest : (v'.chainBytes l).drop (q - v.bytesPerCluster) =
      (v.chainBytes l).drop (q - v.bytesPerCluster) := by
      refine ih fun i c o hc ho hi => hdata (i + 1) c o hc ho ?_
      rw [Nat.succ_mul]
      omega
    have hhead : (v'.clusterBytes c).drop q = (v.clusterBytes c).drop q := by
      refine List.ext_getElem (by simp [hB]) fun o ho _ => ?_
      rw [List.length_drop, length_clusterBytes, hB] at ho
      rw [List.getElem_drop, List.getElem_drop]
      simp only [clusterBytes, List.getElem_map, List.getElem_range]
      exact hdata 0 c (q + o) rfl (by omega) (by omega)
    rw [chainBytes_cons, chainBytes_cons, List.drop_append, List.drop_append, hhead,
      length_clusterBytes, length_clusterBytes, hB, hrest]

/-! ### Files with chains -/

/-- The bytes of the file stand along the chain of the entry in `s`, with which its size agrees. -/
structure Stored (v : Volume) (s : Slot) (file : File UInt8) : Prop where
  size : v.fileSize s = file.size
  size_le : file.size ≤ file.bytes.length
  bytes : ∀ l, v.EntryChain s l → (v.chainBytes l).take file.bytes.length = file.bytes

/-- Where the descriptor is in the file. -/
structure Placed (v : Volume) (fd : FileDescriptor) (file : File UInt8) (l : List Nat)
    (pos : Nat) : Prop where
  reader : ReaderAt v fd l
  writer : WriterAt v fd l pos
  place : fd.wrOff = pos * v.bytesPerCluster + fd.wrClusterOff
  wrOff_le : fd.wrOff ≤ file.bytes.length

namespace Stored

theorem length_le (h : Stored v s file) (hl : v.EntryChain s l) :
    file.bytes.length ≤ l.length * v.bytesPerCluster := by
  rw [← length_chainBytes]
  conv_lhs => rw [← h.bytes l hl]
  exact List.length_take_le' _ _

theorem contents (h : Stored v s file) (hl : v.EntryChain s l) :
    v.contents s l = file.contents := by
  rw [Volume.contents, File.contents, ← h.bytes l hl, List.take_take, h.size,
    Nat.min_eq_left h.size_le]

/-- The file as it is on the volume, when nothing is known of what stands behind its end. -/
theorem of_contents (hl : v.EntryChain s l) (hsize : v.fileSize s ≤ l.length * v.bytesPerCluster) :
    Stored v s { bytes := v.contents s l, size := v.fileSize s } := by
  have hlen := length_contents hsize
  refine ⟨rfl, Nat.le_of_eq hlen.symm, fun m hm => ?_⟩
  obtain rfl := hm.unique hl
  dsimp only
  rw [hlen, Volume.contents]

theorem fresh (hsize : v.fileSize s = 0) : Stored v s {} :=
  ⟨hsize, Nat.le_refl _, fun _ _ => rfl⟩

theorem other (h : Stored v s file) (hl : v.EntryChain s l) (hl' : v'.EntryChain s l)
    (hB : v'.bytesPerCluster = v.bytesPerCluster)
    (hsize : v'.fileSize s = v.fileSize s)
    (hdata : ∀ c ∈ l, v'.data c = v.data c) : Stored v' s file := by
  refine ⟨hsize.trans h.size, h.size_le, fun m hm => ?_⟩
  obtain rfl := hm.unique hl'
  rw [chainBytes_congr hB fun c hc o _ => congrFun (hdata c hc) o]
  exact h.bytes _ hl

end Stored

namespace Placed

theorem fresh (v : Volume) (s : Slot) (file : File UInt8) (l : List Nat) :
    Placed v { fatEntry := s } file l 0 :=
  ⟨.inl ⟨rfl, rfl, rfl⟩, .fresh v s l, (Nat.zero_mul _).symm, Nat.zero_le _⟩

theorem append {file' : File UInt8} (h : Placed v fd file l pos)
    (hB : v'.bytesPerCluster = v.bytesPerCluster)
    (hle : file.bytes.length ≤ file'.bytes.length) : Placed v' fd file' (l ++ ext) pos :=
  ⟨Shared.readerAt_append hB h.reader, h.writer.append hB, hB.symm ▸ h.place,
    Nat.le_trans h.wrOff_le hle⟩

/-- A descriptor is as good as one that has written all of the file before it. -/
theorem appending (h : Placed v fd file l pos) (hs : Stored v fd.fatEntry file)
    (hfile : FileAt v fd.fatEntry l) :
    Appending v fd.fatEntry l v fd l pos (file.bytes.take fd.wrOff) := by
  have hlen : (file.bytes.take fd.wrOff).length = fd.wrOff := List.length_take_of_le h.wrOff_le
  refine ⟨.refl v l, hfile, rfl, h.writer, hlen.symm, hlen.trans h.place, fun hnil => ?_, ?_⟩
  · have hle := Nat.le_trans h.wrOff_le (hs.length_le hfile.chain)
    rw [hnil, List.length_nil, Nat.zero_mul, Nat.le_zero] at hle
    rw [hle, List.take_zero]
  · rw [hlen, ← hs.bytes l hfile.chain, List.take_take, Nat.min_eq_left h.wrOff_le]

end Placed

/-- The length of a write is right, and there is room for it. -/
structure CanWrite (v : Volume) (fd : FileDescriptor) (len : Nat) : Prop where
  lt : fd.wrOff + len < 2 ^ 32
  clusters : ∀ l, v.EntryChain fd.fatEntry l → WriteOk v.bytesPerCluster l.length fd.wrOff len ∧
    max (numCluster v (fd.wrOff + len)) 1 ≤ l.length + v.freeClusters.length

/-- A call of `Write` is a write to the file of bytes. -/
theorem Stored.write (hs : Stored v fd.fatEntry file) (hfile : FileAt v fd.fatEntry l)
    (hp : Placed v fd file l pos)
    (hok : CanWrite v fd len) (buf : Nat → UInt8) : ∃ r ext pos₁ pos₂, fd.write v buf len = some r ∧
    r.total = len ∧ r.srcEnd ≤ len ∧
      FileWritten v fd fd.fatEntry l pos ext pos₁ r ∧
      Stored r.vol fd.fatEntry (file.write fd.wrOff ((List.range len).map buf)) ∧
      Placed r.vol r.fd (file.write fd.wrOff ((List.range len).map buf)) (l ++ ext) pos₂ := by
  obtain ⟨hwrite, hfree⟩ := hok.clusters l hfile.chain
  have happ := hp.appending hs hfile
  have hlen : (file.bytes.take fd.wrOff).length = fd.wrOff := List.length_take_of_le hp.wrOff_le
  have hnew : ((List.range len).map buf).length = len := by rw [List.length_map, List.length_range]
  obtain ⟨r, hrun⟩ := happ.exists_write (hlen.symm ▸ hwrite) buf (hlen.symm ▸ hfree)
  obtain ⟨htotal, hsrc, hsize, l', pos', happ', -⟩ := happ.write (hlen.symm ▸ hwrite) hrun
  obtain ⟨ext, pos'', hwr⟩ := hfile.write rfl happ.writer hrun
  obtain rfl := happ'.file.chain.unique hwr.file.chain
  have hB := hwr.extend.bytesPerCluster
  have hwrOff : r.fd.wrOff = fd.wrOff + len := hwr.wrOff.trans (congrArg _ htotal)
  have hlong : (file.write fd.wrOff ((List.range len).map buf)).bytes.length =
    max file.bytes.length (fd.wrOff + len) := by
    rw [File.length_write hp.wrOff_le, hnew]
  have hstored : Stored r.vol fd.fatEntry (file.write fd.wrOff ((List.range len).map buf)) := by
    refine ⟨?_, ?_, fun m hm => ?_⟩
    · rw [hsize, hlen, Nat.mod_eq_of_lt hok.lt, File.write, hnew]
    · rw [hlong]
      show fd.wrOff + ((List.range len).map buf).length ≤ _
      rw [hnew]
      exact Nat.le_max_right _ _
    · obtain rfl := hm.unique hwr.file.chain
      have hbytes := happ'.bytes
      rw [List.length_append, hlen, hnew] at hbytes
      have hold := hs.bytes l hfile.chain
      have hkept : (r.vol.chainBytes l).drop (fd.wrOff + len) =
        (v.chainBytes l).drop (fd.wrOff + len) :=
        chainBytes_drop_congr hB fun i c o hc ho hi =>
          happ.write_tail (hlen.symm ▸ hwrite) hrun hc ho (hlen.symm ▸ hi)
      have hle : file.bytes.length ≤ (r.vol.chainBytes l).length := by
        rw [length_chainBytes, hB]
        exact hs.length_le hfile.chain
      have htail : (r.vol.chainBytes (l ++ ext)).take file.bytes.length =
        (r.vol.chainBytes l).take file.bytes.length := by
        rw [chainBytes_append, List.take_append_of_le_length hle]
      have hmax : max file.bytes.length (fd.wrOff + len) = fd.wrOff + len +
        (file.bytes.length - (fd.wrOff + len)) := by omega
      rw [hlong, hmax, List.take_add, hbytes, ← List.drop_take, htail, List.drop_take, hkept,
        ← List.drop_take, hold, File.write, hnew]
  have hplaced : Placed r.vol r.fd (file.write fd.wrOff ((List.range len).map buf))
    (l ++ ext) pos' := by
    obtain ⟨hr₁, hr₂, hr₃⟩ := hwr.reader
    have hreader : ReaderAt r.vol fd (l ++ ext) := Shared.readerAt_append hB hp.reader
    refine ⟨?_, happ'.writer, ?_, ?_⟩
    · rw [ReaderAt] at hreader ⊢
      rwa [hr₁, hr₂, hr₃]
    · rw [happ'.wrOff, happ'.place]
    · rw [hlong, hwrOff]
      omega
  exact ⟨r, ext, pos'', pos', hrun, htotal, hsrc, hwr, hstored, hplaced⟩

end Moxia.Fat
