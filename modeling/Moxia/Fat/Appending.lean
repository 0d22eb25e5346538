import Moxia.Fat.Contents
import Moxia.Fat.WriteFile

/-!
# Writing a file from its start

`Appending`: what a fresh descriptor has written stands at the start of the chain, and free clusters
were taken in their order (`Took`). A call of `Write` keeps this, provided that its length ends in
the cluster it starts in or at a cluster boundary, and that the chain need not grow by more than one
cluster (`WriteOk`): the loop copies `min(len, …)` bytes where `len - total` are left, and goes to
the last one of several new clusters. Where the length is not such, the call returns too much, or
leaves a cluster out.
-/

namespace Moxia.Fat

open Lib Volume FileDescriptor

variable {v v' v₀ v₁ : Volume} {fd : FileDescriptor} {s : Slot} {l l₀ l₁ ext : List Nat}
  {f pos pos' off' p len : Nat}
  {buf : Nat → UInt8} {st st' : WriteState} {prev bytes : List UInt8}

theorem numCluster_le (hB : 0 < v.bytesPerCluster) {n k : Nat} : numCluster v n ≤ k ↔
    n ≤ k * v.bytesPerCluster := by
  rw [numCluster, Nat.div_le_iff_le_mul_add_pred hB, Nat.mul_comm k]
  omega

/-- `v` is `v₀` with `l₀` extended to `l` by the first free clusters; the other free clusters are as
they were. -/
structure Took (v₀ : Volume) (l₀ : List Nat) (v : Volume) (l : List Nat) : Prop where
  bytesPerCluster : v.bytesPerCluster = v₀.bytesPerCluster
  chain : ∃ k, k ≤ v₀.freeClusters.length ∧ l = l₀ ++ v₀.freeClusters.take k ∧
    v.freeClusters = v₀.freeClusters.drop k
  data : ∀ c, v.InRange c → v.fat c = 0 → v.data c = v₀.data c

namespace Took

theorem refl (v : Volume) (l : List Nat) : Took v l v l :=
  ⟨rfl, ⟨0, Nat.zero_le _, by simp⟩, fun _ _ _ => rfl⟩

theorem length_add (h : Took v₀ l₀ v l) :
    l₀.length ≤ l.length ∧ l.length + v.freeClusters.length =
      l₀.length + v₀.freeClusters.length := by
  obtain ⟨k, hk, rfl, hfree⟩ := h.chain
  rw [hfree, List.length_append, List.length_take_of_le hk, List.length_drop]
  omega

theorem trans (h : Took v₀ l₀ v l) (h' : Took v l v₁ l₁) : Took v₀ l₀ v₁ l₁ := by
  obtain ⟨k, hk, rfl, hfree⟩ := h.chain
  obtain ⟨k', hk', rfl, hfree'⟩ := h'.chain
  refine ⟨h'.bytesPerCluster.trans h.bytesPerCluster, ⟨k + k', ?_, ?_, ?_⟩, fun c hr hc => ?_⟩
  · rw [hfree, List.length_drop] at hk'
    omega
  · rw [hfree, List.append_assoc, List.take_add]
  · rw [hfree', hfree, List.drop_drop]
  · rw [h'.data c hr hc]
    have hmem : c ∈ v.freeClusters := by
      have := mem_freeClusters.2 ⟨hr, hc⟩
      rw [hfree'] at this
      exact List.mem_of_mem_drop this
    obtain ⟨hr', hc'⟩ := mem_freeClusters.1 hmem
    exact h.data c hr' hc'

/-- The first free clusters are appended to a chain, and some of its clusters are written to. -/
theorem of_extends {k : Nat} (hk : k ≤ v.freeClusters.length)
    (hext : Extends v l (v.freeClusters.take k) v')
    (hused : ∀ c ∈ l, v.fat c ≠ 0) (hused' : ∀ c ∈ l ++ v.freeClusters.take k, v'.fat c ≠ 0)
    (hdata : ∀ c, v'.fat c = 0 → v'.data c = v.data c) : Took v l v' (l ++ v.freeClusters.take k) :=
  ⟨hext.bytesPerCluster, ⟨k, hk, rfl, hext.freeClusters_take hused hused'⟩,
    fun c _ hc => hdata c hc⟩

theorem of_data {w : Volume} (h : Took v₀ l₀ v l) (hf : w.fat = v.fat) (hb : w.bpb = v.bpb)
    (hn : w.numClusters = v.numClusters)
    (hd : ∀ c, v.fat c = 0 → w.data c = v.data c) : Took v₀ l₀ w l := by
  obtain ⟨k, hk, hl, hfree⟩ := h.chain
  refine ⟨?_, ⟨k, hk, hl, ?_⟩, fun c hr hc => ?_⟩
  · rw [← h.bytesPerCluster, Volume.bytesPerCluster, Volume.bytesPerCluster, hb]
  · rw [← hfree, freeClusters, freeClusters, freeFrom, freeFrom, hf, hn]
  · rw [hf] at hc
    rw [InRange, hn] at hr
    rw [hd c hc, h.data c hr hc]

theorem getElem_length (h : Took v₀ l₀ v l) (hlt : l₀.length < l.length) :
    l[l₀.length]? = v₀.freeClusters.head? := by
  obtain ⟨k, hk, rfl, -⟩ := h.chain
  rw [List.length_append, List.length_take_of_le hk] at hlt
  rw [List.getElem?_append_right (Nat.le_refl _), Nat.sub_self, List.getElem?_take_of_lt (by omega),
    List.head?_eq_getElem?]

end Took

theorem FileDescriptor.Turn.took (h : Turn buf len l pos st ext pos' off' st')
    (hcur : Cursor f l pos st) :
    Took st.vol l st'.vol (l ++ ext) := by
  have hused : ∀ c ∈ l, st.vol.fat c ≠ 0 := fun c => hcur.chain.fat_ne_zero
  have hused' : ∀ c ∈ l ++ ext, st'.vol.fat c ≠ 0 := fun c => (h.cursor hcur).chain.fat_ne_zero
  have hdata : ∀ c, st'.vol.fat c = 0 → st'.vol.data c = st.vol.data c := fun c hc => by
    have hne : c ≠ st'.cluster := by
      rintro rfl
      exact hused' _ (List.mem_of_getElem? h.here) hc
    funext o
    rw [h.copied.data, if_neg fun hcond => hne hcond.1]
  have hposlt := (List.getElem?_eq_some_iff.1 hcur.here).1
  obtain ⟨k, hk, rfl⟩ : ∃ k, k ≤ st.vol.freeClusters.length ∧ ext = st.vol.freeClusters.take k := by
    by_cases hend : st.clusterOff = st.vol.bytesPerCluster
    · by_cases hlast : pos + 1 < l.length
      · exact ⟨0, Nat.zero_le _, (h.advanced.next hend hlast).2⟩
      · obtain ⟨hk, hext, -⟩ := h.advanced.last hend (by omega)
        exact ⟨_, hk, hext⟩
    · exact ⟨0, Nat.zero_le _, (h.advanced.stay hend).2⟩
  exact .of_extends hk h.extend hused hused' hdata

/-! ### A call whose length is right -/

/-- A call that writes `len` bytes at offset `p` of a file of `L` clusters does so rightly. -/
def WriteOk (B L p len : Nat) : Prop :=
  (p % B + len ≤ B ∨ B ∣ p + len) ∧ (L = 0 ∨ p + len ≤ (L + 1) * B)

/-- The loop's variables: `total` bytes were copied from the buffer, and stand behind the bytes
`prev`. -/
structure CopyInv (v₁ : Volume) (l₁ : List Nat) (prev : List UInt8) (buf : Nat → UInt8) (len : Nat)
    (l : List Nat)
    (pos : Nat) (st : WriteState) : Prop where
  took : Took v₁ l₁ st.vol l
  place : pos * v₁.bytesPerCluster + st.clusterOff = prev.length + st.total
  edge : st.total = 0 ∨ st.clusterOff = v₁.bytesPerCluster ∨ st.total = len
  total_le : st.total ≤ len
  srcEnd_le : st.srcEnd ≤ st.total
  grown : l.length = l₁.length ∨ (l.length = pos + 1 ∧ 0 < st.clusterOff)
  bytes : (st.vol.chainBytes l).take (prev.length + st.total) =
    prev ++ (List.range st.total).map buf

theorem CopyInv.advanced (h : CopyInv v₁ l₁ prev buf len l pos st) (hcur : Cursor f l pos st)
    (hroom : prev.length + len ≤ (l₁.length + 1) * v₁.bytesPerCluster) (hlt : st.total < len)
    (ht : Turn buf len l pos st ext pos' off' st') :
    pos' * v₁.bytesPerCluster + off' = prev.length + st.total ∧
      ((l ++ ext).length = l.length ∧ pos' < l.length ∨ (l ++ ext).length = pos' + 1) := by
  have hB := h.took.bytesPerCluster
  have hplace := h.place
  have hposlt := (List.getElem?_eq_some_iff.1 hcur.here).1
  have hoff := ht.advanced.off
  by_cases hend : st.clusterOff = st.vol.bytesPerCluster
  swap
  · obtain ⟨rfl, rfl⟩ := ht.advanced.stay hend
    rw [if_neg hend] at hoff
    exact ⟨by omega, .inl ⟨by simp, hposlt⟩⟩
  rw [if_pos hend] at hoff
  rw [hend, hB] at hplace
  by_cases hlast : pos + 1 < l.length
  · obtain ⟨rfl, rfl⟩ := ht.advanced.next hend hlast
    exact ⟨by rw [Nat.succ_mul]; omega, .inl ⟨by simp, hlast⟩⟩
  · -- the chain grows by one cluster
    obtain ⟨hk, hext, hpos'⟩ := ht.advanced.last hend (by omega)
    have hrest : len - st.total ≤ 1 * v₁.bytesPerCluster := by
      have hle : l₁.length ≤ l.length := h.took.length_add.1
      have hl : l.length * v₁.bytesPerCluster = pos * v₁.bytesPerCluster + v₁.bytesPerCluster := by
        rw [show l.length = pos + 1 by omega, Nat.succ_mul]
      have hmul := Nat.mul_le_mul_right v₁.bytesPerCluster hle
      rw [Nat.succ_mul] at hroom
      omega
    have hone : numCluster st.vol (len - st.total) = 1 := by
      refine Nat.le_antisymm ((numCluster_le hcur.bytes_pos).2 (hB ▸ hrest)) ?_
      exact numCluster_pos hcur.bytes_pos (Nat.sub_pos_of_lt hlt)
    rw [hone] at hk hext hpos'
    have hlen : ext.length = 1 := by rw [hext, List.length_take_of_le hk]
    have hpos : pos' = pos + 1 := by omega
    subst hpos
    exact ⟨by rw [Nat.succ_mul]; omega, .inr (by rw [List.length_append]; omega)⟩

/-- A turn copies `min(len - total, …)` bytes, as it should, though it says `min(len, …)`. -/
theorem CopyInv.chunk_eq {B total len p pos off' : Nat} (hmod : p % B + len ≤ B ∨ B ∣ p + len)
    (hlt : total < len) (hplace : pos * B + off' = p + total) (hoff : off' < B)
    (hedge : total = 0 ∨ off' = 0) :
    min len (B - off') = min (len - total) (B - off') := by
  rcases hedge with rfl | rfl
  · rfl
  · rw [Nat.sub_zero]
    rcases Nat.eq_zero_or_pos total with rfl | hpos
    · rfl
    rcases hmod with hle | hdvd
    · -- the bytes would have been copied in the first turn
      have h1 : (p % B + total) % B = 0 := by
        rw [Nat.mod_add_mod, ← hplace, Nat.add_zero, Nat.mul_mod_left]
      rw [Nat.mod_eq_of_lt (by omega)] at h1
      omega
    · have hrest : B ∣ len - total := by
        have h1 : B ∣ p + total := ⟨pos, by rw [← hplace, Nat.add_zero, Nat.mul_comm]⟩
        have h2 := Nat.dvd_sub hdvd h1
        rwa [Nat.add_sub_add_left] at h2
      have := Nat.le_of_dvd (by omega) hrest
      omega

theorem chainBytes_take_congr {q : Nat} (hB : v'.bytesPerCluster = v.bytesPerCluster)
    (hdata : ∀ i c o, l[i]? = some c → o < v.bytesPerCluster → i * v.bytesPerCluster + o < q →
    v'.data c o = v.data c o) :
    (v'.chainBytes l).take q = (v.chainBytes l).take q := by
  induction l generalizing q with
  | nil => rfl
  | cons c l ih =>
    have hrest : (v'.chainBytes l).take (q - v.bytesPerCluster) =
      (v.chainBytes l).take (q - v.bytesPerCluster) := by
      refine ih fun i c o hc ho hi => hdata (i + 1) c o hc ho ?_
      rw [Nat.succ_mul]
      omega
    have hhead : (v'.clusterBytes c).take q = (v.clusterBytes c).take q := by
      rw [clusterBytes, clusterBytes, hB, ← List.map_take, ← List.map_take]
      refine List.map_congr_left fun o ho => ?_
      rw [List.take_range, List.mem_range] at ho
      exact hdata 0 c o rfl (by omega) (by omega)
    rw [chainBytes_cons, chainBytes_cons, List.take_append, List.take_append, hhead,
      length_clusterBytes,
      length_clusterBytes, hB, hrest]

theorem CopyInv.turn (hmod : prev.length % v₁.bytesPerCluster + len ≤ v₁.bytesPerCluster ∨
      v₁.bytesPerCluster ∣ prev.length + len)
    (hroom : prev.length + len ≤ (l₁.length + 1) * v₁.bytesPerCluster) (hcur : Cursor f l pos st)
    (hlt : st.total < len) (ht : Turn buf len l pos st ext pos' off' st')
    (h : CopyInv v₁ l₁ prev buf len l pos st) : CopyInv v₁ l₁ prev buf len (l ++ ext) pos' st' := by
  have hB := h.took.bytesPerCluster
  obtain ⟨hplace, hgrown⟩ := h.advanced hcur hroom hlt ht
  have hoff : off' < v₁.bytesPerCluster := hB ▸ ht.off'_lt hcur
  have hedge : st.total = 0 ∨ off' = 0 := by
    rcases h.edge with h0 | hend | hall
    · exact .inl h0
    · exact .inr (by rw [ht.advanced.off, if_pos (hend.trans hB.symm)])
    · omega
  have hn := CopyInv.chunk_eq hmod hlt hplace hoff hedge
  obtain ⟨htotal, hclOff, hsrc, hdata⟩ := ht.copied
  rw [hB, hn] at htotal hclOff
  set n := min (len - st.total) (v₁.bytesPerCluster - off') with hndef
  have hcur' := ht.cursor hcur
  refine ⟨h.took.trans (ht.took hcur), by omega, by omega, by omega, ?_, ?_, ?_⟩
  · have := h.srcEnd_le
    omega
  · rcases hgrown with ⟨heq, hpos'⟩ | heq
    · rcases h.grown with hsame | ⟨hlen, hpos⟩
      · exact .inl (by omega)
      · have := ht.pos_le hcur hlt
        exact .inr ⟨by omega, by omega⟩
    · exact .inr ⟨heq, by omega⟩
  · -- the bytes before the piece, and the piece
    have hB' : st'.vol.bytesPerCluster = v₁.bytesPerCluster := ht.extend.bytesPerCluster.trans hB
    have hq : prev.length + st.total ≤ (st.vol.chainBytes l).length := by
      have := Nat.mul_le_mul_right v₁.bytesPerCluster
        (Nat.succ_le_of_lt (List.getElem?_eq_some_iff.1 hcur.here).1)
      rw [Nat.succ_mul] at this
      have hle := hcur.off_le
      have := h.place
      rw [length_chainBytes, hB]
      omega
    have hbefore : (st'.vol.chainBytes (l ++ ext)).take (prev.length + st.total) =
        prev ++ (List.range st.total).map buf := by
      have hold :=
        (List.take_append_of_le_length hq : (st.vol.chainBytes l ++ st.vol.chainBytes ext).take _ =
          _)
      rw [← h.bytes, ← hold, ← chainBytes_append]
      refine chainBytes_take_congr ht.extend.bytesPerCluster fun i c o hc ho hlt => ?_
      rw [hdata, if_neg]
      rintro ⟨rfl, hlo, hhi⟩
      have hi : i = pos' :=
        (List.getElem?_inj (List.getElem?_eq_some_iff.1 hc).1 hcur'.chain.chain.nodup).1
        (hc.trans ht.here.symm)
      subst hi
      rw [hB] at hlt
      omega
    have hpiece : ((st'.vol.chainBytes (l ++ ext)).drop (prev.length + st.total)).take n =
        (List.range n).map fun i => buf (st.total + i) := by
      rw [← hplace, ← hB', chainBytes_piece ht.here (by omega)]
      refine List.map_congr_left fun i hi => ?_
      rw [List.mem_range] at hi
      rw [hdata, if_pos ⟨rfl, by omega, by omega⟩, Nat.add_sub_cancel_left]
    have hrange : List.range (st.total + n) = List.range st.total ++ (List.range n).map
      (st.total + ·) :=
      List.range_add
    rw [htotal, ← Nat.add_assoc, List.take_add, hbefore, hpiece, hrange,
      List.map_append, List.map_map,
      List.append_assoc]
    rfl

/-! ### The descriptor between the calls -/

/-- Opened on the volume `v₀`, where the file had the chain `l₀`, the descriptor has written
`bytes`. -/
structure Appending (v₀ : Volume) (s : Slot) (l₀ : List Nat) (v : Volume) (fd : FileDescriptor)
    (l : List Nat)
    (pos : Nat) (bytes : List UInt8) : Prop where
  took : Took v₀ l₀ v l
  file : FileAt v s l
  entry : fd.fatEntry = s
  writer : WriterAt v fd l pos
  wrOff : fd.wrOff = bytes.length
  place : bytes.length = pos * v.bytesPerCluster + fd.wrClusterOff
  empty : l = [] → bytes = []
  bytes : (v.chainBytes l).take bytes.length = bytes

theorem Appending.fresh (h : FileAt v s l) : Appending v s l v { fatEntry := s } l 0 [] :=
  ⟨.refl v l, h, rfl, .fresh v s l, rfl, by simp, fun _ => rfl, rfl⟩

theorem FileDescriptor.Started.took {cluster : Nat} (hf : FileAt v s l)
    (h : Started v s l pos v₁ cluster ext f) (htakes : Takes v l len ext) :
    Took v l v₁ (l ++ ext) := by
  have hused : ∀ c ∈ l ++ ext, v₁.fat c ≠ 0 := fun c => h.chain.fat_ne_zero
  have hdata : ∀ c, v₁.fat c = 0 → v₁.data c = v.data c := fun c hc => by
    have hne : c ≠ s.cluster := by
      rintro rfl
      by_cases hs : s.cluster ∈ l ++ ext
      · exact hused _ hs hc
      · rw [List.mem_append, not_or] at hs
        rw [h.extend.frame _ hs.1 hs.2] at hc
        exact hf.used hc
    exact funext fun o => h.data c o (.inl hne)
  obtain ⟨k, hk, rfl⟩ : ∃ k, k ≤ v.freeClusters.length ∧ ext = v.freeClusters.take k := by
    rcases htakes with ⟨-, rfl⟩ | ⟨-, hk, rfl⟩
    · exact ⟨0, Nat.zero_le _, rfl⟩
    · exact ⟨_, hk, rfl⟩
  exact .of_extends hk h.extend hf.chain.fat_ne_zero hused hdata

theorem length_started (htakes : Takes v l len ext) :
    (l ++ ext).length = if l.length = 0 then max (numCluster v len) 1 else l.length := by
  rcases htakes with ⟨hne, rfl⟩ | ⟨rfl, hk, rfl⟩
  · rw [if_neg fun h => hne (List.length_eq_zero_iff.1 h), List.append_nil]
  · rw [List.nil_append, List.length_take_of_le hk]
    rfl

namespace Appending

theorem copyInv (h : Appending v₀ s l₀ v fd l pos bytes) {cluster : Nat}
    (hst : Started v s l pos v₁ cluster ext f)
    (buf : Nat → UInt8) (len : Nat) :
    CopyInv v₁ (l ++ ext) bytes buf len (l ++ ext) pos { vol := v₁, cluster := cluster,
                                                         clusterOff := fd.wrClusterOff } := by
  have hB := hst.extend.bytesPerCluster
  refine ⟨.refl _ _, ?_, .inl rfl, Nat.zero_le _, Nat.le_refl _, .inl rfl, ?_⟩
  · show pos * v₁.bytesPerCluster + fd.wrClusterOff = bytes.length + 0
    rw [hB, h.place]
    rfl
  · show (v₁.chainBytes (l ++ ext)).take (bytes.length + 0) = bytes ++ []
    have hlen : bytes.length ≤ (v.chainBytes l).length := by
      conv_lhs => rw [← h.bytes]
      exact List.length_take_le' _ _
    have hkeep : v₁.chainBytes l = v.chainBytes l := chainBytes_congr hB fun c hc o _ =>
      hst.data c o (.inl fun heq => h.file.apart (heq ▸ hc))
    rw [Nat.add_zero, List.append_nil, chainBytes_append, hkeep, List.take_append_of_le_length hlen,
      h.bytes]

/-- The last new cluster the call may need, if its length is right. -/
theorem room (h : Appending v₀ s l₀ v fd l pos bytes)
    (hok : WriteOk v.bytesPerCluster l.length bytes.length len) (htakes : Takes v l len ext) :
    bytes.length + len ≤ ((l ++ ext).length + 1) * v.bytesPerCluster := by
  rw [length_started htakes]
  split
  · rename_i hnil
    rw [h.empty (List.length_eq_zero_iff.1 hnil), List.length_nil, Nat.zero_add]
    refine (numCluster_le h.file.bytes_pos).1 ?_
    omega
  · rename_i hne
    exact hok.2.resolve_left hne

/-- A call whose length is right comes to its end if the clusters suffice. -/
theorem exists_write (h : Appending v₀ s l₀ v fd l pos bytes)
    (hok : WriteOk v.bytesPerCluster l.length bytes.length len) (buf : Nat → UInt8)
    (hfree : max (numCluster v (bytes.length + len)) 1 ≤ l.length + v.freeClusters.length) :
    ∃ r, fd.write v buf len = some r := by
  obtain ⟨hne, -, hnil⟩ := startWrite_spec h.file h.entry h.writer.place len
  obtain ⟨v₁, cluster, ext, f, hstart, hst, htakes⟩ : ∃ v₁ cluster ext f,
      fd.startWrite v len = some (v₁, cluster) ∧ Started v s l pos v₁ cluster ext f ∧
        Takes v l len ext := by
    by_cases hl : l = []
    · have hle : max (numCluster v len) 1 ≤ v.freeClusters.length := by
        rw [h.empty hl, List.length_nil, Nat.zero_add, hl, List.length_nil, Nat.zero_add] at hfree
        exact hfree
      obtain ⟨-, v₁, cluster, hstart, hst⟩ := hnil hl hle
      exact ⟨v₁, cluster, _, cluster, hstart, hst, .inr ⟨hl, hle, rfl⟩⟩
    · obtain ⟨cluster, f, hstart, hst⟩ := hne hl
      exact ⟨v, cluster, [], f, hstart, hst, .inl ⟨hl, rfl⟩⟩
  have hB := hst.extend.bytesPerCluster
  have hlen := (hst.took h.file htakes).length_add.2
  obtain ⟨st, hloop⟩ : ∃ st, writeLoop buf len len
      { vol := v₁, cluster := cluster, clusterOff := fd.wrClusterOff } = some st := by
    refine writeLoop_total (fun _ _ _ _ _ _ _ hc hlt ht hi => CopyInv.turn (by rw [hB]; exact hok.1)
      (by rw [hB]; exact h.room hok htakes) hc hlt ht hi) ?_ (hst.cursor h.file h.writer.off_le)
      (h.copyInv hst buf len) (Nat.sub_le _ _)
    intro l' pos' st hcur hlt hi hend hlast
    have hB' := hi.took.bytesPerCluster
    have hplace := hi.place
    rw [hend, hB', hB] at hplace
    have hl' : l'.length * v.bytesPerCluster = bytes.length + st.total := by
      rw [← hlast, Nat.succ_mul, hplace]
    have hmore : l'.length < numCluster v (bytes.length + len) := by
      by_contra hle
      have := (numCluster_le h.file.bytes_pos).1 (Nat.le_of_not_lt hle)
      omega
    have hrest : numCluster st.vol (len - st.total) ≤ 1 := by
      refine (numCluster_le hcur.bytes_pos).2 ?_
      have hroom := h.room hok htakes
      have hmul := Nat.mul_le_mul_right v.bytesPerCluster hi.took.length_add.1
      rw [Nat.succ_mul] at hroom
      rw [hB', hB]
      omega
    have := hi.took.length_add.2
    omega
  exact ⟨_, write_of_loop hstart hloop⟩

/-- The clusters of the file after the call. -/
def clustersAfter (B L n : Nat) : Nat := max (max L 1) ((n + B - 1) / B)

theorem write (h : Appending v₀ s l₀ v fd l pos bytes)
    (hok : WriteOk v.bytesPerCluster l.length bytes.length len) {r : Written}
    (hrun : fd.write v buf len = some r) :
    r.total = len ∧ r.srcEnd ≤ len ∧ r.vol.fileSize s = (bytes.length + len) % 2 ^ 32 ∧ ∃ l' pos',
      Appending v₀ s l₀ r.vol r.fd l' pos' (bytes ++ (List.range len).map buf) ∧
      l'.length = clustersAfter v.bytesPerCluster l.length (bytes.length + len) := by
  obtain ⟨v₁, cluster, st, hstart, hloop, rfl⟩ := write_eq_some hrun
  obtain ⟨ext₁, f, hst, htakes⟩ := startWrite_cases h.file h.entry h.writer.place hstart
  have hB₁ := hst.extend.bytesPerCluster
  have hmod : bytes.length % v₁.bytesPerCluster + len ≤ v₁.bytesPerCluster ∨
      v₁.bytesPerCluster ∣ bytes.length + len := by
    rw [hB₁]
    exact hok.1
  have hroom : bytes.length + len ≤ ((l ++ ext₁).length + 1) * v₁.bytesPerCluster := by
    rw [hB₁]
    exact h.room hok htakes
  obtain ⟨hall, l', pos', hcur', hinv, hcopy⟩ := writeLoop_inv
    (P := fun l' pos' st => LoopInv v₁ (l ++ ext₁) pos fd.wrOff l' pos' st ∧
      CopyInv v₁ (l ++ ext₁) bytes buf len l' pos' st)
    (fun _ _ _ _ _ _ _ hc hlt ht hi => ⟨hi.1.turn hc hlt ht, hi.2.turn hmod hroom hc hlt ht⟩)
    (hst.cursor h.file h.writer.off_le) ⟨hst.loopInv h.writer, h.copyInv hst buf len⟩ hloop
  obtain ⟨ext, rfl, hwr⟩ := h.file.written h.entry hst hcur' hinv
  have htot : st.total = len := Nat.le_antisymm hcopy.total_le hall
  have hposlt := (List.getElem?_eq_some_iff.1 hcur'.here).1
  have htook : Took v₀ l₀ st.vol (l ++ ext) :=
    h.took.trans ((hst.took h.file htakes).trans hcopy.took)
  have hB : st.vol.bytesPerCluster = v.bytesPerCluster := hcopy.took.bytesPerCluster.trans hB₁
  have hplace : bytes.length + len = pos' * v.bytesPerCluster + st.clusterOff := by
    rw [← htot, ← hcopy.place, hB₁]
  refine ⟨htot, htot ▸ hcopy.srcEnd_le, ?_, l ++ ext, pos',
    ⟨?_, hwr.file, hwr.fatEntry, hwr.writer, ?_, ?_, ?_, ?_⟩, ?_⟩
  · rw [hwr.size_eq, hwr.wrOff, h.wrOff]
    exact congrArg (fun n => (bytes.length + n) % 2 ^ 32) htot
  · refine htook.of_data rfl rfl rfl fun c hc => funext fun o => setFileSize_data_of_ne (.inl ?_)
    rintro rfl
    rw [h.entry] at hc
    exact hwr.file.used hc
  · rw [hwr.wrOff, h.wrOff, List.length_append, List.length_map, List.length_range]
    exact congrArg (bytes.length + ·) htot
  · rw [List.length_append, List.length_map, List.length_range, hplace, ← hB]
    rfl
  · intro hnil
    rw [hnil] at hposlt
    exact absurd hposlt (Nat.not_lt_zero _)
  · have hkeep : (st.vol.setFileSize fd.fatEntry (fd.wrOff + st.total)).chainBytes (l ++ ext) =
        st.vol.chainBytes (l ++ ext) := chainBytes_congr rfl fun c hc o _ =>
          setFileSize_data_of_ne (.inl ?_)
    · have hb := hcopy.bytes
      rw [htot] at hb
      rw [List.length_append, List.length_map, List.length_range, ← hb, ← hkeep]
    · rintro rfl
      rw [h.entry] at hc
      exact hwr.file.apart hc
  · -- a cluster is only appended where bytes are put into it
    have hle : numCluster v (bytes.length + len) ≤ (l ++ ext).length := by
      refine (numCluster_le h.file.bytes_pos).2 ?_
      have := Nat.mul_le_mul_right v.bytesPerCluster (Nat.succ_le_of_lt hposlt)
      rw [Nat.succ_mul] at this
      have := hcur'.off_le
      rw [hB] at this
      omega
    have hstart := length_started htakes
    have hgrown : (l ++ ext).length = (l ++ ext₁).length ∨
        (l ++ ext).length ≤ numCluster v (bytes.length + len) := by
      refine hcopy.grown.imp_right fun hgrown => ?_
      by_contra hlt
      have hle' :=
        (numCluster_le h.file.bytes_pos).1 (show numCluster v (bytes.length + len) ≤ pos' by omega)
      omega
    have hmin := hcopy.took.length_add.1
    have hempty : l.length = 0 → bytes.length = 0 :=
      fun hl => by rw [h.empty (List.length_eq_zero_iff.1 hl)]; rfl
    rw [clustersAfter, ← numCluster]
    split at hstart
    · rename_i hl
      rw [hempty hl, Nat.zero_add] at hle hgrown ⊢
      omega
    · omega

end Appending

end Moxia.Fat
