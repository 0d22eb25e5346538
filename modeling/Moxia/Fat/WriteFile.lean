import Moxia.Fat.Writing

/-!
# `Write` on a file

`FileAt v s l`: the entry in slot `s` has the chain `l`, and lies in a cluster outside of it. A call
of `Write` appends free clusters to `l`, changes no other cluster but for two fields of the entry,
and leaves a `file_size` the chain is long enough for (`FileAt.write`). It does so for every buffer
and length, and wherever the descriptor is.
-/

namespace Moxia.Fat

open Lib Volume

/-- The entry in `s` has the chain `l`. -/
structure FileAt (v : Volume) (s : Slot) (l : List Nat) : Prop where
  chain : v.EntryChain s l
  used : v.fat s.cluster ≠ 0
  apart : s.cluster ∉ l
  numbers : v.NumbersOk
  bytes_pos : 0 < v.bytesPerCluster

/-- The descriptor writes to the cluster `pos` of the chain, or has not started; what it has written
fits before that. -/
structure WriterAt (v : Volume) (fd : FileDescriptor) (l : List Nat) (pos : Nat) : Prop where
  place : (fd.wrCluster = 0 ∧ pos = 0) ∨ l[pos]? = some fd.wrCluster
  off_le : fd.wrClusterOff ≤ v.bytesPerCluster
  wrOff_le : fd.wrOff ≤ pos * v.bytesPerCluster + fd.wrClusterOff

theorem WriterAt.fresh (v : Volume) (s : Slot) (l : List Nat) : WriterAt v { fatEntry := s } l 0 :=
  ⟨.inl ⟨rfl, rfl⟩, Nat.zero_le _, Nat.zero_le _⟩

theorem WriterAt.append {v v' : Volume} {fd : FileDescriptor} {l ext : List Nat} {pos : Nat}
    (h : WriterAt v fd l pos) (hB : v'.bytesPerCluster = v.bytesPerCluster) :
    WriterAt v' fd (l ++ ext) pos := by
  refine ⟨h.place.imp id fun hpos => ?_, by rw [hB]; exact h.off_le, by rw [hB]; exact h.wrOff_le⟩
  rw [List.getElem?_append_left (List.getElem?_eq_some_iff.1 hpos).1, hpos]

theorem Volume.WellFormed.fileAt {v : Volume} {s : Slot} {l : List Nat} (h : v.WellFormed)
    (hs : v.Live s)
    (hl : v.EntryChain s l) : FileAt v s l := by
  obtain ⟨d, m, hd, hm, hsm, he⟩ := id hs
  exact ⟨hl, hm.fat_ne_zero (mem_slots.1 hsm).1, h.apart hs hl, h.numbers, h.pos⟩

namespace FileDescriptor

variable {v : Volume} {fd : FileDescriptor} {s : Slot} {l : List Nat} {pos len : Nat}
    {buf : Nat → UInt8}

/-- The cluster the loop of `Write` starts with, in the chain `l ++ ext` from `f`. -/
structure Started (v : Volume) (s : Slot) (l : List Nat) (pos : Nat) (v₁ : Volume) (cluster : Nat)
    (ext : List Nat)
    (f : Nat) : Prop where
  extend : Extends v l ext v₁
  chain : v₁.IsChain f (l ++ ext)
  first : v₁.firstCluster s = f
  here : (l ++ ext)[pos]? = some cluster
  data : ∀ c o, c ≠ s.cluster ∨ o < s.offset + 20 ∨ s.offset + 28 ≤ o → v₁.data c o = v.data c o

theorem startWrite_spec (h : FileAt v s l) (hfd : fd.fatEntry = s)
    (hplace : (fd.wrCluster = 0 ∧ pos = 0) ∨ l[pos]? = some fd.wrCluster) (len : Nat) :
    (l ≠ [] → ∃ cluster f, fd.startWrite v len = some (v, cluster) ∧
      Started v s l pos v cluster [] f) ∧
    (l = [] → v.freeClusters.length < max (numCluster v len) 1 → fd.startWrite v len = none) ∧
    (l = [] → max (numCluster v len) 1 ≤ v.freeClusters.length → pos = 0 ∧ ∃ v₁ cluster,
      fd.startWrite v len = some (v₁, cluster) ∧
        Started v s l pos v₁ cluster (v.freeClusters.take (max (numCluster v len) 1)) cluster) := by
  subst hfd
  rcases h.chain with ⟨h0, rfl⟩ | hchain
  · -- an empty file gets a chain
    have hpos : fd.wrCluster = 0 ∧ pos = 0 := hplace.resolve_right (by simp)
    obtain ⟨hsome, hnone⟩ := allocateClusterchain_spec h.numbers (numCluster v len)
    have hstart : fd.startWrite v len = (v.allocateClusterchain (numCluster v len)).map fun r =>
        (r.1.setFirstCluster fd.fatEntry r.2, r.2) := by
      rw [startWrite, if_pos hpos.1, if_neg (not_not.2 h0)]
    refine ⟨fun hne => absurd rfl hne, fun _ hlt => by
      rw [hstart, hnone hlt]; rfl, fun _ hle => ⟨hpos.2, ?_⟩⟩
    obtain ⟨v₁, c, hrun, hdata, hch, hext⟩ := hsome hle
    have hc : c < 2 ^ 32 := by
      have hlt := hch.inRange_head.2
      rw [hext.numClusters] at hlt
      have := h.numbers
      rw [NumbersOk] at this
      omega
    refine ⟨v₁.setFirstCluster fd.fatEntry c, c, by rw [hstart, hrun]; rfl, ?_⟩
    refine ⟨hext.of_data rfl rfl rfl, hch.congr rfl fun _ _ => rfl, firstCluster_setFirstCluster hc,
      ?_, ?_⟩
    · rw [List.nil_append, hpos.2]
      exact hch.chain.getElem_zero
    · intro c' o ho
      rw [setFirstCluster_data_of_ne ho, hdata]
  · have hl : l ≠ [] := hchain.chain.ne_nil
    have h0 : v.firstCluster fd.fatEntry ≠ 0 := by
      have := hchain.inRange_head.1
      omega
    refine ⟨fun _ => ?_, fun hnil => absurd hnil hl, fun hnil => absurd hnil hl⟩
    rcases hplace with ⟨hw, rfl⟩ | hplace
    · refine ⟨_, _, by
        rw [startWrite, if_pos hw, if_pos h0], Extends.refl v l, ?_, rfl, ?_, fun _ _ _ => rfl⟩
      · rwa [List.append_nil]
      · rw [List.append_nil]
        exact hchain.chain.getElem_zero
    · have hw : fd.wrCluster ≠ 0 := by
        have := (hchain.inRange _ (List.mem_of_getElem? hplace)).1
        omega
      refine ⟨_, _, by rw [startWrite, if_neg hw], Extends.refl v l, ?_, rfl, ?_, fun _ _ _ => rfl⟩
      · rwa [List.append_nil]
      · rwa [List.append_nil]

/-- The free clusters the start of a call takes: some if the file is empty. -/
def Takes (v : Volume) (l : List Nat) (len : Nat) (ext : List Nat) : Prop :=
  (l ≠ [] ∧ ext = []) ∨ (l = [] ∧ max (numCluster v len) 1 ≤ v.freeClusters.length ∧
    ext = v.freeClusters.take (max (numCluster v len) 1))

theorem startWrite_cases (h : FileAt v s l) (hfd : fd.fatEntry = s)
    (hplace : (fd.wrCluster = 0 ∧ pos = 0) ∨ l[pos]? = some fd.wrCluster) {r : Volume × Nat}
    (hrun : fd.startWrite v len = some r) : ∃ ext f, Started v s l pos r.1 r.2 ext f ∧
    Takes v l len ext := by
  obtain ⟨hne, hno, hnil⟩ := startWrite_spec h hfd hplace len
  by_cases hl : l = []
  · by_cases hle : max (numCluster v len) 1 ≤ v.freeClusters.length
    · obtain ⟨-, v₁, c, hrun', hst⟩ := hnil hl hle
      rw [hrun] at hrun'
      obtain rfl := Option.some.inj hrun'
      exact ⟨_, _, hst, .inr ⟨hl, hle, rfl⟩⟩
    · rw [hno hl (by omega)] at hrun
      cases hrun
  · obtain ⟨c, f, hrun', hst⟩ := hne hl
    rw [hrun] at hrun'
    obtain rfl := Option.some.inj hrun'
    exact ⟨[], f, hst, .inl ⟨hl, rfl⟩⟩

theorem Started.cursor {v₁ : Volume} {cluster f : Nat} {ext : List Nat}
    (h : Started v s l pos v₁ cluster ext f)
    (hf : FileAt v s l) {off : Nat} (hoff : off ≤ v.bytesPerCluster) :
    Cursor f (l ++ ext) pos { vol := v₁, cluster := cluster, clusterOff := off } := by
  have hB := h.extend.bytesPerCluster
  refine ⟨h.chain, ?_, ?_, h.here, ?_⟩
  · show v₁.NumbersOk
    rw [NumbersOk, h.extend.numClusters]
    exact hf.numbers
  · show 0 < v₁.bytesPerCluster
    rw [hB]
    exact hf.bytes_pos
  · show off ≤ v₁.bytesPerCluster
    rwa [hB]

/-! ### The loop -/

/-- What holds of the loop's variables, relative to its start: `ext` was appended, only clusters
from `pos₀` on were written to, and the `w` bytes written before and those written now fit before
the cursor. -/
structure LoopInv (v₁ : Volume) (l₁ : List Nat) (pos₀ w : Nat) (l : List Nat) (pos : Nat)
    (st : WriteState) : Prop where
  extend : ∃ ext, l = l₁ ++ ext ∧ Extends v₁ l₁ ext st.vol
  pos_le : pos₀ ≤ pos
  fits : w + st.total ≤ pos * v₁.bytesPerCluster + st.clusterOff
  data : ∀ c o, c ∉ l.drop pos₀ → st.vol.data c o = v₁.data c o

theorem LoopInv.turn {v₁ : Volume} {l₁ l ext : List Nat} {pos₀ w f pos' off' : Nat}
    {st st' : WriteState}
    (hcur : Cursor f l pos st) (hlt : st.total < len) (h : Turn buf len l pos st ext pos' off' st')
    (hi : LoopInv v₁ l₁ pos₀ w l pos st) : LoopInv v₁ l₁ pos₀ w (l ++ ext) pos' st' := by
  obtain ⟨ext₀, rfl, hext⟩ := hi.extend
  have hB := hext.bytesPerCluster
  have hpos : pos₀ ≤ pos' := Nat.le_trans hi.pos_le (h.pos_le hcur hlt)
  have hused : ∀ c ∈ l₁ ++ ext₀, st.vol.fat c ≠ 0 := fun c => hcur.chain.fat_ne_zero
  refine ⟨⟨ext₀ ++ ext, by rw [List.append_assoc], hext.trans h.extend hused⟩, hpos, ?_,
    fun c o hc => ?_⟩
  · have hfits := hi.fits
    have hoff := h.advanced.off
    rw [h.copied.total, h.copied.clusterOff, ← hB]
    rw [← hB] at hfits
    by_cases hend : st.clusterOff = st.vol.bytesPerCluster
    · rw [if_pos hend] at hoff
      have := Nat.mul_le_mul_right st.vol.bytesPerCluster
        (Nat.succ_le_of_lt (h.pos_lt hcur hlt hend))
      rw [Nat.succ_mul] at this
      omega
    · rw [if_neg hend] at hoff
      rw [(h.advanced.stay hend).1]
      omega
  · have hne : c ≠ st'.cluster := by
      rintro rfl
      refine hc (List.mem_of_getElem? (i := pos' - pos₀) ?_)
      rw [List.getElem?_drop, Nat.add_sub_cancel' hpos]
      exact h.here
    rw [h.copied.data, if_neg fun hcond => hne hcond.1]
    refine hi.data c o fun hmem => hc ?_
    rw [List.drop_append]
    exact List.mem_append_left _ hmem

theorem LoopInv.init {v₁ : Volume} {l₁ : List Nat} {w : Nat} {st : WriteState} (hv : st.vol = v₁)
    (ht : st.total = 0) (hw : w ≤ pos * v₁.bytesPerCluster + st.clusterOff) :
    LoopInv v₁ l₁ pos w l₁ pos st := by
  subst hv
  exact ⟨⟨[], by rw [List.append_nil], Extends.refl _ _⟩, Nat.le_refl _, by omega, fun _ _ _ => rfl⟩

theorem Started.loopInv {v₁ : Volume} {cluster f : Nat} {ext : List Nat}
    (h : Started v s l pos v₁ cluster ext f)
    (hw : WriterAt v fd l pos) : LoopInv v₁ (l ++ ext) pos fd.wrOff (l ++ ext) pos
      { vol := v₁, cluster := cluster, clusterOff := fd.wrClusterOff } :=
  .init rfl rfl (by rw [h.extend.bytesPerCluster]; exact hw.wrOff_le)

theorem not_mem_drop_of_lt {i : Nat} {c : Nat} (hnd : l.Nodup) (hc : l[i]? = some c)
    (hi : i < pos) :
    c ∉ l.drop pos := by
  intro hmem
  obtain ⟨k, hk⟩ := List.mem_iff_getElem?.1 hmem
  rw [List.getElem?_drop] at hk
  have := (List.getElem?_inj (List.getElem?_eq_some_iff.1 hc).1 hnd).1 (hc.trans hk.symm)
  omega

/-! ### The call -/

/-- What a call of `Write` on the entry in `s` with the chain `l` leaves behind. -/
structure FileWritten (v : Volume) (fd : FileDescriptor) (s : Slot) (l : List Nat) (pos : Nat)
    (ext : List Nat)
    (pos' : Nat) (r : Written) : Prop where
  extend : Extends v l ext r.vol
  file : FileAt r.vol s (l ++ ext)
  pos_le : pos ≤ pos'
  writer : WriterAt r.vol r.fd (l ++ ext) pos'
  kept : ∀ i c, i < pos → (l ++ ext)[i]? = some c → r.vol.data c = v.data c
  fatEntry : r.fd.fatEntry = s
  wrOff : r.fd.wrOff = fd.wrOff + r.total
  reader : r.fd.rdOff = fd.rdOff ∧ r.fd.rdCluster = fd.rdCluster ∧ r.fd.rdClusterOff =
    fd.rdClusterOff
  size_eq : r.vol.fileSize s = r.fd.wrOff % 2 ^ 32
  size_le : r.vol.fileSize s ≤ (l ++ ext).length * v.bytesPerCluster
  data : ∀ c, c ∉ l ++ ext → c ≠ s.cluster → r.vol.data c = v.data c
  entry : ∀ o, o < s.offset + 20 ∨ s.offset + 32 ≤ o → r.vol.data s.cluster o = v.data s.cluster o

theorem write_eq_some {r : Written} (hrun : fd.write v buf len = some r) : ∃ v₁ cluster st,
    fd.startWrite v len = some (v₁, cluster) ∧
    writeLoop buf len len { vol := v₁, cluster := cluster, clusterOff := fd.wrClusterOff } =
      some st ∧
    r = { vol := st.vol.setFileSize fd.fatEntry (fd.wrOff + st.total)
          fd := { fd with wrOff := fd.wrOff + st.total, wrCluster := st.cluster,
                          wrClusterOff := st.clusterOff }
          total := st.total
          srcEnd := st.srcEnd } := by
  rw [write] at hrun
  obtain ⟨⟨v₁, cluster⟩, hstart, hrun⟩ := Option.bind_eq_some_iff.1 hrun
  obtain ⟨st, hloop, hrun⟩ := Option.bind_eq_some_iff.1 hrun
  cases hrun
  exact ⟨v₁, cluster, st, hstart, hloop, rfl⟩

theorem write_of_loop {v₁ : Volume} {cluster : Nat} {st : WriteState}
    (hstart : fd.startWrite v len = some (v₁, cluster))
    (hloop : writeLoop buf len len
      { vol := v₁, cluster := cluster, clusterOff := fd.wrClusterOff } = some st) :
    fd.write v buf len = some
      { vol := st.vol.setFileSize fd.fatEntry (fd.wrOff + st.total)
        fd := { fd with wrOff := fd.wrOff + st.total, wrCluster := st.cluster,
                        wrClusterOff := st.clusterOff }
        total := st.total
        srcEnd := st.srcEnd } := by
  rw [write, hstart]
  show (writeLoop buf len len _).bind _ = _
  rw [hloop]
  rfl

end FileDescriptor

open FileDescriptor

variable {v : Volume} {fd : FileDescriptor} {s : Slot} {l : List Nat} {pos len : Nat}
    {buf : Nat → UInt8}

theorem FileAt.written (h : FileAt v s l) (hfd : fd.fatEntry = s) {v₁ : Volume}
    {cluster f pos' : Nat}
    {ext₁ l' : List Nat} {st : WriteState} (hst : Started v s l pos v₁ cluster ext₁ f)
    (hcur' : Cursor f l' pos' st)
    (hinv : LoopInv v₁ (l ++ ext₁) pos fd.wrOff l' pos' st) :
    ∃ ext, l' = l ++ ext ∧ FileWritten v fd s l pos ext pos'
      { vol := st.vol.setFileSize fd.fatEntry (fd.wrOff + st.total)
        fd := { fd with wrOff := fd.wrOff + st.total, wrCluster := st.cluster,
                        wrClusterOff := st.clusterOff }
        total := st.total
        srcEnd := st.srcEnd } := by
  have hB₁ := hst.extend.bytesPerCluster
  obtain ⟨⟨ext₂, rfl, hext₂⟩, hpos, hfits, hdata⟩ := hinv
  have hused₁ : ∀ c ∈ l ++ ext₁, v₁.fat c ≠ 0 := fun c => hst.chain.fat_ne_zero
  have hext : Extends v l (ext₁ ++ ext₂) st.vol := hst.extend.trans hext₂ hused₁
  have hB := hext.bytesPerCluster
  have hchain : st.vol.IsChain f (l ++ (ext₁ ++ ext₂)) := by
    rw [← List.append_assoc]
    exact hcur'.chain
  have hfree : s.cluster ∉ ext₁ ++ ext₂ := fun hmem => h.used (hext.free _ hmem).2
  have hout : s.cluster ∉ l ++ (ext₁ ++ ext₂) := by
    rw [List.mem_append, not_or]
    exact ⟨h.apart, hfree⟩
  have hkeep : ∀ c, c ∉ l ++ (ext₁ ++ ext₂) → ∀ o, st.vol.data c o = v₁.data c o := fun c hc o =>
    hdata c o fun hmem => hc (by rw [← List.append_assoc]; exact List.mem_of_mem_drop hmem)
  subst hfd
  have hfirst : st.vol.firstCluster fd.fatEntry = f := by
    rw [← hst.first]
    exact firstCluster_congr fun o _ _ => hkeep _ hout _
  have hposlt := (List.getElem?_eq_some_iff.1 hcur'.here).1
  have hoff := hcur'.off_le
  have hB₂ : st.vol.bytesPerCluster = v₁.bytesPerCluster := by rw [hB, hB₁]
  have hwr : fd.wrOff + st.total ≤ pos' * v.bytesPerCluster + st.clusterOff := by rwa [hB₁] at hfits
  refine ⟨ext₁ ++ ext₂, List.append_assoc _ _ _, hext.of_data rfl rfl rfl,
    ⟨?_, ?_, hout, ?_, ?_⟩, hpos,
    ⟨.inr ?_, hoff, ?_⟩, fun i c hi hc => ?_, rfl, rfl, ⟨rfl, rfl, rfl⟩, fileSize_setFileSize _, ?_,
      fun c hc hne => ?_, fun o ho => ?_⟩
  · refine .inr ?_
    rw [firstCluster_setFileSize, hfirst]
    exact hchain.congr rfl fun _ _ => rfl
  · show st.vol.fat fd.fatEntry.cluster ≠ 0
    rw [hext.frame _ h.apart hfree]
    exact h.used
  · rw [NumbersOk]
    exact hcur'.numbers
  · exact hcur'.bytes_pos
  · rw [← List.append_assoc]
    exact hcur'.here
  · show fd.wrOff + st.total ≤ pos' * st.vol.bytesPerCluster + st.clusterOff
    rw [hB]
    exact hwr
  · have hmem := List.mem_of_getElem? hc
    have hne : c ≠ fd.fatEntry.cluster := fun h => hout (h ▸ hmem)
    funext o
    show (st.vol.setFileSize fd.fatEntry _).data c o = v.data c o
    rw [setFileSize_data_of_ne (.inl hne), hdata c o ?_, hst.data c o (.inl hne)]
    rw [← List.append_assoc] at hc
    exact not_mem_drop_of_lt hcur'.chain.chain.nodup hc hi
  · rw [fileSize_setFileSize]
    have hle := Nat.mul_le_mul_right v.bytesPerCluster (Nat.succ_le_of_lt hposlt)
    rw [Nat.succ_mul, List.append_assoc] at hle
    have := Nat.mod_le (fd.wrOff + st.total) (2 ^ 32)
    rw [hB] at hoff
    omega
  · funext o
    show (st.vol.setFileSize fd.fatEntry _).data c o = v.data c o
    rw [setFileSize_data_of_ne (.inl hne), hkeep c hc, hst.data c o (.inl hne)]
  · show (st.vol.setFileSize fd.fatEntry _).data fd.fatEntry.cluster o = _
    rw [setFileSize_data_of_ne (by omega), hkeep _ hout, hst.data _ o (by omega)]

/-- Every call of `Write` that returns. -/
theorem FileAt.write (h : FileAt v s l) (hfd : fd.fatEntry = s) (hw : WriterAt v fd l pos)
    {r : Written} (hrun : fd.write v buf len = some r) :
    ∃ ext pos', FileWritten v fd s l pos ext pos' r := by
  obtain ⟨v₁, cluster, st, hstart, hloop, rfl⟩ := write_eq_some hrun
  obtain ⟨ext₁, f, hst, -⟩ := startWrite_cases h hfd hw.place hstart
  obtain ⟨-, l', pos', hcur', hinv⟩ := writeLoop_inv
    (fun _ _ _ _ _ _ _ hc hlt ht hi => LoopInv.turn hc hlt ht hi) (hst.cursor h hw.off_le)
      (hst.loopInv hw) hloop
  obtain ⟨ext, -, hwr⟩ := h.written hfd hst hcur' hinv
  exact ⟨ext, pos', hwr⟩

end Moxia.Fat
