import Moxia.Fat.WellFormed
import Moxia.Fat.Entry
import Moxia.Fat.File

/-!
# What `Write` does to a chain

One turn of the loop in `Write` copies into one cluster of the file's chain, at or behind the one it
was at (`writeStep_cases`); only a turn that starts at the end of the chain changes the FAT, and it
appends free clusters. The invariant of the loop (`Cursor`) keeps the position of the current
cluster in the chain: the bytes written so far fit before it.
-/

namespace Moxia.Fat

open Lib Volume

namespace FileDescriptor

variable {v v' : Volume} {f c pos rest : Nat} {l : List Nat} {buf : Nat → UInt8} {len : Nat}
    {st st' : WriteState}

theorem advance_next (h : v.IsChain f l) (hN : v.NumbersOk) (hpos : l[pos]? = some c) {c' : Nat}
    (hnext : l[pos + 1]? = some c') (rest : Nat) : advance v c rest = some (v, c') := by
  have hne : c' ≠ kEndOfClusterchain := h.ne_endMark hN (List.mem_of_getElem? hnext)
  rw [advance, h.nextCluster hpos, hnext, Option.bind_eq_bind, Option.bind_some,
    Option.getD_some, if_neg hne]

theorem advance_last (h : v.IsChain f l) (hpos : l[pos]? = some c) (hlast : pos + 1 = l.length)
    (rest : Nat) :
    advance v c rest = v.extendCluster c (numCluster v rest) := by
  rw [advance, h.nextCluster hpos, List.getElem?_eq_none (by omega), Option.bind_eq_bind,
    Option.bind_some,
    Option.getD_none, if_pos rfl]

theorem getLast_of_pos (hpos : l[pos]? = some c) (hlast : pos + 1 = l.length) :
    l.getLast? = some c := by
  rw [List.getLast?_eq_getElem?, ← hlast, Nat.add_sub_cancel, hpos]

theorem numCluster_pos (hB : 0 < v.bytesPerCluster) (hr : 0 < rest) : 0 < numCluster v rest :=
  Nat.div_pos (by omega) hB

/-- Where the next bytes go: with `ext` appended to the chain, to offset `off'` of its cluster
`pos'`. -/
structure Advanced (v : Volume) (l : List Nat) (pos clusterOff rest : Nat) (ext : List Nat)
    (pos' off' : Nat) :
    Prop where
  off : off' = if clusterOff = v.bytesPerCluster then 0 else clusterOff
  stay : clusterOff ≠ v.bytesPerCluster → pos' = pos ∧ ext = []
  next : clusterOff = v.bytesPerCluster → pos + 1 < l.length → pos' = pos + 1 ∧ ext = []
  last : clusterOff = v.bytesPerCluster → pos + 1 = l.length →
    numCluster v rest ≤ v.freeClusters.length ∧ ext = v.freeClusters.take (numCluster v rest) ∧
      pos' + 1 = l.length + numCluster v rest

/-- What the copy of a turn does. -/
structure Copied (v : Volume) (buf : Nat → UInt8) (len : Nat) (st : WriteState) (off' : Nat)
    (st' : WriteState) :
    Prop where
  total : st'.total = st.total + min len (v.bytesPerCluster - off')
  clusterOff : st'.clusterOff = off' + min len (v.bytesPerCluster - off')
  srcEnd : st'.srcEnd = max st.srcEnd st'.total
  data : ∀ c o, st'.vol.data c o = if c = st'.cluster ∧ off' ≤ o ∧ o < st'.clusterOff
    then buf (st.total + (o - off')) else v.data c o

theorem writeChunk_eq (buf : Nat → UInt8) (len : Nat) (st : WriteState)
    (hc : st.vol.InRange st.cluster) : ∃ st', writeChunk buf len st = some st' ∧
    st'.vol.fat = st.vol.fat ∧ st'.vol.bpb = st.vol.bpb ∧ st'.vol.numClusters = st.vol.numClusters ∧
    st'.cluster = st.cluster ∧ Copied st.vol buf len st st.clusterOff st' :=
  ⟨_, if_pos hc, rfl, rfl, rfl, rfl, rfl, rfl, rfl, fun c o => by rw [store_data]⟩

/-- `Write` is at the cluster `pos` of the file's chain. -/
structure Cursor (f : Nat) (l : List Nat) (pos : Nat) (st : WriteState) : Prop where
  chain : st.vol.IsChain f l
  numbers : st.vol.NumbersOk
  bytes_pos : 0 < st.vol.bytesPerCluster
  here : l[pos]? = some st.cluster
  off_le : st.clusterOff ≤ st.vol.bytesPerCluster

/-- One turn of the loop, from `st` at the cluster `pos` of `l` to `st'` at `pos'` of `l ++ ext`. -/
structure Turn (buf : Nat → UInt8) (len : Nat) (l : List Nat) (pos : Nat) (st : WriteState)
    (ext : List Nat)
    (pos' off' : Nat) (st' : WriteState) : Prop where
  advanced : Advanced st.vol l pos st.clusterOff (len - st.total) ext pos' off'
  extend : Extends st.vol l ext st'.vol
  here : (l ++ ext)[pos']? = some st'.cluster
  copied : Copied st.vol buf len st off' st'

/-- The loop gets stuck only where clusters run out. -/
theorem writeStep_spec (hcur : Cursor f l pos st) (buf : Nat → UInt8) (hlt : st.total < len) :
    (∃ ext pos' off' st', writeStep buf len st = some st' ∧
      Turn buf len l pos st ext pos' off' st') ∨
    (writeStep buf len st = none ∧ st.clusterOff = st.vol.bytesPerCluster ∧ pos + 1 = l.length ∧
      st.vol.freeClusters.length < numCluster st.vol (len - st.total)) := by
  obtain ⟨h, hN, hB, hpos, -⟩ := hcur
  have hr : st.vol.InRange st.cluster := h.inRange _ (List.mem_of_getElem? hpos)
  have hposlt : pos < l.length := (List.getElem?_eq_some_iff.1 hpos).1
  by_cases hend : st.clusterOff = st.vol.bytesPerCluster
  swap
  · obtain ⟨st', hrun, hf, hb, hn, hcl, hcopy⟩ := writeChunk_eq buf len st hr
    refine .inl ⟨[], pos, st.clusterOff, st', by rw [writeStep, if_neg hend, hrun], ?_,
      (Extends.refl st.vol l).of_data hf hb hn, by rw [List.append_nil, hcl, hpos], hcopy⟩
    exact ⟨by rw [if_neg hend], fun _ => ⟨rfl, rfl⟩, fun h => absurd h hend, fun h => absurd h hend⟩
  by_cases hlast : pos + 1 < l.length
  · -- the next cluster of the chain
    obtain ⟨c', hc'⟩ : ∃ c', l[pos + 1]? = some c' := ⟨_, List.getElem?_eq_getElem hlast⟩
    have hadv := advance_next h hN hpos hc' (len - st.total)
    have hr' : st.vol.InRange c' := h.inRange _ (List.mem_of_getElem? hc')
    obtain ⟨st', hrun, hf, hb, hn, hcl, hcopy⟩ := writeChunk_eq buf len
      { st with cluster := c', clusterOff := 0 } hr'
    refine .inl ⟨[], pos + 1, 0, st', ?_, ?_, (Extends.refl st.vol l).of_data hf hb hn,
      by rw [List.append_nil, hcl, hc'], hcopy.total, hcopy.clusterOff, hcopy.srcEnd, hcopy.data⟩
    · rw [writeStep, if_pos hend, hadv, Option.bind_some]
      exact hrun
    · exact ⟨by rw [if_pos hend], fun h => absurd hend h, fun _ _ => ⟨rfl,
        rfl⟩, fun _ h => absurd h (by omega)⟩
  have hlast : pos + 1 = l.length := by omega
  obtain ⟨hsome, hnone⟩ :=
    h.extendCluster hN (n := numCluster st.vol (len - st.total)) (List.mem_of_getElem? hpos)
    (getLast_of_pos hpos hlast)
  have hadv := advance_last h hpos hlast (len - st.total)
  have hk := numCluster_pos hB (Nat.sub_pos_of_lt hlt)
  by_cases hfree : numCluster st.vol (len - st.total) ≤ st.vol.freeClusters.length
  · -- new clusters are appended, the last of them is written to
    obtain ⟨w, hrunE, hdata, hext⟩ := hsome hfree
    set k := numCluster st.vol (len - st.total) with hkdef
    set ext := st.vol.freeClusters.take k with hextdef
    have hlen : ext.length = k := List.length_take_of_le hfree
    set c' := ext.getLast?.getD st.cluster with hcdef
    have hc' : ext[k - 1]? = some c' := by
      rw [hcdef, List.getLast?_eq_getElem?, hlen, List.getElem?_eq_getElem (by omega)]
      rfl
    have hr' : w.InRange c' := hext.inRange_iff.2 (hext.free c' (List.mem_of_getElem? hc')).1
    obtain ⟨st', hrun, hf, hb, hn, hcl, hcopy⟩ := writeChunk_eq buf len
      { st with vol := w, cluster := c', clusterOff := 0 } hr'
    have hB' : w.bytesPerCluster = st.vol.bytesPerCluster := hext.bytesPerCluster
    obtain ⟨ht, ho, hsrc, hd⟩ := hcopy
    simp only [hB', hdata] at ht ho hd
    refine .inl ⟨ext, l.length + k - 1, 0, st', ?_, ?_, hext.of_data hf hb hn, ?_, ht, ho, hsrc, hd⟩
    · rw [writeStep, if_pos hend, hadv, hrunE, Option.bind_some]
      exact hrun
    · exact ⟨by rw [if_pos hend], fun h => absurd hend h, fun _ h => absurd h (by omega),
        fun _ _ => ⟨hfree, rfl, by omega⟩⟩
    · rw [List.getElem?_append_right (by omega), hcl, ← hc']
      congr 1
      omega
  · refine .inr ⟨?_, hend, hlast, by omega⟩
    rw [writeStep, if_pos hend, hadv, hnone (by omega)]
    rfl

namespace Turn

variable {ext : List Nat} {pos' off' : Nat}

theorem off'_lt (h : Turn buf len l pos st ext pos' off' st') (hcur : Cursor f l pos st) :
    off' < st.vol.bytesPerCluster := by
  rw [h.advanced.off]
  split
  · exact hcur.bytes_pos
  · rename_i hne
    exact Nat.lt_of_le_of_ne hcur.off_le hne

theorem cursor (h : Turn buf len l pos st ext pos' off' st') (hcur : Cursor f l pos st) :
    Cursor f (l ++ ext) pos' st' := by
  have hB := h.extend.bytesPerCluster
  have hoff := h.off'_lt hcur
  refine ⟨h.extend.chain hcur.chain, ?_, by rw [hB]; exact hcur.bytes_pos, h.here, ?_⟩
  · rw [NumbersOk, h.extend.numClusters]
    exact hcur.numbers
  · rw [h.copied.clusterOff, hB]
    omega

theorem total_lt (h : Turn buf len l pos st ext pos' off' st') (hcur : Cursor f l pos st)
    (hlt : st.total < len) :
    st.total < st'.total := by
  have hoff := h.off'_lt hcur
  rw [h.copied.total]
  omega

theorem pos_lt (h : Turn buf len l pos st ext pos' off' st') (hcur : Cursor f l pos st)
    (hlt : st.total < len)
    (hend : st.clusterOff = st.vol.bytesPerCluster) : pos < pos' := by
  have hposlt := (List.getElem?_eq_some_iff.1 hcur.here).1
  by_cases hlast : pos + 1 < l.length
  · rw [(h.advanced.next hend hlast).1]
    omega
  · have := (h.advanced.last hend (by omega)).2.2
    have := numCluster_pos hcur.bytes_pos (Nat.sub_pos_of_lt hlt)
    omega

theorem pos_le (h : Turn buf len l pos st ext pos' off' st') (hcur : Cursor f l pos st)
    (hlt : st.total < len) :
    pos ≤ pos' := by
  by_cases hend : st.clusterOff = st.vol.bytesPerCluster
  · exact Nat.le_of_lt (h.pos_lt hcur hlt hend)
  · exact Nat.le_of_eq (h.advanced.stay hend).1.symm

end Turn

theorem writeLoop_inv {P : List Nat → Nat → WriteState → Prop}
    (hP : ∀ l pos st ext pos' off' st', Cursor f l pos st → st.total < len →
      Turn buf len l pos st ext pos' off' st' → P l pos st → P (l ++ ext) pos' st') :
    ∀ {fuel l pos st}, Cursor f l pos st → P l pos st → writeLoop buf len fuel st = some st' →
      len ≤ st'.total ∧ ∃ l' pos', Cursor f l' pos' st' ∧ P l' pos' st' := by
  intro fuel
  induction fuel with
  | zero =>
    intro l pos st hcur hp hrun
    rw [writeLoop] at hrun
    split at hrun
    · cases hrun
    · cases hrun
      exact ⟨by omega, l, pos, hcur, hp⟩
  | succ fuel ih =>
    intro l pos st hcur hp hrun
    rw [writeLoop] at hrun
    split at hrun
    · rename_i hlt
      rcases writeStep_spec hcur buf hlt with ⟨ext, pos', off', st₁, hstep, hturn⟩ | ⟨hnone, -⟩
      · rw [hstep, Option.bind_some] at hrun
        exact ih (hturn.cursor hcur) (hP _ _ _ _ _ _ _ hcur hlt hturn hp) hrun
      · rw [hnone] at hrun
        cases hrun
    · cases hrun
      exact ⟨by omega, l, pos, hcur, hp⟩

/-- The loop comes to its end if the clusters suffice in every turn. -/
theorem writeLoop_total {P : List Nat → Nat → WriteState → Prop}
    (hP : ∀ l pos st ext pos' off' st', Cursor f l pos st → st.total < len →
      Turn buf len l pos st ext pos' off' st' → P l pos st → P (l ++ ext) pos' st')
    (hfree : ∀ l pos st, Cursor f l pos st → st.total < len → P l pos st →
      st.clusterOff = st.vol.bytesPerCluster → pos + 1 = l.length →
      numCluster st.vol (len - st.total) ≤ st.vol.freeClusters.length) :
    ∀ {fuel l pos st}, Cursor f l pos st → P l pos st → len - st.total ≤ fuel →
      ∃ st', writeLoop buf len fuel st = some st' := by
  intro fuel
  induction fuel with
  | zero =>
    intro l pos st _ _ hfuel
    exact ⟨st, by rw [writeLoop, if_neg (by omega)]⟩
  | succ fuel ih =>
    intro l pos st hcur hp hfuel
    rw [writeLoop]
    split
    · rename_i hlt
      rcases writeStep_spec hcur buf hlt with ⟨ext, pos', off', st₁, hstep, hturn⟩ | ⟨-,
        hend, hlast, hno⟩
      · rw [hstep, Option.bind_some]
        have := hturn.total_lt hcur hlt
        exact ih (hturn.cursor hcur) (hP _ _ _ _ _ _ _ hcur hlt hturn hp) (by omega)
      · have := hfree l pos st hcur hlt hp hend hlast
        omega
    · exact ⟨st, rfl⟩

end FileDescriptor

end Moxia.Fat
