import Moxia.Lib.Run
import Moxia.Fat.Contents
import Moxia.Fat.Small
import Moxia.Fat.WriteFile

/-!
# Readers and writers of one file

Any number of descriptors of one entry are read and written in turn. A `Read` is right if it returns
the bytes of the file at the descriptor's offset, and touches the file's clusters only. It is,
except where another descriptor has made the file shorter than what was read already (`file_size -
rd_off_` wraps around), and where the descriptor has cached the end of a chain that has been
extended since.
-/

namespace Moxia.Fat

open Lib Volume FileDescriptor

variable {v : Volume} {fd : FileDescriptor} {s : Slot} {l : List Nat} {f len r : Nat}
    {st st' : ReadState}

/-! ### The loop of `Read` -/

/-- The loop, started at offset `r` of the chain `l`, is at offset `r + total`. -/
structure ReadAt (v : Volume) (l : List Nat) (r : Nat) (st : ReadState) : Prop where
  bytes : st.bytes = ((v.chainBytes l).drop r).take st.total
  place : (∃ pos, l[pos]? = some st.cluster ∧
      r + st.total = pos * v.bytesPerCluster + st.clusterOff ∧
      st.clusterOff < v.bytesPerCluster) ∨
    (st.cluster = kEndOfClusterchain ∧ st.clusterOff = 0 ∧
      r + st.total = l.length * v.bytesPerCluster)
  touched : ∀ c ∈ st.touched, c ∈ l

/-- One turn inside the chain: it copies something, not more than `len` bytes in all. -/
theorem ReadAt.step (h : ReadAt v l r st) (hl : v.IsChain f l) (hlt : st.total < len)
    (hle : r + len ≤ l.length * v.bytesPerCluster) :
    ∃ st', readStep v len st = some st' ∧ ReadAt v l r st' ∧ st.total < st'.total ∧
      st'.total ≤ len := by
  obtain ⟨pos, hpos, hq, hoff⟩ := h.place.resolve_right fun h => by omega
  set n := min (len - st.total) (v.bytesPerCluster - st.clusterOff) with hn
  have hposlt := (List.getElem?_eq_some_iff.1 hpos).1
  have hpiece : ((v.chainBytes l).drop (pos * v.bytesPerCluster + st.clusterOff)).take n = _ :=
    chainBytes_piece hpos (by omega)
  set bytes := st.bytes ++ (List.range n).map fun i =>
    v.data st.cluster (st.clusterOff + i) with hbytes
  have hlen : bytes.length = st.total + n := by simp [hbytes, ReadState.total]
  have hnew : bytes = ((v.chainBytes l).drop r).take bytes.length := by
    rw [hlen, List.take_add, ← h.bytes, List.drop_drop, hq, hpiece]
  have htouch : ∀ c ∈ st.touched ++ [st.cluster], c ∈ l := by
    intro c hc
    rcases List.mem_append.1 hc with hc | hc
    · exact h.touched c hc
    · exact List.mem_singleton.1 hc ▸ List.mem_of_getElem? hpos
  have hr := hl.inRange _ (List.mem_of_getElem? hpos)
  by_cases hend : st.clusterOff + n = v.bytesPerCluster
  · refine ⟨{ cluster := (l[pos + 1]?).getD kEndOfClusterchain, clusterOff := 0, bytes := bytes,
              touched := st.touched ++ [st.cluster] }, ?_, ⟨hnew, ?_, htouch⟩, ?_, ?_⟩
    · rw [readStep, if_pos hr, ← hn, if_pos hend, hl.nextCluster hpos]
      rfl
    · show _ ∨ (_ ∧ _ ∧ r + bytes.length = _)
      by_cases hlast : pos + 1 < l.length
      · refine .inl ⟨pos + 1, by rw [List.getElem?_eq_getElem hlast, Option.getD_some], ?_,
          Nat.lt_of_le_of_lt (Nat.zero_le _) hoff⟩
        show r + bytes.length = (pos + 1) * v.bytesPerCluster + 0
        rw [hlen, Nat.succ_mul]
        omega
      · refine .inr ⟨by rw [List.getElem?_eq_none (by omega), Option.getD_none], rfl, ?_⟩
        rw [show l.length = pos + 1 by omega, Nat.succ_mul]
        omega
    · show st.total < bytes.length
      omega
    · show bytes.length ≤ len
      omega
  · refine ⟨{ cluster := st.cluster, clusterOff := st.clusterOff + n, bytes := bytes,
              touched := st.touched ++ [st.cluster] }, ?_, ⟨hnew, .inl ⟨pos, hpos, ?_, ?_⟩, htouch⟩,
                ?_, ?_⟩
    · rw [readStep, if_pos hr, ← hn, if_neg hend]
    · show r + bytes.length = pos * v.bytesPerCluster + (st.clusterOff + n)
      omega
    · show st.clusterOff + n < v.bytesPerCluster
      omega
    · show st.total < bytes.length
      omega
    · show bytes.length ≤ len
      omega

theorem ReadAt.loop (hl : v.IsChain f l) (hle : r + len ≤ l.length * v.bytesPerCluster) :
    ∀ fuel {st}, ReadAt v l r st → st.total ≤ len → len - st.total ≤ fuel →
      ∃ st', readLoop v len fuel st = some st' ∧ ReadAt v l r st' ∧ st'.total = len := by
  intro fuel
  induction fuel with
  | zero =>
    intro st h hlt hfuel
    exact ⟨st, by rw [readLoop, if_neg (by omega)], h, by omega⟩
  | succ fuel ih =>
    intro st h hlt hfuel
    rw [readLoop]
    split
    · rename_i hlt'
      obtain ⟨st₁, hstep, h₁, hprog, hle₁⟩ := h.step hl hlt' hle
      rw [hstep, Option.bind_some]
      exact ih h₁ hle₁ (by omega)
    · exact ⟨st, rfl, h, by omega⟩

theorem le_total_of_readLoop : ∀ {fuel st}, readLoop v len fuel st = some st' →
    len ≤ st'.total := by
  intro fuel
  induction fuel with
  | zero =>
    intro st h
    rw [readLoop] at h
    split at h
    · cases h
    · cases h
      omega
  | succ fuel ih =>
    intro st h
    rw [readLoop] at h
    split at h
    · obtain ⟨st₁, -, h⟩ := Option.bind_eq_some_iff.1 h
      exact ih h
    · cases h
      omega

/-! ### Descriptors -/

/-- Where the descriptor reads next: it has not started, or is in the chain, or has seen an end of
it. -/
def ReaderAt (v : Volume) (fd : FileDescriptor) (l : List Nat) : Prop :=
  (fd.rdCluster = 0 ∧ fd.rdOff = 0 ∧ fd.rdClusterOff = 0) ∨
  (∃ pos, l[pos]? = some fd.rdCluster ∧ fd.rdOff = pos * v.bytesPerCluster + fd.rdClusterOff ∧
    fd.rdClusterOff < v.bytesPerCluster) ∨
  (fd.rdCluster = kEndOfClusterchain ∧ fd.rdClusterOff = 0 ∧
    fd.rdOff ≤ l.length * v.bytesPerCluster)

/-- `Read(buf, len)` returns the bytes of the file from `rd_off_` on, and touches its clusters
only. -/
def ReadRight (v : Volume) (fd : FileDescriptor) (len : Nat) : Prop :=
  ∃ l bytes touched fd', v.EntryChain fd.fatEntry l ∧ fd.read v len = some (bytes, touched, fd') ∧
    bytes.length = min len (v.fileSize fd.fatEntry - fd.rdOff) ∧
    bytes = ((v.contents fd.fatEntry l).drop fd.rdOff).take len ∧ ∀ c ∈ touched, c ∈ l

/-- The file is not shorter than what was read, and there is nothing to read behind a cached end. -/
def ReadOk (v : Volume) (fd : FileDescriptor) (len : Nat) : Prop :=
  len = 0 ∨ fd.rdOff = v.fileSize fd.fatEntry ∨
    (fd.rdOff < v.fileSize fd.fatEntry ∧ fd.rdCluster ≠ kEndOfClusterchain)

instance (v : Volume) (fd : FileDescriptor) (len : Nat) : Decidable (ReadOk v fd len) :=
  inferInstanceAs (Decidable (_ ∨ _))

theorem readLen_of_le (h : fd.rdOff ≤ v.fileSize fd.fatEntry) :
    fd.readLen v len = min len (v.fileSize fd.fatEntry - fd.rdOff) := by
  have : v.fileSize fd.fatEntry < 2 ^ 32 := fileSize_lt
  rw [readLen]
  congr 1
  omega

theorem rdOff_le (h : ReaderAt v fd l) : fd.rdOff ≤ l.length * v.bytesPerCluster := by
  rcases h with ⟨-, h0, -⟩ | ⟨pos, hpos, hq, hoff⟩ | ⟨-, -, hle⟩
  · omega
  · have := Nat.mul_le_mul_right v.bytesPerCluster
      (Nat.succ_le_of_lt (List.getElem?_eq_some_iff.1 hpos).1)
    rw [Nat.succ_mul] at this
    omega
  · exact hle

/-- The chains of a volume are far shorter than 2^64 bytes. -/
theorem rdOff_lt (h : ReaderAt v fd l) (hl : FileAt v s l) : fd.rdOff < 2 ^ 64 := by
  have hle := rdOff_le h
  have hlen : l.length ≤ 2 ^ 28 := by
    have hN := hl.numbers
    rw [NumbersOk] at hN
    rcases hl.chain with ⟨-, rfl⟩ | hc
    · simp
    · have := hc.length_le
      omega
  have hB : v.bytesPerCluster ≤ 2 ^ 16 * 2 ^ 8 :=
    Nat.mul_le_mul (Nat.le_of_lt (UInt16.toNat_lt _)) (Nat.le_of_lt (UInt8.toNat_lt _))
  have := Nat.mul_le_mul hlen hB
  omega

/-- The loop starts inside the chain, unless it starts behind a cached end. -/
theorem startRead_readAt (hl : FileAt v s l) (hfd : fd.fatEntry = s) (h : ReaderAt v fd l)
    (hne : fd.rdCluster ≠ kEndOfClusterchain) (hnil : l ≠ []) :
    ReadAt v l fd.rdOff { cluster := fd.startRead v, clusterOff := fd.rdClusterOff } := by
  subst hfd
  have hchain := hl.chain.resolve_left fun h => hnil h.2
  refine ⟨rfl, .inl ?_, by simp⟩
  show ∃ pos, l[pos]? = some (fd.startRead v) ∧ fd.rdOff + 0 = _ ∧ _
  rcases h with ⟨h0, hr0, ho0⟩ | ⟨pos, hpos, hq, hoff⟩ | ⟨hend, -⟩
  · refine ⟨0, ?_, ?_, ?_⟩
    · rw [startRead, if_pos h0]
      exact hchain.chain.getElem_zero
    · show fd.rdOff + 0 = 0 * v.bytesPerCluster + fd.rdClusterOff
      omega
    · show fd.rdClusterOff < v.bytesPerCluster
      rw [ho0]
      exact hl.bytes_pos
  · refine ⟨pos, ?_, by omega, hoff⟩
    have h0 : fd.rdCluster ≠ 0 := by
      have := (hchain.inRange _ (List.mem_of_getElem? hpos)).1
      omega
    rw [startRead, if_neg h0, hpos]
  · exact absurd hend hne

theorem read_spec (hl : FileAt v s l) (hsize : v.fileSize s ≤ l.length * v.bytesPerCluster)
    (hfd : fd.fatEntry = s) (h : ReaderAt v fd l) (hok : ReadOk v fd len) :
    ∃ bytes touched fd', fd.read v len = some (bytes, touched, fd') ∧
      bytes.length = min len (v.fileSize s - fd.rdOff) ∧
      bytes = ((v.contents s l).drop fd.rdOff).take len ∧ (∀ c ∈ touched, c ∈ l) ∧
        ReaderAt v fd' l ∧
      fd' = { fd with rdOff := fd'.rdOff, rdCluster := fd'.rdCluster,
                      rdClusterOff := fd'.rdClusterOff } ∧
      fd'.rdOff = fd.rdOff + bytes.length ∧
      (fd'.rdCluster = kEndOfClusterchain →
        fd.rdCluster = kEndOfClusterchain ∨ fd'.rdOff = l.length * v.bytesPerCluster) := by
  have hfd' := hfd
  subst hfd
  have hclen := length_contents hsize
  by_cases hzero : fd.readLen v len = 0
  · -- nothing to read
    have hmin : min len (v.fileSize fd.fatEntry - fd.rdOff) = 0 := by
      rcases hok with rfl | heq | ⟨hlt, -⟩
      · omega
      · omega
      · rw [← readLen_of_le (Nat.le_of_lt hlt), hzero]
    refine ⟨[], [], { fd with rdOff := fd.rdOff + 0, rdCluster := fd.startRead v },
      ?_, by rw [hmin]; rfl, ?_,
      by simp, ?_, rfl, rfl, ?_⟩
    · rw [FileDescriptor.read, hzero]
      rfl
    · rw [eq_comm, List.eq_nil_iff_length_eq_zero, List.length_take, List.length_drop, hclen]
      exact hmin
    · rcases h with ⟨h0, hr0, ho0⟩ | ⟨pos, hpos, hq, hoff⟩ | ⟨hend, hrest⟩
      · have hstart : fd.startRead v = v.firstCluster fd.fatEntry := by rw [startRead, if_pos h0]
        rw [hstart]
        rcases hl.chain with ⟨hf0, -⟩ | hchain
        · exact .inl ⟨hf0, hr0, ho0⟩
        · refine .inr (.inl ⟨0, hchain.chain.getElem_zero, ?_, ?_⟩)
          · show fd.rdOff + 0 = 0 * v.bytesPerCluster + fd.rdClusterOff
            omega
          · show fd.rdClusterOff < _
            rw [ho0]
            exact hl.bytes_pos
      · have h0 : fd.rdCluster ≠ 0 := by
          have := (hl.chain.inRange _ (List.mem_of_getElem? hpos)).1
          omega
        have hstart : fd.startRead v = fd.rdCluster := by rw [startRead, if_neg h0]
        rw [hstart]
        exact .inr (.inl ⟨pos, hpos, hq, hoff⟩)
      · have hstart : fd.startRead v = fd.rdCluster := by
          rw [startRead, if_neg (by rw [hend]; decide)]
        rw [hstart]
        exact .inr (.inr ⟨hend, hrest⟩)
    · show fd.startRead v = _ → _
      rw [startRead]
      split
      · intro hend
        rcases hl.chain with ⟨h0, -⟩ | hchain
        · rw [h0] at hend
          cases hend
        · exact absurd hend (hchain.ne_endMark hl.numbers hchain.chain.mem_head)
      · exact .inl
  · have hlt : fd.rdOff < v.fileSize fd.fatEntry ∧ fd.rdCluster ≠ kEndOfClusterchain := by
      rcases hok with rfl | heq | hlt
      · exact absurd (Nat.zero_min _) hzero
      · rw [readLen_of_le (Nat.le_of_eq heq), heq] at hzero
        omega
      · exact hlt
    have hlen : fd.readLen v len = min len _ := readLen_of_le (Nat.le_of_lt hlt.1)
    have hnil : l ≠ [] := by
      rintro rfl
      simp at hsize
      omega
    have hchain := hl.chain.resolve_left fun h => hnil h.2
    have hle : fd.rdOff + fd.readLen v len ≤ l.length * v.bytesPerCluster := by omega
    obtain ⟨st', hloop, hread, htot⟩ := ReadAt.loop hchain hle (fd.readLen v len)
      (startRead_readAt hl hfd' h hlt.2 hnil) (Nat.zero_le _) (Nat.sub_le _ _)
    refine ⟨st'.bytes, st'.touched,
      { fd with
        rdOff := fd.rdOff + st'.total
        rdCluster := st'.cluster
        rdClusterOff := st'.clusterOff }, ?_, ?_, ?_, hread.touched, ?_, rfl, rfl,
          fun hend => .inr ?_⟩
    · rw [FileDescriptor.read]
      simp only [hloop, Option.bind_eq_bind, Option.bind_some]
    · exact htot.trans hlen
    · rw [hread.bytes, htot, contents, List.drop_take, List.take_take, hlen]
    · rcases hread.place with ⟨pos, hpos, hq, hoff⟩ | ⟨hend, hoff, hq⟩
      · exact .inr (.inl ⟨pos, hpos, hq, hoff⟩)
      · exact .inr (.inr ⟨hend, hoff, Nat.le_of_eq hq⟩)
    · rcases hread.place with ⟨pos, hpos, -⟩ | ⟨-, -, hq⟩
      · exact absurd hend (hchain.ne_endMark hl.numbers (List.mem_of_getElem? hpos))
      · exact hq

/-- Where the condition fails, `Read` goes wrong. -/
theorem readOk_of_readRight (hl : FileAt v s l) (h : ReaderAt v fd l)
    (hright : ReadRight v fd len) : ReadOk v fd len := by
  obtain ⟨m, bytes, touched, fd', -, hrun, hlen, -, -⟩ := hright
  rw [FileDescriptor.read] at hrun
  obtain ⟨st', hloop, hrun⟩ := Option.bind_eq_some_iff.1 hrun
  cases hrun
  have htot := le_total_of_readLoop hloop
  by_contra hok
  simp only [ReadOk, not_or] at hok
  obtain ⟨hpos, hne, hnot⟩ := hok
  by_cases hlt : fd.rdOff < v.fileSize fd.fatEntry
  · -- the loop starts outside of the volume
    have hend : fd.rdCluster = kEndOfClusterchain := by
      by_contra hne
      exact hnot ⟨hlt, hne⟩
    have hstart : fd.startRead v = kEndOfClusterchain := by
      rw [startRead, if_neg (by rw [hend]; decide), hend]
    obtain ⟨k, hk⟩ : ∃ k, fd.readLen v len = k + 1 := by
      rw [readLen_of_le (Nat.le_of_lt hlt)]
      exact ⟨min len (v.fileSize fd.fatEntry - fd.rdOff) - 1, by omega⟩
    have hout : ¬ v.InRange kEndOfClusterchain := by
      have hN := hl.numbers
      rw [NumbersOk] at hN
      rw [InRange]
      simp only [kEndOfClusterchain]
      omega
    have hnone : readLoop v (k + 1) (k + 1) { cluster := fd.startRead v,
                                              clusterOff := fd.rdClusterOff } = none := by
      rw [readLoop, readStep, hstart, if_neg hout]
      exact if_pos (Nat.succ_pos k)
    rw [hk, hnone] at hloop
    cases hloop
  · -- the difference wraps around
    have h64 := rdOff_lt h hl
    have hbytes : st'.total = 0 := hlen.trans (by omega)
    rw [hbytes, readLen] at htot
    omega

/-! ### Runs -/

/-- A volume and the open descriptors of one of its files. -/
structure Shared where
  vol : Volume
  fds : Nat → FileDescriptor

namespace Shared

inductive Event
  | read (i len : Nat)
  | write (i : Nat) (buf : Nat → UInt8) (len : Nat)

def step (st : Shared) : Event → Option Shared
  | .read i len => ((st.fds i).read st.vol len).map fun (_, _, fd) =>
    { st with fds := Function.update st.fds i fd }
  | .write i buf len => ((st.fds i).write st.vol buf len).map fun r =>
    { vol := r.vol, fds := Function.update st.fds i r.fd }

/-- Every `Read` is made where its condition holds. -/
def Reads (st : Shared) : Event → Prop
  | .read i len => ReadOk st.vol (st.fds i) len
  | .write _ _ _ => True

instance (st : Shared) (e : Event) : Decidable (st.Reads e) :=
  match e with
  | .read i len => inferInstanceAs (Decidable (ReadOk st.vol (st.fds i) len))
  | .write _ _ _ => isTrue trivial

def Step : Shared → Event → Shared → Prop := Guarded Reads fun st e st' => st.step e = some st'

structure Inv (s : Slot) (st : Shared) (l : List Nat) : Prop where
  file : FileAt st.vol s l
  size : st.vol.fileSize s ≤ l.length * st.vol.bytesPerCluster
  entry : ∀ i, (st.fds i).fatEntry = s
  reader : ∀ i, ReaderAt st.vol (st.fds i) l
  writer : ∀ i, ∃ pos, WriterAt st.vol (st.fds i) l pos

variable {st st' : Shared}

theorem Inv.read (h : Inv s st l) {i len : Nat} (hok : ReadOk st.vol (st.fds i) len)
    (hs : st.step (.read i len) = some st') : Inv s st' l := by
  obtain ⟨bytes, touched, fd', hrun, -, -, -, hreader, hrest, -⟩ :=
    read_spec h.file h.size (h.entry i) (h.reader i) hok
  rw [step, hrun] at hs
  cases hs
  have hkeep : fd'.fatEntry = (st.fds i).fatEntry ∧ fd'.wrCluster = (st.fds i).wrCluster ∧
      fd'.wrClusterOff = (st.fds i).wrClusterOff ∧ fd'.wrOff = (st.fds i).wrOff := by
    rw [hrest]
    exact ⟨rfl, rfl, rfl, rfl⟩
  obtain ⟨hent, hwc, hwo, hw⟩ := hkeep
  refine ⟨h.file, h.size, fun j => ?_, fun j => ?_, fun j => ?_⟩
  all_goals
    show _
    by_cases hj : j = i
  · subst hj
    simp only [Function.update_self, hent, h.entry]
  · simp only [Function.update_of_ne hj, h.entry]
  · subst hj
    simpa only [Function.update_self] using hreader
  · simpa only [Function.update_of_ne hj] using h.reader j
  · subst hj
    obtain ⟨pos, hplace, hoff, hle⟩ := h.writer j
    simp only [Function.update_self]
    exact ⟨pos, by rw [hwc]; exact hplace, by rw [hwo]; exact hoff, by rw [hw, hwo]; exact hle⟩
  · simpa only [Function.update_of_ne hj] using h.writer j

theorem readerAt_append {v' : Volume} {ext : List Nat} (hB : v'.bytesPerCluster = v.bytesPerCluster)
    (h : ReaderAt v fd l) : ReaderAt v' fd (l ++ ext) := by
  rcases h with h | ⟨pos, hpos, hq, hoff⟩ | ⟨hend, hoff, hle⟩
  · exact .inl h
  · refine .inr (.inl ⟨pos, ?_, by rw [hB]; exact hq, by rw [hB]; exact hoff⟩)
    rw [List.getElem?_append_left (List.getElem?_eq_some_iff.1 hpos).1, hpos]
  · refine .inr (.inr ⟨hend, hoff, ?_⟩)
    rw [hB, List.length_append, Nat.add_mul]
    omega

theorem Inv.write (h : Inv s st l) {i len : Nat} {buf : Nat → UInt8}
    (hs : st.step (.write i buf len) = some st') : ∃ ext, Inv s st' (l ++ ext) := by
  obtain ⟨r, hrun, rfl⟩ := Option.map_eq_some_iff.1 hs
  obtain ⟨pos, hw⟩ := h.writer i
  obtain ⟨ext, pos', hwr⟩ := h.file.write (h.entry i) hw hrun
  have hB := hwr.extend.bytesPerCluster
  obtain ⟨hr₁, hr₂, hr₃⟩ := hwr.reader
  refine ⟨ext, hwr.file, by rw [hB]; exact hwr.size_le, fun j => ?_, fun j => ?_, fun j => ?_⟩
  all_goals
    show _
    by_cases hj : j = i
  · subst hj
    simpa only [Function.update_self] using hwr.fatEntry
  · simp only [Function.update_of_ne hj, h.entry]
  · subst hj
    have : ReaderAt r.vol (st.fds j) (l ++ ext) := readerAt_append hB (h.reader j)
    simp only [Function.update_self]
    rw [ReaderAt] at this ⊢
    rwa [hr₁, hr₂, hr₃]
  · simpa only [Function.update_of_ne hj] using readerAt_append hB (h.reader j)
  · subst hj
    exact ⟨pos', by simpa only [Function.update_self] using hwr.writer⟩
  · obtain ⟨pos', hw'⟩ := h.writer j
    exact ⟨pos', by simpa only [Function.update_of_ne hj] using hw'.append hB⟩

theorem Inv.run {es : List Event} (h : Inv s st l) (hrun : Run Step st es st') :
    ∃ l', Inv s st' l' := by
  refine hrun.inv (I := fun st => ∃ l, Inv s st l) ?_ ⟨l, h⟩
  rintro s₁ e s₂ ⟨l₁, h₁⟩ ⟨hok, hstep⟩
  cases e with
  | read i len => exact ⟨l₁, h₁.read hok hstep⟩
  | write i buf len =>
    obtain ⟨ext, h₂⟩ := h₁.write hstep
    exact ⟨_, h₂⟩

/-- Fresh descriptors of the entry in `s`. -/
def opened (v : Volume) (s : Slot) : Shared := { vol := v, fds := fun _ => { fatEntry := s } }

theorem inv_opened (hwf : v.WellFormed) (hs : v.Live s) : ∃ l, Inv s (opened v s) l := by
  obtain ⟨l, hl⟩ := hwf.chain s hs
  exact ⟨l, hwf.fileAt hs hl, hwf.size s l hs hl, fun _ => rfl, fun _ => .inl ⟨rfl, rfl, rfl⟩,
    fun _ => ⟨0, .fresh v s l⟩⟩

end Shared

/-- In every run of reads and writes of a file in which the reads so far were made where their
condition holds, a read is right exactly where its condition holds. -/
theorem read_right_iff (hwf : v.WellFormed) (hs : v.Live s) {es : List Shared.Event} {st : Shared}
    (hrun : Run Shared.Step (Shared.opened v s) es st) (i len : Nat) :
    ReadRight st.vol (st.fds i) len ↔ ReadOk st.vol (st.fds i) len := by
  obtain ⟨l₀, h₀⟩ := Shared.inv_opened hwf hs
  obtain ⟨l, h⟩ := h₀.run hrun
  have hfd := h.entry i
  refine ⟨readOk_of_readRight h.file (h.reader i), fun hok => ?_⟩
  obtain ⟨bytes, touched, fd', hread, hlen, hbytes, htouch, -⟩ :=
    read_spec h.file h.size hfd (h.reader i) hok
  refine ⟨l, bytes, touched, fd', ?_, hread, ?_, ?_, htouch⟩ <;> rw [hfd]
  · exact h.file.chain
  · exact hlen
  · exact hbytes

/-- A second descriptor of the file is read behind the first byte. -/
theorem read_right_iff_oneFile : ∃ st, Run Shared.Step (Shared.opened oneFile ⟨2, 0⟩)
    [.read 0 1, .write 1 (fun _ => 0x58) 2] st ∧ ReadRight st.vol (st.fds 0) 5 := by
  obtain ⟨st, hrun, hok⟩ : ∃ st, Run Shared.Step (Shared.opened oneFile ⟨2, 0⟩)
      [.read 0 1, .write 1 (fun _ => 0x58) 2] st ∧ ReadOk st.vol (st.fds 0) 5 :=
    Run.exists_of_exec (by decide +kernel)
  exact ⟨st, hrun, (read_right_iff oneFile_wellFormed oneFile_live hrun 0 5).2 hok⟩

/-- The file was read to its end, and then made shorter: the next byte read is none of the file. -/
theorem not_read_right :
    ¬ ∀ (v : Volume) (s : Slot) (es : List Shared.Event) (st : Shared) (i len : Nat),
    v.WellFormed → v.Live s →
      Run (fun st e st' => Shared.step st e = some st') (Shared.opened v s) es st →
      ReadRight st.vol (st.fds i) len := by
  intro hall
  obtain ⟨st, hrun, hnot⟩ : ∃ st, Run Shared.Step (Shared.opened oneFile ⟨2, 0⟩)
      [.read 0 3, .write 1 (fun _ => 0x58) 1] st ∧ ¬ ReadOk st.vol (st.fds 0) 1 :=
    Run.exists_of_exec (by decide +kernel)
  obtain ⟨l₀, h₀⟩ := Shared.inv_opened oneFile_wellFormed oneFile_live
  obtain ⟨l, h⟩ := h₀.run hrun
  refine hnot (readOk_of_readRight h.file (h.reader 0) ?_)
  exact hall _ _ _ st 0 1 oneFile_wellFormed oneFile_live (hrun.mono fun _ _ _ h => h.2)

end Moxia.Fat
