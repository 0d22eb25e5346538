import Moxia.Fat.Readers

/-!
# Three ways to read a file

Calls of `Read` on a fresh descriptor, `LoadFile`, and the loop of the command `cat` walk the chain
of a file each in its own way: in pieces of any length, by clusters, by bytes. They deliver the same
bytes, the first `file_size` ones along the chain (`read_paths_agree`).
-/

namespace Moxia.Fat

open Lib Volume FileDescriptor

variable {v : Volume} {fd : FileDescriptor} {s : Slot} {f c len : Nat} {l : List Nat}
    {bytes rest : List UInt8}

namespace Volume

/-- The loop of `LoadFile`: the bytes put into a buffer of `len` bytes, and the value returned. -/
def loadFileLoop (v : Volume) (len : Nat) : Nat → Nat → List UInt8 → Option (List UInt8 × Nat)
  | 0, _, _ => none
  | fuel + 1, cluster, bytes =>
    if cluster ≠ 0 ∧ cluster ≠ kEndOfClusterchain then
      if v.InRange cluster then
        if v.bytesPerCluster ≥ len - bytes.length then
          some (bytes ++ (List.range (len - bytes.length)).map (v.data cluster), len)
        else (v.nextCluster cluster).bind fun next =>
          v.loadFileLoop len fuel next
            (bytes ++ (List.range v.bytesPerCluster).map (v.data cluster))
      else none
    else some (bytes, bytes.length)

def loadFile (v : Volume) (len : Nat) (entry : Slot) : Option (List UInt8 × Nat) :=
  v.loadFileLoop len (v.numClusters + 1) (v.firstCluster entry) []

/-- What `PrintToFD(fd, "%c", c)` writes: one byte, also where it is zero. -/
def printChar (c : UInt8) : List UInt8 := [c]

/-- The loop of `cat`: the bytes written to `files[1]`. -/
def catLoop (v : Volume) : Nat → Nat → Nat → Option (List UInt8)
  | 0, _, _ => none
  | fuel + 1, cluster, remainBytes =>
    if cluster ≠ 0 ∧ cluster ≠ kEndOfClusterchain then
      if v.InRange cluster then
        let n := min v.bytesPerCluster remainBytes
        (v.nextCluster cluster).bind fun next =>
          (v.catLoop fuel next (remainBytes - n)).map fun rest =>
          ((List.range n).flatMap fun i => printChar (v.data cluster i)) ++ rest
      else none
    else some []

def cat (v : Volume) (entry : Slot) : Option (List UInt8) :=
  v.catLoop (v.numClusters + 1) (v.firstCluster entry) (v.fileSize entry)

/-! ### By clusters -/

/-- The cluster a walk along a chain is at, before it has come to the end. -/
theorem IsChain.walk (h : v.IsChain f l) (hN : v.NumbersOk) {pos : Nat} (hpos : l[pos]? = some c) :
    c ≠ 0 ∧ c ≠ kEndOfClusterchain ∧ v.InRange c ∧ v.nextCluster c =
      some (l[pos + 1]?.getD kEndOfClusterchain) := by
  have hmem := List.mem_of_getElem? hpos
  have hr := h.inRange c hmem
  refine ⟨?_, h.ne_endMark hN hmem, hr, h.nextCluster hpos⟩
  rintro rfl
  exact absurd hr.1 (by decide)

theorem chainBytes_take_append {pos : Nat} (hpos : l[pos]? = some c) {n : Nat}
    (hn : n ≤ v.bytesPerCluster) :
    (v.chainBytes l).take (pos * v.bytesPerCluster) ++ (List.range n).map (v.data c) =
      (v.chainBytes l).take (pos * v.bytesPerCluster + n) := by
  have hpiece := chainBytes_piece (v := v) hpos (by omega : 0 + n ≤ v.bytesPerCluster)
  simp only [Nat.zero_add, Nat.add_zero] at hpiece
  rw [List.take_add, hpiece]

theorem loadFileLoop_eq (h : v.IsChain f l) (hN : v.NumbersOk)
    (hlen : len ≤ l.length * v.bytesPerCluster) :
    ∀ {fuel pos}, l[pos]? = some c → l.length ≤ fuel + pos → pos * v.bytesPerCluster ≤ len →
      v.loadFileLoop len fuel c ((v.chainBytes l).take (pos * v.bytesPerCluster)) =
        some ((v.chainBytes l).take len, len) := by
  intro fuel
  induction fuel generalizing c with
  | zero =>
    intro pos hpos hfuel
    have := (List.getElem?_eq_some_iff.1 hpos).1
    omega
  | succ fuel ih =>
    intro pos hpos hfuel hle
    have hposlt := (List.getElem?_eq_some_iff.1 hpos).1
    obtain ⟨h0, hend, hr, hnext⟩ := h.walk hN hpos
    have hput : ((v.chainBytes l).take (pos * v.bytesPerCluster)).length =
      pos * v.bytesPerCluster := by
      rw [List.length_take, length_chainBytes]
      exact Nat.min_eq_left (Nat.le_trans hle hlen)
    rw [loadFileLoop, if_pos ⟨h0, hend⟩, if_pos hr, hput]
    split
    · rename_i hfit
      rw [chainBytes_take_append hpos hfit, Nat.add_sub_cancel' hle]
    · rename_i hmore
      have hmul := Nat.succ_mul pos v.bytesPerCluster
      have hlast : pos + 1 < l.length := by
        by_contra hge
        have heq : l.length = pos + 1 := by omega
        rw [heq, Nat.succ_mul] at hlen
        omega
      rw [hnext, List.getElem?_eq_getElem hlast, Option.getD_some, Option.bind_some,
        chainBytes_take_append hpos (Nat.le_refl _), ← hmul]
      exact ih (List.getElem?_eq_getElem hlast) (by omega) (by omega)

theorem loadFile_eq (hl : v.EntryChain s l) (hN : v.NumbersOk)
    (hsize : v.fileSize s ≤ l.length * v.bytesPerCluster) :
    v.loadFile (v.fileSize s) s = some (v.contents s l, v.fileSize s) := by
  rcases hl with ⟨h0, rfl⟩ | hl
  · have hzero : v.fileSize s = 0 := by simpa using hsize
    rw [loadFile, loadFileLoop, if_neg fun h => h.1 h0, contents, hzero]
    rfl
  · have hfuel : l.length ≤ v.numClusters + 1 + 0 := Nat.le_succ_of_le hl.length_le
    have hrun := loadFileLoop_eq hl hN hsize hl.chain.getElem_zero hfuel (by omega)
    rw [Nat.zero_mul, List.take_zero] at hrun
    exact hrun

/-! ### Byte by byte -/

theorem flatMap_printChar (n : Nat) (data : Nat → UInt8) :
    ((List.range n).flatMap fun i => printChar (data i)) = (List.range n).map data :=
  List.flatMap_pure_eq_map data _

theorem drop_take_chainBytes {pos : Nat} (hpos : l[pos]? = some c) :
    ((v.chainBytes l).take len).drop (pos * v.bytesPerCluster) =
      (List.range (min v.bytesPerCluster (len - pos * v.bytesPerCluster))).map (v.data c) ++
        ((v.chainBytes l).take len).drop ((pos + 1) * v.bytesPerCluster) := by
  have hpiece := chainBytes_piece (v := v) hpos
    (by omega : 0 + min v.bytesPerCluster (len - pos * v.bytesPerCluster) ≤ v.bytesPerCluster)
  simp only [Nat.zero_add, Nat.add_zero] at hpiece
  rw [← hpiece, List.drop_take, List.drop_take, Nat.succ_mul, ← List.drop_drop, ← Nat.sub_sub]
  generalize (v.chainBytes l).drop (pos * v.bytesPerCluster) = bs
  rcases Nat.le_total (len - pos * v.bytesPerCluster) v.bytesPerCluster with hle | hle
  · rw [Nat.min_eq_right hle, Nat.sub_eq_zero_of_le hle, List.take_zero, List.append_nil]
  · rw [Nat.min_eq_left hle, ← List.take_add, Nat.add_sub_cancel' hle]

/-- From the cluster `pos` on, `cat` writes what is left of the file, and walks the chain to its
end. -/
theorem catLoop_eq (h : v.IsChain f l) (hN : v.NumbersOk)
    (hlen : len ≤ l.length * v.bytesPerCluster) :
    ∀ {fuel pos}, l[pos]? = some c → l.length < fuel + pos →
      v.catLoop fuel c (len - pos * v.bytesPerCluster) =
        some (((v.chainBytes l).take len).drop (pos * v.bytesPerCluster)) := by
  intro fuel
  induction fuel generalizing c with
  | zero =>
    intro pos hpos hfuel
    have := (List.getElem?_eq_some_iff.1 hpos).1
    omega
  | succ fuel ih =>
    intro pos hpos hfuel
    have hposlt := (List.getElem?_eq_some_iff.1 hpos).1
    obtain ⟨h0, hend, hr, hnext⟩ := h.walk hN hpos
    have hmul := Nat.succ_mul pos v.bytesPerCluster
    have hleft : len - pos * v.bytesPerCluster - min v.bytesPerCluster
        (len - pos * v.bytesPerCluster) =
        len - (pos + 1) * v.bytesPerCluster := by
      rw [hmul]
      omega
    have hrest : v.catLoop fuel (l[pos + 1]?.getD kEndOfClusterchain)
        (len - (pos + 1) * v.bytesPerCluster) =
        some (((v.chainBytes l).take len).drop ((pos + 1) * v.bytesPerCluster)) := by
      by_cases hlast : pos + 1 < l.length
      · rw [List.getElem?_eq_getElem hlast, Option.getD_some]
        exact ih (List.getElem?_eq_getElem hlast) (by omega)
      · have heq : l.length = pos + 1 := by omega
        obtain ⟨k, rfl⟩ := Nat.exists_eq_succ_of_ne_zero (show fuel ≠ 0 by omega)
        rw [List.getElem?_eq_none (Nat.le_of_eq heq), Option.getD_none, catLoop, if_neg fun h =>
          h.2 rfl, eq_comm,
          Option.some_inj, List.drop_eq_nil_iff, List.length_take]
        rw [heq] at hlen
        omega
    rw [catLoop, if_pos ⟨h0, hend⟩, if_pos hr]
    simp only [hnext, Option.bind_some, hleft, hrest, Option.map_some, flatMap_printChar]
    rw [← drop_take_chainBytes hpos]

theorem cat_eq (hl : v.EntryChain s l) (hN : v.NumbersOk)
    (hsize : v.fileSize s ≤ l.length * v.bytesPerCluster) :
    v.cat s = some (v.contents s l) := by
  rcases hl with ⟨h0, rfl⟩ | hl
  · rw [cat, catLoop, if_neg fun h => h.1 h0, contents, chainBytes, List.flatMap_nil, List.take_nil]
  · have hfuel : l.length < v.numClusters + 1 + 0 := Nat.lt_succ_of_le hl.length_le
    have hrun := catLoop_eq hl hN hsize hl.chain.getElem_zero hfuel
    rw [Nat.zero_mul, Nat.sub_zero, List.drop_zero] at hrun
    exact hrun

end Volume

/-! ### In pieces -/

/-- Calls of `Read` with the lengths in the list, of which the last is the first to return 0,
deliver `bytes`. -/
inductive ReadAll (v : Volume) : FileDescriptor → List Nat → List UInt8 → Prop
  | stop {fd fd' : FileDescriptor} {len : Nat} {touched : List Nat}
    (h : fd.read v len = some ([], touched, fd')) :
    ReadAll v fd [len] []
  | more {fd fd' : FileDescriptor} {len : Nat} {lens touched : List Nat} {bytes rest : List UInt8}
    (h : fd.read v len = some (bytes, touched, fd')) (hne : bytes ≠ [])
    (ht : ReadAll v fd' lens rest) :
    ReadAll v fd (len :: lens) (bytes ++ rest)

/-- A descriptor between the calls. -/
structure Reading (v : Volume) (s : Slot) (l : List Nat) (fd : FileDescriptor) : Prop where
  entry : fd.fatEntry = s
  reader : ReaderAt v fd l
  le : fd.rdOff ≤ v.fileSize s
  atEnd : fd.rdCluster = kEndOfClusterchain → v.fileSize s ≤ fd.rdOff

theorem Reading.fresh (v : Volume) (s : Slot) (l : List Nat) : Reading v s l { fatEntry := s } :=
  ⟨rfl, .inl ⟨rfl, rfl, rfl⟩, Nat.zero_le _, fun h => by cases h⟩

theorem Reading.read (hl : FileAt v s l) (hsize : v.fileSize s ≤ l.length * v.bytesPerCluster)
    (h : Reading v s l fd)
    (len : Nat) : ∃ bytes touched fd', fd.read v len = some (bytes, touched, fd') ∧
      bytes = ((v.contents s l).drop fd.rdOff).take len ∧ Reading v s l fd' ∧
        fd'.rdOff = fd.rdOff + bytes.length := by
  obtain ⟨hentry, hreader, hle, hend⟩ := h
  have hok : ReadOk v fd len := by
    rw [ReadOk, hentry]
    rcases Nat.lt_or_eq_of_le hle with hlt | heq
    · exact .inr (.inr ⟨hlt, fun hc => Nat.not_le.2 hlt (hend hc)⟩)
    · exact .inr (.inl heq)
  obtain ⟨bytes, touched, fd', hrun, hlen, hbytes, -, hreader', heq, hoff, hend'⟩ :=
    read_spec hl hsize hentry hreader hok
  refine ⟨bytes, touched, fd', hrun, hbytes,
    ⟨by rw [heq]; exact hentry, hreader', by omega, fun hc => ?_⟩, hoff⟩
  rcases hend' hc with hc | hc
  · have := hend hc
    omega
  · omega

theorem ReadAll.bytes_eq {lens : List Nat} (hl : FileAt v s l)
    (hsize : v.fileSize s ≤ l.length * v.bytesPerCluster)
    (h : ReadAll v fd lens bytes) (hpos : ∀ n ∈ lens, 0 < n) (hfd : Reading v s l fd) :
    bytes = (v.contents s l).drop fd.rdOff := by
  induction h with
  | @stop fd fd' len touched h =>
    obtain ⟨bytes, touched', fd'', hrun, hbytes, -⟩ := hfd.read hl hsize len
    cases h.symm.trans hrun
    have hlen := hpos len (List.mem_singleton_self len)
    rcases List.take_eq_nil_iff.1 hbytes.symm with h0 | hnil
    · omega
    · exact hnil.symm
  | @more fd fd' len lens touched bytes rest h hne ht ih =>
    obtain ⟨bytes', touched', fd'', hrun, hbytes, hfd', hoff⟩ := hfd.read hl hsize len
    cases h.symm.trans hrun
    rw [ih (fun n hn => hpos n (List.mem_cons_of_mem _ hn)) hfd', hoff, ← List.drop_drop]
    conv_rhs => rw [← List.take_append_drop bytes.length ((v.contents s l).drop fd.rdOff)]
    congr 1
    conv_lhs => rw [hbytes, List.take_eq_take_min, ← List.length_take, ← hbytes]

/-- However the lengths are chosen, a call comes that returns 0. -/
theorem ReadAll.exists_of_pos {lens : Nat → Nat} (hl : FileAt v s l)
    (hsize : v.fileSize s ≤ l.length * v.bytesPerCluster) (hpos : ∀ i, 0 < lens i) (n : Nat)
    (hfd : Reading v s l fd)
    (hleft : v.fileSize s - fd.rdOff ≤ n) :
    ∃ k bytes, ReadAll v fd ((List.range k).map lens) bytes := by
  induction n generalizing fd lens with
  | zero =>
    obtain ⟨bytes, touched, fd', hrun, hbytes, -⟩ := hfd.read hl hsize (lens 0)
    have hnil : bytes = [] := by
      rw [hbytes, List.drop_eq_nil_of_le, List.take_nil]
      rw [length_contents hsize]
      omega
    exact ⟨1, [], .stop (hnil ▸ hrun)⟩
  | succ n ih =>
    obtain ⟨bytes, touched, fd', hrun, hbytes, hfd', hoff⟩ := hfd.read hl hsize (lens 0)
    by_cases hnil : bytes = []
    · exact ⟨1, [], .stop (hnil ▸ hrun)⟩
    · have hprog := List.length_pos_of_ne_nil hnil
      have hpos' : ∀ i, 0 < (fun i => lens (i + 1)) i := fun i => hpos (i + 1)
      obtain ⟨k, rest, hrest⟩ := ih hpos' hfd' (by omega)
      refine ⟨k + 1, bytes ++ rest, ?_⟩
      rw [List.range_succ_eq_map, List.map_cons, List.map_map]
      exact .more hrun hnil hrest

/-- The three ways deliver the first `file_size` bytes along the chain. -/
theorem read_paths_agree (hwf : v.WellFormed) (hs : v.Live s) : ∃ l, v.EntryChain s l ∧
    (∀ lens bytes, (∀ n ∈ lens, 0 < n) → ReadAll v { fatEntry := s } lens bytes →
      bytes = v.contents s l) ∧
    (∀ lens : Nat → Nat, (∀ i, 0 < lens i) →
      ∃ k, ReadAll v { fatEntry := s } ((List.range k).map lens) (v.contents s l)) ∧
    v.loadFile (v.fileSize s) s = some (v.contents s l, v.fileSize s) ∧
    v.cat s = some (v.contents s l) := by
  obtain ⟨l, hl⟩ := hwf.chain s hs
  have hsize := hwf.size s l hs hl
  have hfile := hwf.fileAt hs hl
  have hall : ∀ {lens bytes}, (∀ n ∈ lens, 0 < n) → ReadAll v { fatEntry := s } lens bytes →
      bytes = v.contents s l := fun hpos h => h.bytes_eq hfile hsize hpos (.fresh v s l)
  refine ⟨l, hl, fun _ _ => hall, fun lens hpos => ?_, loadFile_eq hl hwf.numbers hsize,
    cat_eq hl hwf.numbers hsize⟩
  obtain ⟨k, bytes, h⟩ := ReadAll.exists_of_pos hfile hsize hpos _ (.fresh v s l) (Nat.le_refl _)
  have hlens : ∀ n ∈ (List.range k).map lens, 0 < n := by
    intro n hn
    obtain ⟨i, -, rfl⟩ := List.mem_map.1 hn
    exact hpos i
  exact ⟨k, hall hlens h ▸ h⟩

/-- The file `A` has three bytes. -/
theorem read_paths_agree_oneFile :
    ∃ l, oneFile.EntryChain ⟨2, 0⟩ l ∧ (oneFile.contents ⟨2, 0⟩ l).length = 3 ∧
    oneFile.cat ⟨2, 0⟩ = some (oneFile.contents ⟨2, 0⟩ l) := by
  obtain ⟨l, hl, -, -, -, hcat⟩ := read_paths_agree oneFile_wellFormed oneFile_live
  refine ⟨l, hl, ?_, hcat⟩
  rw [length_contents (oneFile_wellFormed.size _ _ oneFile_live hl)]
  decide +kernel

end Moxia.Fat
