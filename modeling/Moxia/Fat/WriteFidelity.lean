import Moxia.Fat.Appending
import Moxia.Fat.Small
import Mathlib.Algebra.GroupWithZero.Nat

/-!
# What a file holds after a row of writes

A row of buffers is passed to `Write` on a fresh descriptor. The lengths decide whether the file
then holds the bytes of the buffers, whatever these are (`writes_faithful_iff`).
-/

namespace Moxia.Fat

open Lib Volume FileDescriptor

variable {v v' v₀ v₁ : Volume} {fd : FileDescriptor} {s : Slot} {l l₀ l₁ ext : List Nat}
  {f pos pos' off' p len : Nat}
  {buf : Nat → UInt8} {st st' : WriteState} {r : Written}

/-- The buffer of a call: the memory from its start on, and its length. -/
structure Buffer where
  mem : Nat → UInt8
  len : Nat

def Buffer.bytes (b : Buffer) : List UInt8 := (List.range b.len).map b.mem

/-- Calls of `Write` in turn; of each what it returns, and how much of its buffer it has read. -/
def writes (v : Volume) (fd : FileDescriptor) : List Buffer → Option (Volume × List (Nat × Nat))
  | [] => some (v, [])
  | b :: bs => do
    let r ← fd.write v b.mem b.len
    let (v', rs) ← writes r.vol r.fd bs
    some (v', (r.total, r.srcEnd) :: rs)

/-- Each call returns the length of its buffer and reads no further, and the file holds all
buffers. -/
def Faithful (v : Volume) (s : Slot) (bs : List Buffer) : Prop :=
  ∃ v' rs l', writes v { fatEntry := s } bs = some (v', rs) ∧
    List.Forall₂ (fun b r => r.1 = b.len ∧ r.2 ≤ b.len) bs rs ∧
    v'.fileSize s = (bs.map Buffer.len).sum ∧ v'.EntryChain s l' ∧ v'.contents s l' =
      bs.flatMap Buffer.bytes

instance (B L p len : Nat) : Decidable (WriteOk B L p len) := inferInstanceAs (Decidable (_ ∧ _))

/-- Each length is right for the offset it starts at and the clusters the file then has. -/
def WritesOk (B : Nat) : Nat → Nat → List Nat → Prop
  | _, _, [] => True
  | L, p, len :: lens =>
      WriteOk B L p len ∧ WritesOk B (Appending.clustersAfter B L (p + len)) (p + len) lens

theorem writes_cons {b : Buffer} {bs : List Buffer} {rs : List (Nat × Nat)}
    (h : writes v fd (b :: bs) = some (v', rs)) : ∃ r rs', fd.write v b.mem b.len = some r ∧
      writes r.vol r.fd bs = some (v', rs') ∧ rs = (r.total, r.srcEnd) :: rs' := by
  rw [writes] at h
  obtain ⟨r, hr, h⟩ := Option.bind_eq_some_iff.1 h
  obtain ⟨⟨w, rs'⟩, hrs, h⟩ := Option.bind_eq_some_iff.1 h
  cases h
  exact ⟨r, rs', hr, hrs, rfl⟩

/-! ### Right lengths -/

theorem numCluster_mono {n m : Nat} (h : n ≤ m) : numCluster v n ≤ numCluster v m :=
  Nat.div_le_div_right (by omega)

theorem Appending.writes {bs : List Buffer} :
    ∀ {v : Volume} {fd : FileDescriptor} {l : List Nat} {pos : Nat}
    {bytes : List UInt8}, Appending v₀ s l₀ v fd l pos bytes →
    WritesOk v.bytesPerCluster l.length bytes.length (bs.map Buffer.len) →
    max (numCluster v (bytes.length + (bs.map Buffer.len).sum)) 1 ≤
      l.length + v.freeClusters.length →
    ∃ v' rs, writes v fd bs = some (v', rs) ∧
      List.Forall₂ (fun b r => r.1 = b.len ∧ r.2 ≤ b.len) bs rs ∧
      (bs ≠ [] → v'.fileSize s = (bytes.length + (bs.map Buffer.len).sum) % 2 ^ 32) ∧
      ∃ fd' l' pos', Appending v₀ s l₀ v' fd' l' pos' (bytes ++ bs.flatMap Buffer.bytes) := by
  induction bs with
  | nil =>
    intro v fd l pos bytes h _ _
    exact ⟨v, [], rfl, .nil, fun hne => absurd rfl hne, fd, l, pos, by simpa using h⟩
  | cons b bs ih =>
    intro v fd l pos bytes h hok hfree
    rw [List.map_cons, List.sum_cons] at hfree
    obtain ⟨hhead, hrest⟩ := hok
    have hfree' : max (numCluster v (bytes.length + b.len)) 1 ≤
      l.length + v.freeClusters.length := by
      have := numCluster_mono (v := v) (show bytes.length + b.len ≤ bytes.length +
        (b.len + (bs.map Buffer.len).sum) by omega)
      omega
    obtain ⟨r, hr⟩ := h.exists_write hhead b.mem hfree'
    obtain ⟨htot, hsrc, hsize, l₁, pos₁, h₁, hlen⟩ := h.write hhead hr
    have hB : r.vol.bytesPerCluster = v.bytesPerCluster := by
      rw [h₁.took.bytesPerCluster, h.took.bytesPerCluster]
    have hbytes : (bytes ++ b.bytes).length = bytes.length + b.len := by simp [Buffer.bytes]
    have hnum : ∀ n, numCluster r.vol n = numCluster v n :=
      fun n => by rw [numCluster, numCluster, hB]
    have htook := h₁.took.length_add.2
    have htook₀ := h.took.length_add.2
    have h₂ : Appending v₀ s l₀ r.vol r.fd l₁ pos₁ (bytes ++ b.bytes) := h₁
    obtain ⟨v', rs, hrun, hcalls, hsize', fd', l', pos', h'⟩ := ih h₂
      (by rw [hbytes, hB, hlen]; exact hrest)
      (by rw [hbytes, hnum, Nat.add_assoc]; omega)
    rw [hbytes] at hsize'
    refine ⟨v', (r.total, r.srcEnd) :: rs, ?_, .cons ⟨htot, hsrc⟩ hcalls, fun _ => ?_,
      fd', l', pos', ?_⟩
    · rw [Fat.writes, hr, Option.bind_eq_bind, Option.bind_some, hrun]
      rfl
    · rw [List.map_cons, List.sum_cons, ← Nat.add_assoc]
      by_cases hnil : bs = []
      · subst hnil
        cases hrun
        exact hsize
      · exact hsize' hnil
    · rw [List.flatMap_cons, ← List.append_assoc]
      exact h'

/-! ### Wrong lengths -/

/-- The loop's variables, also where it copies too much: it is at a cluster boundary, or still in
the cluster it started in, or has passed the end of the buffer. -/
structure OvershootInv (B p len : Nat) (st : WriteState) : Prop where
  bytesPerCluster : st.vol.bytesPerCluster = B
  mod : (p + st.total) % B = st.clusterOff % B
  edge : st.total = 0 ∨ B ∣ p + st.total ∨ p % B + len ≤ B ∨ len < st.total

theorem OvershootInv.turn {B : Nat} (hcur : Cursor f l pos st)
    (ht : Turn buf len l pos st ext pos' off' st') (h : OvershootInv B p len st) :
    OvershootInv B p len st' := by
  obtain ⟨hB, hmod, hedge⟩ := h
  have hoff := ht.off'_lt hcur
  have hoffeq := ht.advanced.off
  obtain ⟨htotal, hclOff, -, -⟩ := ht.copied
  rw [hB] at hoff hoffeq htotal hclOff
  have hmod' : (p + st.total) % B = off' := by
    rw [hmod, hoffeq]
    split
    · rename_i hfull
      rw [hfull, Nat.mod_self]
    · rename_i hne
      rw [if_neg hne] at hoffeq
      exact Nat.mod_eq_of_lt (hoffeq ▸ hoff)
  refine ⟨ht.extend.bytesPerCluster.trans hB, ?_, ?_⟩
  · rw [htotal, hclOff, ← Nat.add_assoc, ← Nat.mod_add_mod, hmod']
  · rcases Nat.le_total (B - off') len with hle | hle
    · -- the cluster is filled
      rw [Nat.min_eq_right hle] at htotal
      refine .inr (.inl (Nat.dvd_of_mod_eq_zero ?_))
      rw [htotal, ← Nat.add_assoc, ← Nat.mod_add_mod, hmod',
        Nat.add_sub_cancel' (Nat.le_of_lt hoff), Nat.mod_self]
    · rw [Nat.min_eq_left hle] at htotal
      rcases Nat.eq_zero_or_pos st.total with h0 | hpos
      · rw [h0, Nat.add_zero] at hmod'
        exact .inr (.inr (.inl (by omega)))
      · exact .inr (.inr (.inr (by omega)))

/-- A call whose length ends inside of a later cluster copies too much. -/
theorem Appending.dvd_of_total {bytes : List UInt8} (h : Appending v₀ s l₀ v fd l pos bytes)
    (hrun : fd.write v buf len = some r) (htot : r.total = len) :
    bytes.length % v.bytesPerCluster + len ≤ v.bytesPerCluster ∨ v.bytesPerCluster ∣
      bytes.length + len := by
  obtain ⟨v₁, cluster, st, hstart, hloop, rfl⟩ := write_eq_some hrun
  obtain ⟨ext₁, f, hst, htakes⟩ := startWrite_cases h.file h.entry h.writer.place hstart
  have hinit : OvershootInv v.bytesPerCluster bytes.length len
      { vol := v₁, cluster := cluster, clusterOff := fd.wrClusterOff } := by
    refine ⟨hst.extend.bytesPerCluster, ?_, .inl rfl⟩
    show (bytes.length + 0) % v.bytesPerCluster = fd.wrClusterOff % v.bytesPerCluster
    rw [Nat.add_zero, h.place, Nat.mul_add_mod_self_right]
  obtain ⟨-, l', pos', hcur', hinv⟩ :=
    writeLoop_inv (P := fun _ _ st => OvershootInv v.bytesPerCluster bytes.length len st)
    (fun _ _ _ _ _ _ _ hc _ ht hi => hi.turn hc ht) (hst.cursor h.file h.writer.off_le) hinit hloop
  have hedge := hinv.edge
  rw [show st.total = len from htot] at hedge
  rcases hedge with h0 | hdvd | hle | hlt
  · have := Nat.mod_lt bytes.length h.file.bytes_pos
    exact .inl (by omega)
  · exact .inr hdvd
  · exact .inl hle
  · omega

/-- The loop's variables where more than one cluster has to be added to the chain `l₁`: the first of
them, `c`, is left as it is. -/
structure SkipInv (v₁ : Volume) (l₁ : List Nat) (c p : Nat) (l : List Nat) (pos : Nat)
    (st : WriteState) : Prop where
  took : Took v₁ l₁ st.vol l
  data : st.vol.data c = v₁.data c
  place : (l = l₁ ∧ pos * v₁.bytesPerCluster + st.clusterOff = p + st.total) ∨ l₁.length < pos

theorem SkipInv.turn {c : Nat} (hlong : (l₁.length + 1) * v₁.bytesPerCluster < p + len)
    (hc : c ∉ l₁)
    (hfirst : ∀ c', v₁.freeClusters.head? = some c' → c' = c) (hcur : Cursor f l pos st)
    (hlt : st.total < len)
    (ht : Turn buf len l pos st ext pos' off' st') (h : SkipInv v₁ l₁ c p l pos st) :
    SkipInv v₁ l₁ c p (l ++ ext) pos' st' := by
  have hB := h.took.bytesPerCluster
  have htook := h.took.trans (ht.took hcur)
  have hcur' := ht.cursor hcur
  have hposlt := (List.getElem?_eq_some_iff.1 hcur.here).1
  have hposlt' := (List.getElem?_eq_some_iff.1 ht.here).1
  have hplace : (l ++ ext = l₁ ∧ pos' * v₁.bytesPerCluster + st'.clusterOff = p + st'.total) ∨
    l₁.length < pos' := by
    rcases h.place with ⟨rfl, hplace⟩ | hpast
    swap
    · exact .inr (Nat.lt_of_lt_of_le hpast (ht.pos_le hcur hlt))
    have hoff := ht.advanced.off
    rw [ht.copied.clusterOff, ht.copied.total, ← Nat.add_assoc, ← Nat.add_assoc]
    by_cases hend : st.clusterOff = st.vol.bytesPerCluster
    swap
    · obtain ⟨rfl, rfl⟩ := ht.advanced.stay hend
      rw [if_neg hend] at hoff
      exact .inl ⟨List.append_nil _, by rw [hoff, hplace]⟩
    rw [if_pos hend] at hoff
    have hplace' : (pos + 1) * v₁.bytesPerCluster = p + st.total := by
      rw [Nat.succ_mul, ← hplace, hend, hB]
    by_cases hlast : pos + 1 < l.length
    · obtain ⟨rfl, rfl⟩ := ht.advanced.next hend hlast
      exact .inl ⟨List.append_nil _, by rw [hoff, Nat.add_zero, hplace']⟩
    · -- several clusters are appended, and the last of them is written to
      obtain ⟨-, -, hpos'⟩ := ht.advanced.last hend (by omega)
      have hmany : ¬ numCluster st.vol (len - st.total) ≤ 1 := by
        intro hle
        have := (numCluster_le hcur.bytes_pos).1 hle
        rw [show l.length = pos + 1 by omega, Nat.succ_mul (pos + 1)] at hlong
        omega
      exact .inr (by omega)
  refine ⟨htook, ?_, hplace⟩
  have hne : c ≠ st'.cluster := by
    rintro rfl
    have hmem := ht.here
    rcases hplace with ⟨heq, -⟩ | hpast
    · rw [heq] at hmem
      exact hc (List.mem_of_getElem? hmem)
    · have hlen : l₁.length < (l ++ ext).length := Nat.lt_trans hpast hposlt'
      have hhead := htook.getElem_length hlen
      obtain ⟨c', hc'⟩ : ∃ c', (l ++ ext)[l₁.length]? = some c' :=
        ⟨_, List.getElem?_eq_getElem hlen⟩
      obtain rfl := hfirst c' (hhead ▸ hc')
      have := (List.getElem?_inj hlen hcur'.chain.chain.nodup).1 (hc'.trans hmem.symm)
      omega
  rw [← h.data]
  funext o
  rw [ht.copied.data, if_neg fun hcond => hne hcond.1]

/-- Behind the cluster `c`, the `L`-th of the file, whose first byte is `g`, the descriptor goes
on. -/
structure Skipped (s : Slot) (B L c : Nat) (g : UInt8) (v : Volume) (fd : FileDescriptor)
    (l : List Nat) (pos : Nat) :
    Prop where
  bytesPerCluster : v.bytesPerCluster = B
  file : FileAt v s l
  entry : fd.fatEntry = s
  writer : WriterAt v fd l pos
  lt : L < pos
  here : l[L]? = some c
  byte : v.data c 0 = g

theorem Skipped.write {B L c : Nat} {g : UInt8} (h : Skipped s B L c g v fd l pos)
    (hrun : fd.write v buf len = some r) : ∃ l' pos', Skipped s B L c g r.vol r.fd l' pos' := by
  obtain ⟨ext, pos', hwr⟩ := h.file.write h.entry h.writer hrun
  have hlt := (List.getElem?_eq_some_iff.1 h.here).1
  have hhere : (l ++ ext)[L]? = some c := by rw [List.getElem?_append_left hlt, h.here]
  refine ⟨l ++ ext, pos', hwr.extend.bytesPerCluster.trans h.bytesPerCluster, hwr.file,
    hwr.fatEntry, hwr.writer,
    Nat.lt_of_lt_of_le h.lt hwr.pos_le, hhere, ?_⟩
  rw [hwr.kept L c h.lt hhere, h.byte]

theorem Skipped.writes {B L c : Nat} {g : UInt8} {bs : List Buffer} :
    ∀ {v : Volume} {fd : FileDescriptor}
    {l : List Nat} {pos : Nat} {rs : List (Nat × Nat)}, Skipped s B L c g v fd l pos →
    writes v fd bs = some (v', rs) → ∃ fd' l' pos', Skipped s B L c g v' fd' l' pos' := by
  induction bs with
  | nil =>
    intro v fd l pos rs h hrun
    cases hrun
    exact ⟨fd, l, pos, h⟩
  | cons b bs ih =>
    intro v fd l pos rs h hrun
    obtain ⟨r, rs', hr, hrest, rfl⟩ := writes_cons hrun
    obtain ⟨l', pos', h'⟩ := h.write hr
    exact ih h' hrest

/-- A call that needs more than one new cluster leaves the first of them out. -/
theorem Appending.skipped {bytes : List UInt8} (h : Appending v₀ s l₀ v fd l pos bytes)
    (hne : l.length ≠ 0)
    (hlong : (l.length + 1) * v.bytesPerCluster < bytes.length + len)
    (hrun : fd.write v buf len = some r) :
    ∃ c l' pos', v₀.freeClusters[l.length - l₀.length]? = some c ∧
      Skipped s v.bytesPerCluster l.length c (v₀.data c 0) r.vol r.fd l' pos' := by
  obtain ⟨v₁, cluster, st, hstart, hloop, rfl⟩ := write_eq_some hrun
  obtain ⟨ext₁, f, hst, htakes⟩ := startWrite_cases h.file h.entry h.writer.place hstart
  have hlen₁ := length_started htakes
  rw [if_neg hne] at hlen₁
  obtain rfl : ext₁ = [] := by
    rw [List.length_append] at hlen₁
    exact List.length_eq_zero_iff.1 (by omega)
  have hcur := hst.cursor h.file h.writer.off_le
  have hinv := hst.loopInv h.writer
  have htook := h.took.trans (hst.took h.file htakes)
  have hchain := hst.chain
  have hB₁ := hst.extend.bytesPerCluster
  rw [List.append_nil] at hcur hinv htook hchain
  -- the first free cluster
  have hhead : v₁.freeClusters.head? = v₀.freeClusters[l.length - l₀.length]? := by
    obtain ⟨k, hk, hl, hfree⟩ := htook.chain
    rw [hfree, List.head?_drop, show l.length - l₀.length = k by
      rw [hl, List.length_append, List.length_take_of_le hk, Nat.add_sub_cancel_left]]
  set c := v₁.freeClusters.head?.getD 0 with hcdef
  have hfirst : ∀ c', v₁.freeClusters.head? = some c' → c' = c :=
    fun c' hc' => by rw [hcdef, hc', Option.getD_some]
  have hc : c ∉ l := by
    intro hmem
    rcases hh : v₁.freeClusters.head? with _ | c'
    · rw [hcdef, hh] at hmem
      exact absurd (hchain.inRange _ hmem).1 (by decide)
    · have hc' := (mem_freeClusters.1 (List.mem_of_mem_head? hh)).2
      rw [hfirst c' hh] at hc'
      exact hchain.fat_ne_zero hmem hc'
  have hlong₁ : (l.length + 1) * v₁.bytesPerCluster < bytes.length + len := by rwa [hB₁]
  have hinit : SkipInv v₁ l c bytes.length l pos
      { vol := v₁, cluster := cluster, clusterOff := fd.wrClusterOff } := by
    refine ⟨.refl _ _, rfl, .inl ⟨rfl, ?_⟩⟩
    show pos * v₁.bytesPerCluster + fd.wrClusterOff = bytes.length + 0
    rw [hB₁, h.place]
    rfl
  obtain ⟨hall, l', pos', hcur', hinv', hskip⟩ := writeLoop_inv
    (P := fun l' pos' st => LoopInv v₁ l pos fd.wrOff l' pos' st ∧
      SkipInv v₁ l c bytes.length l' pos' st)
    (fun _ _ _ _ _ _ _ hcu hlt ht hi =>
      ⟨hi.1.turn hcu hlt ht, hi.2.turn hlong₁ hc hfirst hcu hlt ht⟩)
    hcur ⟨hinv, hinit⟩ hloop
  have hposlt := (List.getElem?_eq_some_iff.1 hcur'.here).1
  have hpast : l.length < pos' := by
    refine hskip.place.resolve_left fun ⟨heq, hplace⟩ => ?_
    have hmul := Nat.mul_le_mul_right v₁.bytesPerCluster (heq ▸ Nat.succ_le_of_lt hposlt)
    have hoff := hcur'.off_le
    rw [hskip.took.bytesPerCluster] at hoff
    rw [Nat.succ_mul] at hmul hlong₁
    omega
  have hlt : l.length < l'.length := Nat.lt_trans hpast hposlt
  have hhere := hskip.took.getElem_length hlt
  obtain ⟨c', hc'⟩ : ∃ c', l'[l.length]? = some c' := ⟨_, List.getElem?_eq_getElem hlt⟩
  obtain rfl := hfirst c' (hhere ▸ hc')
  rw [← List.append_nil l] at hinv'
  obtain ⟨ext, rfl, hwr⟩ := h.file.written h.entry hst hcur' hinv'
  have hfree : v₁.freeClusters.head? = some c := by rw [← hhere, hc']
  refine ⟨c, l ++ ext,
    pos', by rw [← hhead, hfree], hwr.extend.bytesPerCluster, hwr.file, hwr.fatEntry,
    hwr.writer, hpast, hc', ?_⟩
  have hout : c ≠ s.cluster := by
    intro heq
    exact hwr.file.apart (heq ▸ List.mem_of_getElem? hc')
  obtain ⟨hr, h0⟩ := mem_freeClusters.1 (List.mem_of_mem_head? hfree)
  rw [setFileSize_data_of_ne (.inl (h.entry.symm ▸ hout)), hskip.data, htook.data c hr h0]

/-- `n` bytes that are all `x`. -/
def Buffer.const (x : UInt8) (n : Nat) : Buffer := { mem := fun _ => x, len := n }

/-- Wrong lengths: for some byte `x`, the calls for buffers full of it do not all return their
lengths, or leave another byte in the file. -/
theorem exists_unfaithful {B : Nat} : ∀ {lens : List Nat} {L p : Nat}, ¬ WritesOk B L p lens →
    ∃ x : UInt8,
    ∀ {v fd l pos bytes v' rs}, Appending v₀ s l₀ v fd l pos bytes → v.bytesPerCluster = B →
      l.length = L →
      bytes.length = p → writes v fd (lens.map (Buffer.const x)) = some (v', rs) →
        rs.map Prod.fst = lens →
      ∃ l' q c, v'.EntryChain s l' ∧ v'.bytesPerCluster = B ∧ l'[q]? = some c ∧
        q * B < p + lens.sum ∧
        v'.data c 0 ≠ x := by
  intro lens
  induction lens with
  | nil => exact fun h => absurd trivial h
  | cons len lens ih =>
    intro L p hbad
    by_cases hdvd : p % B + len ≤ B ∨ B ∣ p + len
    swap
    · -- the first call does not return its length
      refine ⟨0, fun h hB hL hp hrun hrs => absurd ?_ hdvd⟩
      obtain ⟨r, rs', hr, -, rfl⟩ := writes_cons hrun
      subst hB hp
      exact h.dvd_of_total hr (List.cons.inj hrs).1
    by_cases hlong : L = 0 ∨ p + len ≤ (L + 1) * B
    · obtain ⟨x, hx⟩ := ih fun hrest => hbad ⟨⟨hdvd, hlong⟩, hrest⟩
      refine ⟨x, fun {v fd l pos bytes v' rs} h hB hL hp hrun hrs => ?_⟩
      obtain ⟨r, rs', hr, hrest, rfl⟩ := writes_cons hrun
      subst hB hL hp
      obtain ⟨-, -, -, l₁, pos₁, h₁, hlen⟩ := h.write ⟨hdvd, hlong⟩ hr
      have hB₁ : r.vol.bytesPerCluster = v.bytesPerCluster := by
        rw [h₁.took.bytesPerCluster, h.took.bytesPerCluster]
      obtain ⟨l', q, c, hl', hB', hq, hlt, hne⟩ := hx h₁ hB₁ hlen
        (by rw [List.length_append, List.length_map, List.length_range]) hrest (List.cons.inj hrs).2
      refine ⟨l', q, c, hl', hB', hq, ?_, hne⟩
      rw [List.sum_cons]
      have : (Buffer.const x len).len = len := rfl
      omega
    · -- the first call leaves a cluster out
      rw [not_or, Nat.not_le] at hlong
      obtain ⟨c₀, hc₀⟩ : ∃ c₀, c₀ = (v₀.freeClusters[L - l₀.length]?).getD 0 := ⟨_, rfl⟩
      refine ⟨v₀.data c₀ 0 + 1, fun h hB hL hp hrun hrs => ?_⟩
      obtain ⟨r, rs', hr, hrest, rfl⟩ := writes_cons hrun
      subst hB hL hp
      obtain ⟨c, l₁, pos₁, hc, h₁⟩ := h.skipped hlong.1 hlong.2 hr
      obtain ⟨fd', l', pos', h'⟩ := h₁.writes hrest
      rw [hc, Option.getD_some] at hc₀
      subst hc₀
      refine ⟨l', _, c₀, h'.file.chain, h'.bytesPerCluster, h'.here, ?_, ?_⟩
      · rw [List.sum_cons]
        rw [Nat.succ_mul] at hlong
        omega
      · rw [h'.byte]
        grind

/-! ### The lengths that are right -/

theorem map_len_const (x : UInt8) (lens : List Nat) :
    (lens.map (Buffer.const x)).map Buffer.len = lens := by
  rw [List.map_map]
  exact List.map_id _

theorem map_total_eq {bs : List Buffer} {rs : List (Nat × Nat)}
    (h : List.Forall₂ (fun b r => r.1 = b.len ∧ r.2 ≤ b.len) bs rs) :
    rs.map Prod.fst = bs.map Buffer.len := by
  induction h with
  | nil => rfl
  | cons h _ ih => rw [List.map_cons, List.map_cons, ih, h.1]

theorem eq_of_mem_const {x y : UInt8} {lens : List Nat}
    (h : y ∈ (lens.map (Buffer.const x)).flatMap Buffer.bytes) : y = x := by
  obtain ⟨b, hb, hy⟩ := List.mem_flatMap.1 h
  obtain ⟨n, -, rfl⟩ := List.mem_map.1 hb
  obtain ⟨i, -, rfl⟩ := List.mem_map.1 hy
  rfl

theorem data_mem_contents {q c : Nat} (hB : 0 < v.bytesPerCluster) (hq : l[q]? = some c)
    (hlt : q * v.bytesPerCluster < v.fileSize s) : v.data c 0 ∈ v.contents s l := by
  have hhead : ((v.chainBytes l).drop (q * v.bytesPerCluster + 0)).take 1 = [v.data c (0 + 0)] :=
    chainBytes_piece hq (Nat.succ_le_of_lt hB)
  have hpiece : ((v.contents s l).drop (q * v.bytesPerCluster)).take 1 = [v.data c 0] := by
    rw [contents, List.drop_take, List.take_take, Nat.min_eq_left (by omega)]
    exact hhead
  have hmem : v.data c 0 ∈ ((v.contents s l).drop (q * v.bytesPerCluster)).take 1 := by
    rw [hpiece]
    exact List.mem_singleton_self _
  exact List.mem_of_mem_drop (List.mem_of_mem_take hmem)

/-- A row of buffers of given lengths, whatever they hold, is written rightly to a file if and only
if the lengths are right and their sum is a `file_size`. -/
theorem writes_faithful_iff (hwf : v.WellFormed) (hs : v.Live s) (hl : v.EntryChain s l)
    {lens : List Nat}
    (hne : lens ≠ []) (hfree : max (numCluster v lens.sum) 1 ≤ l.length + v.freeClusters.length) :
    (∀ bs : List Buffer, bs.map Buffer.len = lens → Faithful v s bs) ↔
      WritesOk v.bytesPerCluster l.length 0 lens ∧ lens.sum < 2 ^ 32 := by
  have hfresh : Appending v s l v { fatEntry := s } l 0 [] := .fresh (hwf.fileAt hs hl)
  constructor
  · intro hall
    constructor
    · by_contra hbad
      obtain ⟨x, hx⟩ := @exists_unfaithful v s l _ _ _ _ hbad
      obtain ⟨v', rs, l', hrun, hcalls, hsize, hl', hcont⟩ := hall _ (map_len_const x lens)
      have hrs := map_total_eq hcalls
      rw [map_len_const] at hrs hsize
      obtain ⟨l'', q, c, hl'', hB, hq, hlt, hx'⟩ := hx hfresh rfl rfl rfl hrun hrs
      obtain rfl := hl'.unique hl''
      have hmem := data_mem_contents (by rw [hB]; exact hwf.pos) hq (by rw [hsize, hB]; omega)
      rw [hcont] at hmem
      exact hx' (eq_of_mem_const hmem)
    · obtain ⟨v', -, -, -, -, hsize, -⟩ := hall _ (map_len_const 0 lens)
      rw [map_len_const] at hsize
      exact hsize ▸ fileSize_lt
  · rintro ⟨hok, hsum⟩ bs rfl
    have hbs : bs ≠ [] := fun h => hne (by rw [h]; rfl)
    obtain ⟨v', rs, hrun, hcalls, hsize, fd', l', pos', h'⟩ := hfresh.writes hok
      (by rw [List.length_nil, Nat.zero_add]; exact hfree)
    rw [List.nil_append] at h'
    have hlen : (bs.flatMap Buffer.bytes).length = (bs.map Buffer.len).sum := by
      simp [List.length_flatMap, Buffer.bytes]
    have hsize' : v'.fileSize s = (bs.map Buffer.len).sum := by
      rw [hsize hbs, List.length_nil, Nat.zero_add, Nat.mod_eq_of_lt hsum]
    refine ⟨v', rs, l', hrun, hcalls, hsize', h'.file.chain, ?_⟩
    rw [contents, hsize', ← hlen, h'.bytes]

/-- Five bytes, in two calls. -/
theorem writes_faithful_iff_oneFile : Faithful oneFile ⟨2, 0⟩ [.const 0x58 2, .const 0x59 3] := by
  have hok : WritesOk oneFile.bytesPerCluster 1 0 [2, 3] := by
    rw [oneFile, small_bytesPerCluster]
    exact ⟨by decide, by decide, trivial⟩
  exact (writes_faithful_iff oneFile_wellFormed oneFile_live oneFile_chain (List.cons_ne_nil _ _)
    (by decide +kernel)).2 ⟨hok, by decide⟩ _ rfl

/-- One byte more than a cluster. -/
theorem not_writes_faithful : ¬ ∀ (v : Volume) (s : Slot) (l : List Nat) (bs : List Buffer),
    v.WellFormed → v.Live s →
    ¬ v.IsDirectory s → v.EntryChain s l → bs ≠ [] →
    max (numCluster v (bs.map Buffer.len).sum) 1 ≤ l.length + v.freeClusters.length →
      Faithful v s bs := by
  intro hall
  obtain ⟨v', rs, -, hrun, hcalls, -⟩ :=
    hall oneFile ⟨2, 0⟩ [3] [.const 0x58 513] oneFile_wellFormed oneFile_live
    (by decide +kernel) oneFile_chain (by decide) (by decide +kernel)
  obtain ⟨r, rs', hr, hrest, rfl⟩ := writes_cons hrun
  have hfresh : Appending oneFile ⟨2, 0⟩ [3] oneFile { fatEntry := ⟨2, 0⟩ } [3] 0 [] :=
    .fresh (oneFile_wellFormed.fileAt oneFile_live oneFile_chain)
  have htot : r.total = 513 := by
    cases hcalls with
    | cons h _ => exact h.1
  have hB : oneFile.bytesPerCluster = 512 := small_bytesPerCluster
  have := hfresh.dvd_of_total hr htot
  rw [hB] at this
  exact absurd this (by decide)

end Moxia.Fat
