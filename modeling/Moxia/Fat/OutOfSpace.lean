import Moxia.Fat.Appending
import Moxia.Fat.CreateFile
import Moxia.Fat.Small

/-!
# Running out of clusters

The search loops of `ExtendCluster` and `AllocateClusterchain` have no bound: with too few free
clusters they read on behind the FAT, and no caller is ever told. With enough of them every call
goes through and links clusters of the volume only (`spaceOk_iff`). How many are enough for `Write`
is more than what the file lacks: it extends the chain by all it lacks each time it comes to the
chain's end, and goes on at the last new cluster.
-/

namespace Moxia.Fat

open Lib Volume FileDescriptor

variable {v v' : Volume} {l : List Nat} {f c d : Nat}

/-- The FAT words that differ are words of the volume's clusters, and lead to its clusters or end a
chain. -/
def Links (v v' : Volume) : Prop :=
  ∀ c, v'.fat c ≠ v.fat c →
    v.InRange c ∧ (isEndOfClusterchain (v'.fat c) = true ∨ v.InRange (v'.fat c))

theorem Links.of_fat_eq (h : v'.fat = v.fat) : Links v v' := fun c hc => absurd (by rw [h]) hc

theorem Links.of_chain (hn : v'.numClusters = v.numClusters) (h : v'.IsChain f l)
    (hframe : ∀ c, c ∉ l → v'.fat c = v.fat c) : Links v v' := by
  have hrange : ∀ c ∈ l, v.InRange c := fun c hc => by
    have := h.inRange c hc
    rwa [InRange, hn] at this
  intro c hc
  have hmem : c ∈ l := by
    by_contra hmem
    exact hc (hframe c hmem)
  refine ⟨hrange c hmem, ?_⟩
  obtain ⟨i, hi⟩ := List.mem_iff_getElem?.1 hmem
  have hnext := h.chain.next_getElem hi
  rw [succ] at hnext
  split at hnext
  · exact .inl ‹_›
  · exact .inr (hrange _ (List.mem_of_getElem? hnext.symm))

theorem Volume.Extends.links {ext : List Nat} (h : Extends v l ext v')
    (hc : v'.IsChain f (l ++ ext)) : Links v v' :=
  .of_chain h.numClusters hc fun c hmem => by
    rw [List.mem_append, not_or] at hmem
    exact h.frame c hmem.1 hmem.2

/-! ### Room for an entry -/

/-- `AllocateEntry` from cluster `d` on visits the clusters `l`: the last of them has a free slot,
or is the end of the chain, and a cluster is free. -/
inductive Room (v : Volume) : Nat → List Nat → Prop
  | slot {d : Nat} (hr : v.InRange d) (h : v.freeSlot [d] ≠ none) : Room v d [d]
  | append {d : Nat} (hr : v.InRange d) (h : v.freeSlot [d] = none) (hend : v.succ d = none)
      (hfree : v.freeClusters ≠ []) : Room v d [d]
  | next {d e : Nat} {l : List Nat} (hr : v.InRange d) (h : v.freeSlot [d] = none)
      (hn : v.succ d = some e)
      (ht : Room v e l) : Room v d (d :: l)

namespace Room

theorem head (h : Room v d l) : ∃ m, l = d :: m := by
  cases h <;> exact ⟨_, rfl⟩

theorem unique {m : List Nat} (h : Room v d l) (h' : Room v d m) : l = m := by
  induction h generalizing m with
  | slot hr h =>
    cases h' with
    | slot => rfl
    | append _ h₀ => exact absurd h₀ h
    | next _ h₀ => exact absurd h₀ h
  | append hr h hend hfree =>
    cases h' with
    | slot => rfl
    | append => rfl
    | next _ _ hn => cases hend.symm.trans hn
  | next hr h hn ht ih =>
    cases h' with
    | slot _ h₀ => exact absurd h h₀
    | append _ _ hend => cases hend.symm.trans hn
    | next _ _ hn' ht' =>
      obtain rfl := Option.some.inj (hn.symm.trans hn')
      rw [ih ht']

theorem inRange (h : Room v d l) : ∀ c ∈ l, v.InRange c := by
  induction h with
  | slot hr _ | append hr _ _ _ => exact fun c hc => List.mem_singleton.1 hc ▸ hr
  | next hr _ _ _ ih => exact List.forall_mem_cons.2 ⟨hr, ih⟩

theorem of_mem (h : Room v d l) (hc : c ∈ l) : ∃ m, Room v c m ∧ m.length ≤ l.length := by
  induction h with
  | slot hr h =>
    obtain rfl := List.mem_singleton.1 hc
    exact ⟨_, .slot hr h, Nat.le_refl _⟩
  | append hr h hend hfree =>
    obtain rfl := List.mem_singleton.1 hc
    exact ⟨_, .append hr h hend hfree, Nat.le_refl _⟩
  | next hr h hn ht ih =>
    rcases List.mem_cons.1 hc with rfl | hc
    · exact ⟨_, .next hr h hn ht, Nat.le_refl _⟩
    · obtain ⟨m, hm, hle⟩ := ih hc
      exact ⟨m, hm, Nat.le_succ_of_le hle⟩

theorem nodup (h : Room v d l) : l.Nodup := by
  induction h with
  | slot | append => exact List.nodup_singleton _
  | @next d e l hr h hn ht ih =>
    refine List.nodup_cons.2 ⟨fun hmem => ?_, ih⟩
    obtain ⟨m, hm, hle⟩ := ht.of_mem hmem
    rw [hm.unique (.next hr h hn ht), List.length_cons] at hle
    omega

theorem length_le (h : Room v d l) : l.length ≤ v.numClusters := by
  have hsub : l ⊆ List.range' 2 v.numClusters := fun c hc => by
    obtain ⟨hlo, hhi⟩ := h.inRange c hc
    exact List.mem_range'_1.2 ⟨hlo, by omega⟩
  simpa using (h.nodup.subperm hsub).length_le

end Room

theorem freeSlot_eq_findSlot : v.freeSlot [d] = v.findSlot d fun s =>
    v.name s 0 = 0 ∨ v.name s 0 = 0xe5 :=
  (findSlot_eq _).symm

theorem nextCluster_of_succ (hr : v.InRange d) :
    v.nextCluster d = some (match v.succ d with | some e => e | none => kEndOfClusterchain) := by
  rw [nextCluster, readFat, if_pos hr.2, Option.bind_eq_bind, Option.bind_some, succ]
  split <;> rfl

theorem extendCluster_one (hN : v.NumbersOk) (hr : v.InRange d) (hend : v.succ d = none) :
    (v.freeClusters ≠ [] → ∃ v' c, v.extendCluster d 1 = some (v', c) ∧ Links v v') ∧
    (v.freeClusters = [] → v.extendCluster d 1 = none) := by
  have hchain : v.IsChain d [d] := ⟨.last hend, fun c hc => List.mem_singleton.1 hc ▸ hr⟩
  obtain ⟨hsome, hnone⟩ := hchain.extendCluster hN (n := 1) (List.mem_singleton_self d) rfl
  constructor
  · intro hfree
    obtain ⟨v', hrun, -, hext⟩ := hsome (List.length_pos_of_ne_nil hfree)
    exact ⟨v', _, hrun, hext.links (hext.chain hchain)⟩
  · exact fun hfree => hnone (by rw [hfree]; exact Nat.one_pos)

theorem allocateEntryLoop_of_room (hN : v.NumbersOk) (h : Room v d l) : ∀ {fuel}, l.length ≤ fuel →
    ∃ v' s, v.allocateEntryLoop d fuel = some (v', s) ∧ Links v v' := by
  induction h with
  | @slot d hr h =>
    rintro (_ | fuel) hfuel
    · exact absurd hfuel (by simp)
    rw [freeSlot_eq_findSlot] at h
    obtain ⟨s, hs⟩ := Option.ne_none_iff_exists'.1 h
    exact ⟨v, s, by rw [allocateEntryLoop, if_pos hr, hs], .of_fat_eq rfl⟩
  | @append d hr h hend hfree =>
    rintro (_ | fuel) hfuel
    · exact absurd hfuel (by simp)
    obtain ⟨v', c, hrun, hlinks⟩ := (extendCluster_one hN hr hend).1 hfree
    rw [freeSlot_eq_findSlot] at h
    refine ⟨v'.store c 0 v'.bytesPerCluster fun _ => 0, ⟨c, 0⟩, ?_, hlinks⟩
    rw [allocateEntryLoop, if_pos hr, h]
    simp only [nextCluster_of_succ hr, hend, hrun, Option.bind_eq_bind, Option.bind_some, if_true]
  | @next d e l hr h hn ht ih =>
    rintro (_ | fuel) hfuel
    · exact absurd hfuel (by simp)
    obtain ⟨v', s, hrun, hlinks⟩ := ih (Nat.le_of_succ_le_succ hfuel)
    have hne : e ≠ kEndOfClusterchain := by
      rintro rfl
      obtain ⟨m, rfl⟩ := ht.head
      have := (ht.inRange _ List.mem_cons_self).2
      rw [NumbersOk] at hN
      rw [kEndOfClusterchain] at this
      omega
    rw [freeSlot_eq_findSlot] at h
    refine ⟨v', s, ?_, hlinks⟩
    rw [allocateEntryLoop, if_pos hr, h]
    simp only [nextCluster_of_succ hr, hn, if_neg hne, hrun, Option.bind_eq_bind, Option.bind_some]

theorem room_of_allocateEntryLoop (hN : v.NumbersOk) :
    ∀ {fuel d r}, v.allocateEntryLoop d fuel = some r →
    ∃ l, Room v d l := by
  intro fuel
  induction fuel with
  | zero => exact fun h => by cases h
  | succ fuel ih =>
    intro d r hrun
    rw [allocateEntryLoop] at hrun
    split at hrun
    swap
    · cases hrun
    rename_i hr
    rcases hslot : v.freeSlot [d] with _ | s
    swap
    · exact ⟨[d], .slot hr (by rw [hslot]; exact Option.some_ne_none s)⟩
    have hfind := freeSlot_eq_findSlot ▸ hslot
    rw [hfind] at hrun
    simp only [nextCluster_of_succ hr, Option.bind_eq_bind, Option.bind_some] at hrun
    rcases hn : v.succ d with _ | e <;> rw [hn] at hrun
    · rw [if_pos rfl] at hrun
      refine ⟨[d], .append hr hslot hn fun hfree => ?_⟩
      rw [(extendCluster_one hN hr hn).2 hfree] at hrun
      cases hrun
    · dsimp only at hrun
      have hne : e ≠ kEndOfClusterchain := by
        rintro rfl
        rw [succ] at hn
        split at hn
        · cases hn
        · rename_i hmark
          exact hmark (by rw [Option.some.inj hn]; rfl)
      rw [if_neg hne] at hrun
      obtain ⟨l, hl⟩ := ih hrun
      exact ⟨d :: l, .next hr hslot hn hl⟩

/-! ### What `Write` takes -/

namespace FileDescriptor

/-- The clusters the loop takes when `k` are lacking at the end of the chain: all of them, and then
it is at the last one, with one less lacking. -/
def taken : Nat → Nat
  | 0 => 0
  | k + 1 => (k + 1) + taken k

theorem le_taken (k : Nat) : k ≤ taken k := by
  cases k with
  | zero => exact Nat.zero_le _
  | succ k => exact Nat.le_add_right _ _

/-- What the loop takes for `rest` bytes, from offset `off` of the cluster `pos` of `L` on. -/
def loopTakes (v : Volume) (L pos off rest : Nat) : Nat :=
  taken (numCluster v (rest - ((L - pos) * v.bytesPerCluster - off)))

/-- What a call takes: an empty file gets a chain first. -/
def writeTakes (v : Volume) (L pos off len : Nat) : Nat :=
  if L = 0 then max (numCluster v len) 1 + loopTakes v (max (numCluster v len) 1) pos off len
  else loopTakes v L pos off len

variable {buf : Nat → UInt8} {len pos rest : Nat} {st st' : WriteState}

theorem numCluster_zero (hB : 0 < v.bytesPerCluster) : numCluster v 0 = 0 := by
  rw [numCluster, Nat.zero_add, Nat.div_eq_of_lt (by omega)]

theorem numCluster_sub (hB : 0 < v.bytesPerCluster) (hr : 0 < rest) :
    numCluster v rest = numCluster v (rest - v.bytesPerCluster) + 1 := by
  rcases Nat.lt_or_ge rest v.bytesPerCluster with hlt | hge
  · rw [Nat.sub_eq_zero_of_le (Nat.le_of_lt hlt), numCluster_zero hB]
    have hle : numCluster v rest ≤ 1 := (numCluster_le hB).2 (by omega)
    have hpos : 0 < numCluster v rest := numCluster_pos hB hr
    omega
  · rw [numCluster, numCluster, ← Nat.add_div_right _ hB]
    congr 1
    omega

theorem loopTakes_zero (hB : 0 < v.bytesPerCluster) (L pos off : Nat) :
    loopTakes v L pos off 0 = 0 := by
  rw [loopTakes, Nat.zero_sub, numCluster_zero hB, taken]

/-- A turn takes what the loop takes less from there on. -/
theorem Turn.loopTakes_add {ext : List Nat} {pos' off' : Nat}
    (h : Turn buf len l pos st ext pos' off' st')
    (hcur : Cursor f l pos st) (hlt : st.total < len) :
    loopTakes st.vol l.length pos st.clusterOff (len - st.total) + st'.vol.freeClusters.length =
      loopTakes st'.vol (l ++ ext).length pos' st'.clusterOff (len - st'.total) +
        st.vol.freeClusters.length := by
  have hfree := (h.took hcur).length_add
  have hB : st'.vol.bytesPerCluster = st.vol.bytesPerCluster := h.extend.bytesPerCluster
  have hBpos := hcur.bytes_pos
  have hposlt := (List.getElem?_eq_some_iff.1 hcur.here).1
  have hoff := hcur.off_le
  have hnum : ∀ n, numCluster st'.vol n = numCluster st.vol n :=
    fun n => by rw [numCluster, numCluster, hB]
  rw [loopTakes, loopTakes, hnum, hB, h.copied.total, h.copied.clusterOff, h.advanced.off]
  by_cases hend : st.clusterOff = st.vol.bytesPerCluster
  swap
  · obtain ⟨rfl, rfl⟩ := h.advanced.stay hend
    have hroom : st.vol.bytesPerCluster ≤ (l.length - pos') * st.vol.bytesPerCluster :=
      Nat.le_mul_of_pos_left _ (by omega)
    rw [List.append_nil] at hfree ⊢
    rw [if_neg hend]
    have hrest : len - (st.total + min len (st.vol.bytesPerCluster - st.clusterOff)) -
        ((l.length - pos') * st.vol.bytesPerCluster -
          (st.clusterOff + min len (st.vol.bytesPerCluster - st.clusterOff))) =
        len - st.total - ((l.length - pos') * st.vol.bytesPerCluster - st.clusterOff) := by omega
    rw [hrest]
    omega
  rw [if_pos hend, hend]
  by_cases hlast : pos + 1 < l.length
  · obtain ⟨rfl, rfl⟩ := h.advanced.next hend hlast
    have hroom : (l.length - pos) * st.vol.bytesPerCluster =
        (l.length - (pos + 1)) * st.vol.bytesPerCluster + st.vol.bytesPerCluster := by
      rw [← Nat.succ_mul]
      congr 1
      omega
    have hroom' : st.vol.bytesPerCluster ≤ (l.length - (pos + 1)) * st.vol.bytesPerCluster :=
      Nat.le_mul_of_pos_left _ (by omega)
    rw [List.append_nil] at hfree ⊢
    have hrest : len - (st.total + min len (st.vol.bytesPerCluster - 0)) -
        ((l.length - (pos + 1)) * st.vol.bytesPerCluster
          - (0 + min len (st.vol.bytesPerCluster - 0))) =
        len - st.total - ((l.length - pos) * st.vol.bytesPerCluster - st.vol.bytesPerCluster) := by
          omega
    rw [hrest]
    omega
  · -- at the end of the chain
    have hlast : pos + 1 = l.length := by omega
    obtain ⟨hk, rfl, hpos'⟩ := h.advanced.last hend hlast
    have hlen : (l ++ st.vol.freeClusters.take (numCluster st.vol (len - st.total))).length =
        l.length + numCluster st.vol (len - st.total) := by
      rw [List.length_append, List.length_take_of_le hk]
    have hone : l.length - pos = 1 := by omega
    have hone' : l.length + numCluster st.vol (len - st.total) - pos' = 1 := by omega
    have hsub := numCluster_sub hBpos (Nat.sub_pos_of_lt hlt)
    rw [hlen] at hfree ⊢
    rw [hone, hone', Nat.one_mul, Nat.sub_self, Nat.sub_zero]
    have hrest : len - (st.total + min len (st.vol.bytesPerCluster - 0)) -
        (st.vol.bytesPerCluster - (0 + min len (st.vol.bytesPerCluster - 0))) =
        len - st.total - st.vol.bytesPerCluster := by omega
    rw [hrest]
    have htaken : taken (numCluster st.vol (len - st.total)) = numCluster st.vol (len - st.total) +
        taken (numCluster st.vol (len - st.total - st.vol.bytesPerCluster)) := by
      rw [hsub, taken]
    omega

/-- The loop comes to its end if there is what it takes, and gets stuck if there is not. -/
theorem writeLoop_ne_none_iff : ∀ {fuel l pos st}, Cursor f l pos st → len - st.total ≤ fuel →
    (writeLoop buf len fuel st ≠ none ↔
      loopTakes st.vol l.length pos st.clusterOff (len - st.total) ≤
        st.vol.freeClusters.length) := by
  intro fuel
  induction fuel with
  | zero =>
    intro l pos st hcur hfuel
    rw [writeLoop, if_neg (by omega), Nat.eq_zero_of_le_zero hfuel, loopTakes_zero hcur.bytes_pos]
    exact ⟨fun _ => Nat.zero_le _, fun _ => Option.some_ne_none st⟩
  | succ fuel ih =>
    intro l pos st hcur hfuel
    rw [writeLoop]
    split
    · rename_i hlt
      rcases writeStep_spec hcur buf hlt with ⟨ext, pos', off', st₁, hstep, hturn⟩ | ⟨hstep,
        hend, hlast, hno⟩
      · have htotal := hturn.total_lt hcur hlt
        have htakes := hturn.loopTakes_add hcur hlt
        rw [hstep, Option.bind_some, ih (hturn.cursor hcur) (by omega)]
        omega
      · have htakes : numCluster st.vol (len - st.total) ≤
            loopTakes st.vol l.length pos st.clusterOff (len - st.total) := by
          have hone : l.length - pos = 1 := by omega
          rw [loopTakes, hone, Nat.one_mul, hend, Nat.sub_self, Nat.sub_zero]
          exact le_taken _
        rw [hstep, Option.bind_none]
        exact ⟨fun h => absurd rfl h, fun h => by omega⟩
    · rename_i hge
      rw [Nat.sub_eq_zero_of_le (Nat.le_of_not_lt hge), loopTakes_zero hcur.bytes_pos]
      exact ⟨fun _ => Nat.zero_le _, fun _ => Option.some_ne_none st⟩

variable {fd : FileDescriptor} {s : Slot}

theorem loopTakes_congr {w : Volume} (hB : w.bytesPerCluster = v.bytesPerCluster)
    (L pos off rest : Nat) :
    loopTakes w L pos off rest = loopTakes v L pos off rest := by
  rw [loopTakes, loopTakes, numCluster, numCluster, hB]

theorem Started.write_ne_none_iff (h : FileAt v s l) (hw : WriterAt v fd l pos) {v₁ : Volume}
    {cluster : Nat}
    {ext : List Nat} (hst : Started v s l pos v₁ cluster ext f)
    (hstart : fd.startWrite v len = some (v₁, cluster)) :
    fd.write v buf len ≠ none ↔
      loopTakes v (l ++ ext).length pos fd.wrClusterOff len ≤ v₁.freeClusters.length := by
  have hiff :
      writeLoop buf len len { vol := v₁, cluster := cluster, clusterOff := fd.wrClusterOff } ≠ none ↔
      loopTakes v₁ (l ++ ext).length pos fd.wrClusterOff len ≤ v₁.freeClusters.length :=
    writeLoop_ne_none_iff (hst.cursor h hw.off_le) (Nat.sub_le _ _)
  rw [← loopTakes_congr hst.extend.bytesPerCluster, ← hiff]
  constructor
  · intro hrun
    obtain ⟨r, hr⟩ := Option.ne_none_iff_exists'.1 hrun
    obtain ⟨v₂, cluster', st, hstart', hloop, -⟩ := write_eq_some hr
    rw [hstart] at hstart'
    cases hstart'
    rw [hloop]
    exact Option.some_ne_none st
  · intro hloop
    obtain ⟨st, hst'⟩ := Option.ne_none_iff_exists'.1 hloop
    rw [write_of_loop hstart hst']
    exact Option.some_ne_none _

theorem write_ne_none_iff (h : FileAt v s l) (hfd : fd.fatEntry = s) (hw : WriterAt v fd l pos) :
    fd.write v buf len ≠ none ↔ writeTakes v l.length pos fd.wrClusterOff len ≤
      v.freeClusters.length := by
  obtain ⟨hne, hno, hnil⟩ := startWrite_spec h hfd hw.place len
  rw [writeTakes]
  split
  · rename_i hl
    have hl := List.length_eq_zero_iff.1 hl
    by_cases hle : max (numCluster v len) 1 ≤ v.freeClusters.length
    · obtain ⟨-, v₁, cluster, hstart, hst⟩ := hnil hl hle
      have hfree := (hst.took h (.inr ⟨hl, hle, rfl⟩)).length_add.2
      rw [hst.write_ne_none_iff h hw hstart]
      subst hl
      rw [List.nil_append, List.length_nil, List.length_take_of_le hle] at *
      omega
    · have hrun : fd.write v buf len = none := by
        rw [write, hno hl (by omega)]
        rfl
      exact ⟨fun h => absurd hrun h, fun h => by omega⟩
  · rename_i hl
    obtain ⟨cluster, f, hstart, hst⟩ := hne fun hnil => hl (List.length_eq_zero_iff.2 hnil)
    rw [hst.write_ne_none_iff h hw hstart, List.append_nil]

theorem write_links (h : FileAt v s l) (hfd : fd.fatEntry = s)
    (hw : WriterAt v fd l pos) {r : Written}
    (hrun : fd.write v buf len = some r) : Links v r.vol := by
  obtain ⟨ext, pos', hwr⟩ := h.write hfd hw hrun
  rcases hwr.file.chain with ⟨-, hnil⟩ | hchain
  · obtain ⟨rfl, rfl⟩ := List.append_eq_nil_iff.1 hnil
    exact .of_fat_eq (funext fun c => hwr.extend.frame c List.not_mem_nil List.not_mem_nil)
  · exact hwr.extend.links hchain

/-- If the volume's clusters do not suffice for the bytes, there is less than the call takes. -/
theorem lt_writeTakes (h : FileAt v s l) (hw : WriterAt v fd l pos)
    (hshort : (l.length + v.freeClusters.length) * v.bytesPerCluster <
      pos * v.bytesPerCluster + fd.wrClusterOff + len) :
    v.freeClusters.length < writeTakes v l.length pos fd.wrClusterOff len := by
  by_contra hle
  have hoff := hw.off_le
  -- where the call finds `k` clusters and takes `n` more, the bytes fit into `k + n`
  have hfits : ∀ {k n : Nat}, pos < k → loopTakes v k pos fd.wrClusterOff len ≤ n →
      pos * v.bytesPerCluster + fd.wrClusterOff + len ≤ (k + n) * v.bytesPerCluster := by
    intro k n hpos htakes
    have hrest := (numCluster_le h.bytes_pos).1 (Nat.le_trans (le_taken _) htakes)
    obtain ⟨j, rfl⟩ := Nat.exists_eq_add_of_lt hpos
    have hj : pos + j + 1 - pos = j + 1 := by omega
    rw [hj, Nat.succ_mul] at hrest
    rw [Nat.add_mul, Nat.succ_mul, Nat.add_mul]
    omega
  rw [writeTakes] at hle
  split at hle
  · rename_i hl
    have hpos : pos = 0 := by
      rw [List.length_eq_zero_iff.1 hl] at hw
      exact (hw.place.resolve_right (by simp)).2
    have := hfits (n := v.freeClusters.length - max (numCluster v len) 1)
      (k := max (numCluster v len) 1) (by omega)
      (by omega)
    rw [Nat.add_sub_cancel' (by omega)] at this
    rw [hl, Nat.zero_add] at hshort
    omega
  · rename_i hl
    have hpos : pos < l.length := by
      rcases hw.place with ⟨-, rfl⟩ | hplace
      · exact Nat.pos_of_ne_zero hl
      · exact (List.getElem?_eq_some_iff.1 hplace).1
    have := hfits hpos (Nat.le_of_not_lt hle)
    omega

end FileDescriptor

/-! ### The calls -/

inductive Call
  | allocateClusterchain (n : Nat)
  | extendCluster (eocCluster n : Nat)
  | allocateEntry (dirCluster : Nat)
  | createFile (path : CString)
  | write (fd : FileDescriptor) (buf : Nat → UInt8) (len : Nat)

namespace Call

/-- The volume after the call, or its error; only `CreateFile` has errors, and it gives them before
it changes anything. -/
def run (v : Volume) : Call → Option (Except Error Volume)
  | allocateClusterchain n => (v.allocateClusterchain n).map fun r => .ok r.1
  | extendCluster eocCluster n => (v.extendCluster eocCluster n).map fun r => .ok r.1
  | allocateEntry dirCluster => (v.allocateEntry dirCluster).map fun r => .ok r.1
  | createFile path => (v.createFile path.chars).map fun r => r.map Prod.fst
  | write fd buf len => (fd.write v buf len).map fun r => .ok r.vol

/-- What the callers see to. -/
def Valid (v : Volume) : Call → Prop
  | extendCluster eocCluster _ => ∃ f l, v.IsChain f l ∧ eocCluster ∈ l
  | write fd _ _ => v.Live fd.fatEntry ∧ ∃ l pos, v.EntryChain fd.fatEntry l ∧ WriterAt v fd l pos
  | _ => True

/-- There is no slot for an entry, and no cluster to make room for it. -/
def EntryShort (v : Volume) (dirCluster : Nat) : Prop :=
  v.freeClusters = [] ∧ ∃ l, v.IsChain dirCluster l ∧ v.freeSlot l = none

/-- Fewer free clusters remain than the call needs. -/
def Short (v : Volume) : Call → Prop
  | allocateClusterchain n => v.freeClusters.length < max n 1
  | extendCluster _ n => v.freeClusters.length < n
  | allocateEntry dirCluster => EntryShort v dirCluster
  | createFile path => ¬ (slash ∈ path.chars ∧ (splitPath path.chars).2 = []) ∧
      ∃ d, v.parentDir (splitPath path.chars).1 = some (.ok d) ∧ EntryShort v d
  | write fd _ len => ∃ l pos, v.EntryChain fd.fatEntry l ∧ WriterAt v fd l pos ∧
      (l.length + v.freeClusters.length) * v.bytesPerCluster < pos * v.bytesPerCluster +
        fd.wrClusterOff + len

/-- The clusters the call takes are there. -/
def Fits (v : Volume) : Call → Prop
  | allocateClusterchain n => max n 1 ≤ v.freeClusters.length
  | extendCluster _ n => n ≤ v.freeClusters.length
  | allocateEntry dirCluster => ∃ l, Room v dirCluster l
  | createFile path => (slash ∈ path.chars ∧ (splitPath path.chars).2 = []) ∨
      (∃ e, v.parentDir (splitPath path.chars).1 = some (.error e)) ∨
      ∃ d l, v.parentDir (splitPath path.chars).1 = some (.ok d) ∧ Room v d l
  | write fd _ len => ∃ l pos, v.EntryChain fd.fatEntry l ∧ WriterAt v fd l pos ∧
      writeTakes v l.length pos fd.wrClusterOff len ≤ v.freeClusters.length

/-- The error of a call that runs out of space. -/
def Reports : Call → Error → Prop
  | createFile _, e => e = .kNoEnoughMemory
  | _, _ => True

end Call

/-- The call keeps to the volume and its FAT, and fails where there is not enough space. -/
def SpaceOk (v : Volume) (call : Call) : Prop :=
  ∃ r, call.run v = some r ∧ (∀ v', r = .ok v' → Links v v') ∧
    (call.Short v → ∃ e, r = .error e ∧ call.Reports e)

variable {call : Call}

theorem Room.freeClusters_ne_nil {m : List Nat} (h : Room v d m) (hl : v.IsChain d l)
    (hfull : v.freeSlot l = none) :
    v.freeClusters ≠ [] := by
  induction h generalizing l with
  | @slot d hr h =>
    obtain ⟨t, rfl⟩ := hl.chain.exists_cons
    rw [freeSlot, slots_cons, List.find?_append, Option.or_eq_none_iff] at hfull
    exact absurd hfull.1 h
  | append _ _ _ hfree => exact hfree
  | @next d e m hr h hn ht ih =>
    obtain ⟨hchain, hrange⟩ := hl
    cases hchain with
    | last hend => cases hend.symm.trans hn
    | cons hn' t =>
      obtain rfl := Option.some.inj (hn'.symm.trans hn)
      rw [freeSlot, slots_cons, List.find?_append, Option.or_eq_none_iff] at hfull
      exact ih ⟨t, fun c hc => hrange c (List.mem_cons_of_mem _ hc)⟩ hfull.2

theorem allocateEntry_ne_none_iff (hN : v.NumbersOk) : v.allocateEntry d ≠ none ↔
    ∃ l, Room v d l := by
  constructor
  · intro h
    obtain ⟨r, hr⟩ := Option.ne_none_iff_exists'.1 h
    exact room_of_allocateEntryLoop hN hr
  · rintro ⟨l, hl⟩
    obtain ⟨v', s, hrun, -⟩ := allocateEntryLoop_of_room hN hl hl.length_le
    rw [allocateEntry, hrun]
    exact Option.some_ne_none _

theorem allocateEntry_links (hN : v.NumbersOk) {s : Slot}
    (h : v.allocateEntry d = some (v', s)) : Links v v' := by
  obtain ⟨l, hl⟩ := room_of_allocateEntryLoop hN h
  obtain ⟨w, t, hrun, hlinks⟩ := allocateEntryLoop_of_room hN hl hl.length_le
  rw [allocateEntry, hrun] at h
  cases h
  exact hlinks

theorem createFile_ne_none_iff (hN : v.NumbersOk) (path : CString) :
    v.createFile path.chars ≠ none ↔ (Call.createFile path).Fits v := by
  rw [createFile, Call.Fits]
  split
  rename_i parent filename hsplit
  simp only [hsplit]
  split
  · rename_i hdir
    exact ⟨fun _ => .inl hdir, fun _ => Option.some_ne_none _⟩
  rename_i hdir
  rcases hp : v.parentDir parent with _ | ⟨e | d⟩
  · constructor
    · exact fun h => absurd rfl h
    · rintro (h | ⟨e, h⟩ | ⟨d, l, h, -⟩)
      · exact absurd h hdir
      · cases h
      · cases h
  · exact ⟨fun _ => .inr (.inl ⟨e, rfl⟩), fun _ => Option.some_ne_none _⟩
  · have hrun : ((v.newFile d filename).map (Except.ok (ε := Error)) ≠ none) ↔ ∃ l, Room v d l := by
      rw [← allocateEntry_ne_none_iff hN, newFile, Option.map_map, ne_eq, Option.map_eq_none_iff]
    rw [Option.bind_some, hrun]
    constructor
    · rintro ⟨l, hl⟩
      exact .inr (.inr ⟨d, l, rfl, hl⟩)
    · rintro (h | ⟨e, h⟩ | ⟨d', l, h, hl⟩)
      · exact absurd h hdir
      · cases h
      · cases h
        exact ⟨l, hl⟩

namespace Call

theorem ne_none_iff {α : Type*} {x : Option α} {p : Prop} (hsome : p → ∃ a, x = some a)
    (hnone : ¬ p → x = none) :
    x ≠ none ↔ p := by
  constructor
  · intro h
    by_contra hp
    exact h (hnone hp)
  · intro hp
    obtain ⟨a, ha⟩ := hsome hp
    rw [ha]
    exact Option.some_ne_none a

theorem map_ne_none_iff {α β : Type*} {x : Option α} {f : α → β} : x.map f ≠ none ↔ x ≠ none :=
  not_congr Option.map_eq_none_iff

theorem run_ne_none_iff (hwf : v.WellFormed) (hvalid : call.Valid v) : call.run v ≠ none ↔
    call.Fits v := by
  have hN := hwf.numbers
  cases call with
  | allocateClusterchain n =>
    obtain ⟨hsome, hnone⟩ := allocateClusterchain_spec hN n
    rw [run, map_ne_none_iff, Fits]
    refine ne_none_iff (fun hle => ?_) fun hlt => hnone (Nat.lt_of_not_le hlt)
    obtain ⟨v', f, hrun, -⟩ := hsome hle
    exact ⟨_, hrun⟩
  | extendCluster eocCluster n =>
    obtain ⟨f, l, hl, hc⟩ := hvalid
    obtain ⟨hsome, hnone⟩ :=
      hl.extendCluster hN (n := n) hc (List.getLast?_eq_some_getLast hl.chain.ne_nil)
    rw [run, map_ne_none_iff, Fits]
    refine ne_none_iff (fun hle => ?_) fun hlt => hnone (Nat.lt_of_not_le hlt)
    obtain ⟨v', hrun, -⟩ := hsome hle
    exact ⟨_, hrun⟩
  | allocateEntry dirCluster => rw [run, map_ne_none_iff, allocateEntry_ne_none_iff hN, Fits]
  | createFile path => rw [run, map_ne_none_iff, createFile_ne_none_iff hN]
  | write fd buf len =>
    obtain ⟨hlive, l, pos, hl, hw⟩ := hvalid
    rw [run, map_ne_none_iff, Fits]
    constructor
    · intro h
      exact ⟨l, pos, hl, hw, (write_ne_none_iff (hwf.fileAt hlive hl) rfl hw).1 h⟩
    · rintro ⟨l', pos', hl', hw', hle⟩
      exact (write_ne_none_iff (hwf.fileAt hlive hl') rfl hw').2 hle

theorem run_links (hwf : v.WellFormed) (hvalid : call.Valid v)
    (hrun : call.run v = some (.ok v')) : Links v v' := by
  have hN := hwf.numbers
  cases call with
  | allocateClusterchain n =>
    obtain ⟨⟨w, f⟩, h, heq⟩ := Option.map_eq_some_iff.1 hrun
    cases heq
    obtain ⟨hsome, hnone⟩ := allocateClusterchain_spec hN n
    rcases Nat.lt_or_ge v.freeClusters.length (max n 1) with hlt | hle
    · rw [hnone hlt] at h
      cases h
    · obtain ⟨w, f, hrun', -, hchain, hext⟩ := hsome hle
      rw [hrun'] at h
      cases h
      exact hext.links hchain
  | extendCluster eocCluster n =>
    obtain ⟨⟨w, c⟩, h, heq⟩ := Option.map_eq_some_iff.1 hrun
    cases heq
    obtain ⟨f, l, hl, hc⟩ := hvalid
    obtain ⟨hsome, hnone⟩ :=
      hl.extendCluster hN (n := n) hc (List.getLast?_eq_some_getLast hl.chain.ne_nil)
    rcases Nat.lt_or_ge v.freeClusters.length n with hlt | hle
    · rw [hnone hlt] at h
      cases h
    · obtain ⟨w, hrun', -, hext⟩ := hsome hle
      rw [hrun'] at h
      cases h
      exact hext.links (hext.chain hl)
  | allocateEntry dirCluster =>
    obtain ⟨⟨w, s⟩, h, heq⟩ := Option.map_eq_some_iff.1 hrun
    cases heq
    exact allocateEntry_links hN h
  | createFile path =>
    obtain ⟨r, h, heq⟩ := Option.map_eq_some_iff.1 hrun
    rcases r with e | ⟨w, s⟩
    · cases heq
    · cases heq
      obtain ⟨d, v₁, -, hentry, rfl⟩ := createFile_ok h
      have hlinks := allocateEntry_links hN hentry
      exact fun c hc => hlinks c hc
  | write fd buf len =>
    obtain ⟨r, h, heq⟩ := Option.map_eq_some_iff.1 hrun
    cases heq
    obtain ⟨hlive, l, pos, hl, hw⟩ := hvalid
    exact write_links (hwf.fileAt hlive hl) rfl hw h

theorem Fits.not_short (hwf : v.WellFormed) (hvalid : call.Valid v)
    (hfits : call.Fits v) : ¬ call.Short v := by
  intro hshort
  cases call with
  | allocateClusterchain n => exact Nat.not_lt.2 hfits hshort
  | extendCluster eocCluster n => exact Nat.not_lt.2 hfits hshort
  | allocateEntry dirCluster =>
    obtain ⟨hfree, l, hl, hfull⟩ := hshort
    obtain ⟨m, hm⟩ := hfits
    exact hm.freeClusters_ne_nil hl hfull hfree
  | createFile path =>
    obtain ⟨hdir, d, hd, hfree, l, hl, hfull⟩ := hshort
    rcases hfits with h | ⟨e, h⟩ | ⟨d', m, h, hm⟩
    · exact hdir h
    · cases hd.symm.trans h
    · cases hd.symm.trans h
      exact hm.freeClusters_ne_nil hl hfull hfree
  | write fd buf len =>
    obtain ⟨l, pos, hl, hw, hlt⟩ := hshort
    have hf := hwf.fileAt hvalid.1 hl
    have hrun := (run_ne_none_iff hwf hvalid).2 hfits
    rw [run, map_ne_none_iff, write_ne_none_iff hf rfl hw] at hrun
    exact Nat.not_lt.2 hrun (lt_writeTakes hf hw hlt)

end Call

/-- A call keeps to the volume, and fails where it should, exactly if the clusters it takes are
free. -/
theorem spaceOk_iff (hwf : v.WellFormed) (hvalid : call.Valid v) : SpaceOk v call ↔
    call.Fits v := by
  rw [← Call.run_ne_none_iff hwf hvalid]
  constructor
  · rintro ⟨r, hrun, -⟩
    rw [hrun]
    exact Option.some_ne_none r
  · intro hrun
    have hfits := (Call.run_ne_none_iff hwf hvalid).1 hrun
    obtain ⟨r, hr⟩ := Option.ne_none_iff_exists'.1 hrun
    refine ⟨r, hr, fun v' hv' => Call.run_links hwf hvalid (hv' ▸ hr), fun hshort => ?_⟩
    exact absurd hshort (hfits.not_short hwf hvalid)

theorem oneFile_freeClusters : oneFile.freeClusters = [4, 5] := by decide +kernel

theorem spaceOk_iff_oneFile : ∃ call : Call, call = .write { fatEntry := ⟨2, 0⟩ } (fun _ => 0) 600 ∧
    call.Valid oneFile ∧ (SpaceOk oneFile call ↔ call.Fits oneFile) :=
  have hvalid : (Call.write { fatEntry := ⟨2, 0⟩ } (fun _ => 0) 600).Valid oneFile :=
    ⟨oneFile_live, [3], 0, oneFile_chain, .fresh _ _ _⟩
  ⟨_, rfl, hvalid, spaceOk_iff oneFile_wellFormed hvalid⟩

/-- With two free clusters, a chain of three makes `ExtendCluster` read the FAT behind its end. -/
theorem not_spaceOk : ¬ ∀ (v : Volume) (call : Call), v.WellFormed → call.Valid v →
    SpaceOk v call := by
  intro h
  obtain ⟨r, hrun, -⟩ := h oneFile (.allocateClusterchain 3) oneFile_wellFormed trivial
  refine absurd hrun ?_
  have hno :=
    (allocateClusterchain_spec oneFile_wellFormed.numbers 3).2
      (by rw [oneFile_freeClusters]; decide)
  rw [Call.run, hno]
  exact fun h => by cases h

end Moxia.Fat
