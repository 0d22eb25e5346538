import Moxia.Fat.Directory
import Moxia.Fat.Tree

/-!
# What `CreateFile` does to a volume

`AllocateEntry` takes the first slot of a directory that is unused or deleted, or appends a cluster
(`Allocated`). Nothing but the name and the size of the entry is set then: the new file is empty,
and one of its own, only if the slot's first cluster and attribute happen to be clear
(`SlotsClear`).
-/

namespace Moxia.Fat

open Lib

namespace Volume

variable {v v' v₁ : Volume} {s t : Slot} {d f c : Nat} {l m ext : List Nat} {filename : List UInt8}

/-- Unused or deleted. -/
def isFree (v : Volume) (s : Slot) : Bool := v.name s 0 = 0 ∨ v.name s 0 = 0xe5

/-- The slot that is taken. -/
def freeSlot (v : Volume) (l : List Nat) : Option Slot := (v.slots l).find? v.isFree

theorem findSlot_eq (p : Slot → Bool) : v.findSlot c p = (v.slots [c]).find? p := by
  rw [findSlot, slots, List.flatMap_singleton]

theorem slots_cons : v.slots (c :: l) = v.slots [c] ++ v.slots l := slots_append (l := [c])

theorem slots_drop {i : Nat} (hlt : i < l.length) :
    v.slots (l.drop i) = v.slots [l[i]] ++ v.slots (l.drop (i + 1)) := by
  rw [List.drop_eq_getElem_cons hlt, slots_cons]

theorem isFree_eq_false_iff : v.isFree s = false ↔ v.InUse s := by
  simp [isFree, InUse]

theorem allocateEntryLoop_spec (h : v.IsChain f l) (hN : v.NumbersOk) :
    ∀ {fuel i c}, l[i]? = some c → l.length ≤ fuel + i →
    v.allocateEntryLoop c fuel = match v.freeSlot (l.drop i) with
      | some s => some (v, s)
      | none => (v.extendCluster (l.getLast?.getD f) 1).map fun (v, x) =>
        (v.store x 0 v.bytesPerCluster fun _ => 0, ⟨x, 0⟩) := by
  intro fuel
  induction fuel with
  | zero =>
    intro i c hi hlen
    have := (List.getElem?_eq_some_iff.1 hi).1
    omega
  | succ fuel ih =>
    intro i c hi hlen
    obtain ⟨hlt, rfl⟩ := List.getElem?_eq_some_iff.1 hi
    have hr := h.inRange _ (List.mem_of_getElem? hi)
    rw [allocateEntryLoop, if_pos hr, findSlot_eq, freeSlot, slots_drop hlt, List.find?_append]
    show (match (v.slots [l[i]]).find? v.isFree with
      | some s => some (v, s)
      | none => _) = _
    rcases hfind : (v.slots [l[i]]).find? v.isFree with _ | s
    · show ((v.nextCluster l[i]).bind _) = _
      rw [h.nextCluster hi, Option.bind_some, Option.none_or]
      by_cases hlast : i + 1 < l.length
      · have hnext : l[i + 1]? = some l[i + 1] := List.getElem?_eq_getElem hlast
        have hne : l[i + 1] ≠ kEndOfClusterchain := h.ne_endMark hN (List.mem_of_getElem? hnext)
        rw [hnext, Option.getD_some, if_neg hne, ih hnext (by omega)]
        rfl
      · have hlen' : i + 1 = l.length := by omega
        have hget : l.getLast?.getD f = l[i] := by
          rw [List.getLast?_eq_getElem?, ← hlen', Nat.add_sub_cancel, hi, Option.getD_some]
        rw [List.getElem?_eq_none (by omega), Option.getD_none, if_pos rfl,
          List.drop_eq_nil_of_le (by omega), hget]
        show (v.extendCluster l[i] 1).bind _ = Option.map _ _
        rcases v.extendCluster l[i] 1 with _ | r <;> rfl
    · rfl

/-- A slot of the directory with the chain `l` that a new entry may be put into: the first free one,
or, in a cluster that is appended and cleared, the first. -/
structure Allocated (v : Volume) (l : List Nat) (v₁ : Volume) (s : Slot)
    (ext : List Nat) : Prop where
  extend : Extends v l ext v₁
  split : ∃ pre post, v.slots (l ++ ext) = pre ++ s :: post ∧ pre <+: v.slots l ∧
    ∀ t ∈ pre, v.InUse t
  data : ∀ c, c ∉ ext → v₁.data c = v.data c
  zero : ∀ c off, c ∈ ext → off < v.bytesPerCluster → v₁.data c off = 0
  free : (ext = [] ∧ v.freeSlot l = some s) ∨ s.cluster ∈ ext

theorem slotsPerCluster_pos (hwf : v.WellFormed) : 0 < v.slotsPerCluster :=
  Nat.div_pos (Nat.le_of_dvd hwf.pos hwf.aligned) (by decide)

theorem slots_singleton (hwf : v.WellFormed) (c : Nat) : ∃ rest, v.slots [c] = ⟨c, 0⟩ :: rest := by
  obtain ⟨k, hk⟩ := Nat.exists_eq_succ_of_ne_zero (Nat.pos_iff_ne_zero.1 (slotsPerCluster_pos hwf))
  refine ⟨((List.range k).map Nat.succ).map fun i => ⟨c, i⟩, ?_⟩
  rw [slots, List.flatMap_singleton, hk, List.range_succ_eq_map, List.map_cons]

theorem allocateEntry_spec (hwf : v.WellFormed) (h : v.IsChain f l) :
    (∀ v₁ s, v.allocateEntry f = some (v₁, s) → ∃ ext, Allocated v l v₁ s ext) ∧
    (v.freeClusters ≠ [] → v.allocateEntry f ≠ none) := by
  have hrun := allocateEntryLoop_spec h hwf.numbers h.chain.getElem_zero h.length_le
  rw [List.drop_zero] at hrun
  rw [allocateEntry, hrun]
  rcases hfind : v.freeSlot l with _ | s
  swap
  · obtain ⟨-, pre, post, hsplit, hpre⟩ := List.find?_eq_some_iff_append.1 hfind
    refine ⟨?_, fun _ hno => by cases hno⟩
    rintro v₁ s' heq
    cases heq
    refine ⟨[], .refl v l,
      ⟨pre, post, by rw [List.append_nil, hsplit], ⟨_, hsplit.symm⟩, fun t ht => ?_⟩,
      fun _ _ => rfl, fun _ _ hc => absurd hc List.not_mem_nil, .inl ⟨rfl, hfind⟩⟩
    exact isFree_eq_false_iff.1 (by simpa using hpre t ht)
  -- no slot is free
  obtain ⟨t, ht⟩ : ∃ t, l.getLast? = some t := ⟨_, List.getLast?_eq_some_getLast h.chain.ne_nil⟩
  rw [ht, Option.getD_some]
  obtain ⟨hsome, -⟩ := h.extendCluster hwf.numbers (n := 1) (List.mem_of_getLast? ht) ht
  rcases hfree : v.freeClusters with _ | ⟨x, rest⟩
  · refine ⟨?_, fun hno => absurd rfl hno⟩
    intro v₁ s hrun
    obtain ⟨-, hnone⟩ := h.extendCluster hwf.numbers (n := 1) (List.mem_of_getLast? ht) ht
    rw [hnone (by rw [hfree]; exact Nat.one_pos)] at hrun
    cases hrun
  obtain ⟨w, hw, hdata, hext⟩ := hsome (by rw [hfree, List.length_cons]; omega)
  rw [hfree, List.take_succ_cons, List.take_zero] at hw hext
  rw [hw]
  refine ⟨?_, fun _ hno => by cases hno⟩
  intro v₁ s hrun
  cases hrun
  obtain ⟨rest', hrest⟩ := slots_singleton hwf x
  have hB := hext.bytesPerCluster
  refine ⟨[x], hext.of_data rfl rfl rfl,
    ⟨v.slots l, rest', by rw [slots_append, hrest]; rfl, List.prefix_rfl,
    fun t ht => ?_⟩, ?_, ?_, .inr (List.mem_singleton_self x)⟩
  · exact isFree_eq_false_iff.1 (by simpa using List.find?_eq_none.1 hfind t ht)
  · intro c hc
    funext o
    rw [store_data, if_neg (fun h => hc (List.mem_singleton.2 h.1)), hdata]
  · intro c off hc hoff
    rw [store_data, if_pos ⟨List.mem_singleton.1 hc, Nat.zero_le _, by rw [hB]; omega⟩]

/-! ### The new entry -/

theorem setEntry_data_of_out {off : Nat} (h : OutOf s c off) :
    (v.setEntry s filename).data c off = v.data c off := by
  have h : c ≠ s.cluster ∨ off < s.offset ∨ s.offset + 32 ≤ off := h
  rw [setEntry, setFileSize_data_of_ne (by omega), setFileName, store_data, if_neg (by omega)]

theorem setEntry_name {i : Nat} (hi : i < 11) :
    (v.setEntry s filename).name s i = fileName filename i := by
  rw [name, setEntry, setFileSize_data_of_ne (by omega), setFileName, store_data,
    if_pos ⟨rfl, by omega, by omega⟩,
    Nat.add_sub_cancel_left]

theorem setEntry_entryByte {i : Nat} (hlo : 11 ≤ i) (hhi : i < 28) :
    (v.setEntry s filename).entryByte s i = v.entryByte s i := by
  rw [entryByte, setEntry, setFileSize_data_of_ne (by omega), setFileName, store_data,
    if_neg (by omega), entryByte]

theorem setEntry_attr : (v.setEntry s filename).attr s = v.attr s :=
  setEntry_entryByte (i := 11) (by decide) (by decide)

theorem setEntry_firstCluster : (v.setEntry s filename).firstCluster s = v.firstCluster s :=
  firstCluster_congr fun _ _ _ => setEntry_entryByte (by omega) (by omega)

theorem setEntry_fileSize : (v.setEntry s filename).fileSize s = 0 := by
  rw [setEntry, fileSize_setFileSize, Nat.zero_mod]

theorem lt_of_strrchr {c : UInt8} {name : List UInt8} : ∀ {k}, strrchr c name = some k →
    k < name.length := by
  induction name with
  | nil => intro k h; cases h
  | cons x name ih =>
    intro k h
    rw [strrchr] at h
    rw [List.length_cons]
    rcases hrec : strrchr c name with _ | i
    · rw [hrec] at h
      dsimp only at h
      split at h
      · cases h
        omega
      · cases h
    · rw [hrec] at h
      cases h
      have := ih hrec
      omega

theorem toupper_ne_zero {c : UInt8} (h : c ≠ 0) : toupper c ≠ 0 := by
  rw [toupper]
  split <;> grind

theorem fileName_ne_zero (h : 0 ∉ filename) (i : Nat) : fileName filename i ≠ 0 := by
  have hchar : ∀ {j}, j < filename.length → toupper (filename.getD j 0) ≠ 0 := fun {j} hj => by
    refine toupper_ne_zero fun h0 => h ?_
    rw [List.getD_eq_getElem?_getD, List.getElem?_eq_getElem hj, Option.getD_some] at h0
    exact h0 ▸ List.getElem_mem hj
  have hspace : space ≠ 0 := by decide
  rw [fileName]
  split
  · rename_i k hk
    have hlt := lt_of_strrchr hk
    split
    · split
      · exact hchar (by omega)
      · exact hspace
    · split
      · rename_i hlt'
        exact hchar hlt'
      · exact hspace
  · split
    · rename_i hlt
      exact hchar hlt.2
    · exact hspace

/-- The bytes of a name that is not that of a deleted slot, nor `.` or `..`. -/
def NameOk (n : Nat → UInt8) : Prop :=
  n 0 ≠ 0xe5 ∧ ¬ (n 0 = 0x2e ∧ (n 1 = 0x20 ∨ n 1 = 0x2e) ∧ ∀ i, i < 11 → 2 ≤ i → n i = 0x20)

/-- No cluster, no directory, no long name or volume label. -/
def Clear (v : Volume) (s : Slot) : Prop :=
  v.firstCluster s = 0 ∧ v.attr s &&& kVolumeID = 0 ∧ v.attr s &&& kDirectory = 0

instance (n : Nat → UInt8) : Decidable (NameOk n) := inferInstanceAs (Decidable (_ ∧ _))
instance (v : Volume) (s : Slot) : Decidable (v.Clear s) := inferInstanceAs (Decidable (_ ∧ _))

theorem hasEntry_setEntry (hnul : 0 ∉ filename) (hname : NameOk (fileName filename))
    (hclear : v.Clear s) :
    (v.setEntry s filename).HasEntry s ∧ ¬ (v.setEntry s filename).IsDirectory s := by
  obtain ⟨hdel, hdots⟩ := hname
  refine ⟨⟨⟨?_, ?_⟩, ?_, ?_⟩, ?_⟩
  · rw [setEntry_name (by decide)]
    exact fileName_ne_zero hnul 0
  · rwa [setEntry_name (by decide)]
  · rw [IsDots, setEntry_name (by decide), setEntry_name (by decide)]
    refine fun h => hdots ⟨h.1, h.2.1, fun i hi h2 => ?_⟩
    rw [← h.2.2 i hi h2, setEntry_name hi]
  · rw [setEntry_attr]
    exact hclear.2.1
  · rw [IsDirectory, setEntry_attr]
    exact not_not.2 hclear.2.2

theorem clear_of_zero (h : ∀ i, i < kEntrySize → v.entryByte s i = 0) : v.Clear s := by
  have hattr : v.attr s = 0 := h 11 (by decide)
  have hload : ∀ off, off + 2 ≤ 32 → loadLE (v.data s.cluster) (s.offset + off) 2 = 0 := by
    intro off hoff
    have h0 : v.data s.cluster (s.offset + off) = 0 := h off (by rw [kEntrySize]; omega)
    have h1 : v.data s.cluster (s.offset + off + 1) = 0 := h (off + 1) (by rw [kEntrySize]; omega)
    simp [loadLE, h0, h1]
  refine ⟨?_, by rw [hattr]; rfl, by rw [hattr]; rfl⟩
  rw [firstCluster, hload 26 (by decide), hload 20 (by decide), Nat.mul_zero]

theorem nodup_slots (h : l.Nodup) : (v.slots l).Nodup := by
  refine List.nodup_flatMap.2 ⟨fun c _ => ?_, h.imp fun {a b} hab t ha hb => ?_⟩
  · exact List.nodup_range.map fun i j hij => by cases hij; rfl
  · obtain ⟨i, -, rfl⟩ := List.mem_map.1 ha
    obtain ⟨j, -, heq⟩ := List.mem_map.1 hb
    cases heq
    exact hab rfl

/-- What holds before an element of a list without duplicates. -/
theorem pairwise_before {α : Type*} {L pre post : List α} {a : α} {P : α → Prop} (hnd : L.Nodup)
    (hL : L = pre ++ a :: post) (hpre : ∀ b ∈ pre, P b) : L.Pairwise fun b b' => b' = a → P b := by
  subst hL
  obtain ⟨hnp, hnpost, -⟩ := List.nodup_append.1 hnd
  have hna : a ∉ post := (List.nodup_cons.1 hnpost).1
  refine List.pairwise_append.2 ⟨?_, ?_, fun b hb _ _ _ => hpre b hb⟩
  · exact (List.pairwise_of_forall_mem_list fun b hb _ _ _ => hpre b hb)
  · refine List.pairwise_cons.2 ⟨fun b hb heq => absurd (heq ▸ hb) hna, ?_⟩
    exact List.pairwise_of_forall_mem_list fun b _ b' hb' heq => absurd (heq ▸ hb') hna

theorem Allocated.not_inUse (h : Allocated v l v₁ s ext) (hm : v.IsChain f m)
    (hs : s ∈ v.slots m) : ¬ v.InUse s := by
  intro huse
  rcases h.free with ⟨-, hfree⟩ | hmem
  · have hb := List.find?_some hfree
    rw [← Bool.not_eq_false, isFree_eq_false_iff] at hb
    exact hb huse
  · exact hm.fat_ne_zero (mem_slots.1 hs).1 (h.extend.free _ hmem).2

theorem Allocated.not_live (h : Allocated v l v₁ s ext) : ¬ v.Live s := by
  rintro ⟨d', m, -, hm, hs, he⟩
  exact h.not_inUse hm hs he.1

theorem Allocated.slot_mem (h : Allocated v l v₁ s ext) : s ∈ v.slots (l ++ ext) := by
  obtain ⟨pre, post, hsplit, -⟩ := h.split
  rw [hsplit]
  exact List.mem_append_right _ List.mem_cons_self

theorem Allocated.clear (hwf : v.WellFormed) (h : Allocated v l v₁ s ext)
    (hclear : v.freeSlot l = some s → v.Clear s) :
    v₁.Clear s := by
  rcases h.free with ⟨rfl, hfree⟩ | hmem
  · have hsame : SameEntry v v₁ s := fun i _ => by
      rw [entryByte, entryByte, h.data _ List.not_mem_nil]
    have := hclear hfree
    rwa [Clear, ← hsame.firstCluster, ← hsame.head.attr] at this
  · exact clear_of_zero fun i hi => h.zero _ _ hmem (hwf.slot_lt (mem_slots.1 h.slot_mem).2 hi)

/-! Nothing but the slot changes. -/

theorem Allocated.extends_setEntry (h : Allocated v l v₁ s ext) (filename : List UInt8) :
    Extends v l ext (v₁.setEntry s filename) :=
  h.extend.of_data rfl rfl rfl

theorem Allocated.slots_setEntry (h : Allocated v l v₁ s ext) (m : List Nat) :
    (v₁.setEntry s filename).slots m = v.slots m := by
  rw [slots, slots, slotsPerCluster, slotsPerCluster, (h.extends_setEntry filename).bytesPerCluster]

theorem Allocated.kept (h : Allocated v l v₁ s ext) {off : Nat} (hc : v.fat c ≠ 0)
    (hout : OutOf s c off) :
    (v₁.setEntry s filename).data c off = v.data c off := by
  rw [setEntry_data_of_out hout, h.data c fun hmem => hc (h.extend.free c hmem).2]

theorem Allocated.same (h : Allocated v l v₁ s ext) (hm : v.IsChain f m) (ht : t ∈ v.slots m)
    (hne : t ≠ s) :
    SameEntry v (v₁.setEntry s filename) t :=
  fun _ hi => h.kept (hm.fat_ne_zero (Volume.mem_slots.1 ht).1) (outOf_of_ne hne hi)

theorem Allocated.dirChain (hwf : v.WellFormed) (hd : v.IsDir d) (hl : v.IsChain d l)
    (h : Allocated v l v₁ s ext)
    (hf : v.IsDir f) (hm : v.IsChain f m) (filename : List UInt8) :
    (m = l ∧ (v₁.setEntry s filename).IsChain f (l ++ ext)) ∨
      (s ∉ v.slots m ∧ l.Disjoint m ∧ (v₁.setEntry s filename).IsChain f m) := by
  obtain ⟨o, ho, hown, -⟩ := hd.owner hl
  obtain ⟨o', ho', hown', -⟩ := hf.owner hm
  by_cases hoo : o = o'
  · subst hoo
    obtain rfl := hown'.unique hown
    exact .inl ⟨rfl, (h.extends_setEntry filename).chain hm⟩
  · have hdisj := hwf.ownersDisjoint hoo ho ho' hown hown'
    refine .inr ⟨fun hs => ?_, hdisj, (h.extends_setEntry filename).other hm hdisj⟩
    have hmem := (Volume.mem_slots.1 hs).1
    rcases List.mem_append.1 (Volume.mem_slots.1 h.slot_mem).1 with hsl | hse
    · exact hdisj hsl hmem
    · exact hm.fat_ne_zero hmem (h.extend.free _ hse).2

theorem Allocated.grows (hwf : v.WellFormed) (hd : v.IsDir d) (hl : v.IsChain d l)
    (h : Allocated v l v₁ s ext)
    (hnul : 0 ∉ filename) (hname : NameOk (fileName filename)) (hclear : v₁.Clear s) :
    ∃ o, o ≠ some s ∧ Grows v (v₁.setEntry s filename) s o l ext := by
  obtain ⟨o, ho, hown, hdir⟩ := hd.owner hl
  have hnl := h.not_live
  have hos : o ≠ some s := by
    rintro rfl
    exact hnl ho
  have hext := h.extends_setEntry filename
  obtain ⟨pre, post, hsplit, hpfx, hpre⟩ := h.split
  have hs := h.slot_mem
  have hsc : s.cluster ∈ l ∨ s.cluster ∈ ext := List.mem_append.1 (mem_slots.1 hs).1
  obtain ⟨hentry, hregular⟩ := hasEntry_setEntry hnul hname hclear
  refine ⟨o, hos, hext, ho, hown, ?_, ?_, ?_, ?_, ?_, ?_, hentry, hregular, fun hw =>
    hnl hw.1, ?_, ?_⟩
  · -- the chain of the directory
    rcases o with _ | t
    · have hroot : (v₁.setEntry s filename).rootCluster = v.rootCluster :=
        congrArg (·.rootCluster.toNat) h.extend.bpb
      show IsChain _ _ _
      rw [hroot]
      exact hext.chain hown
    · obtain ⟨d', m, -, hm, ht, -⟩ := id ho
      have hne : t ≠ s := fun heq => hos (congrArg some heq)
      refine .inr ?_
      rw [(h.same hm ht hne).firstCluster, (hdir t rfl).2]
      exact hext.chain hl
  · exact fun _ =>
      ⟨hnl, .inl ⟨setEntry_firstCluster.trans hclear.1, rfl⟩, fun t ht => (hdir t ht).1⟩
  · exact fun d' m c off _ hm hc => h.kept (hm.fat_ne_zero hc)
  · intro _ c off hc hoff hout
    rw [setEntry_data_of_out hout, h.zero c off hc hoff]
  · intro t m c ht hne hreg hm hc
    have hcs : c ≠ s.cluster := by
      rintro rfl
      rcases hsc with hsl | hse
      · exact hwf.fileDisjoint ht hreg hm hd hl hc hsl
      · exact hm.fat_ne_zero _ hc (h.extend.free _ hse).2
    exact funext fun off => h.kept (hm.fat_ne_zero c hc) (.inl hcs)
  · refine ⟨d, l ++ ext, hd, hext.chain hl, ?_⟩
    rwa [h.slots_setEntry]
  · rw [setEntry_fileSize]
    exact Nat.zero_le _
  · intro d' m' hd' hm'
    rw [h.slots_setEntry]
    obtain ⟨m₀, hm₀⟩ := hwf.dirChain hd'
    rcases h.dirChain hwf hd hl hd' hm₀ filename with ⟨rfl, hc⟩ | ⟨hns, -, hc⟩
    swap
    · rw [hm'.unique hc]
      exact List.pairwise_of_forall_mem_list fun t _ u hu heq => absurd (heq ▸ hu) hns
    rw [hm'.unique hc]
    refine pairwise_before (nodup_slots hc.chain.nodup) hsplit fun t ht => ?_
    by_cases hne : t = s
    · subst hne
      exact hentry.1.1
    · rw [(h.same hl (hpfx.subset ht) hne).name (by decide)]
      exact (hpre t ht).1

theorem not_mem_filename {path : List UInt8} (h : 0 ∉ path) : 0 ∉ (splitPath path).2 := by
  rw [splitPath]
  split
  · exact fun hmem => h (List.mem_of_mem_drop hmem)
  · exact h

theorem createFile_ok {path : List UInt8} (h : v.createFile path = some (.ok (v', s))) :
    ∃ d v₁, v.parentDir (splitPath path).1 = some (.ok d) ∧ v.allocateEntry d = some (v₁, s) ∧
      v' = v₁.setEntry s (splitPath path).2 := by
  rw [createFile] at h
  rcases hsplit : splitPath path with ⟨parent, filename⟩
  simp only [hsplit] at h
  split at h
  · cases h
  · obtain ⟨r, hr, h⟩ := Option.bind_eq_some_iff.1 h
    rcases r with e | d
    · cases h
    · obtain ⟨r', hr', h⟩ := Option.map_eq_some_iff.1 h
      obtain rfl := Except.ok.inj h
      obtain ⟨⟨v₁, s'⟩, ha, h⟩ := Option.map_eq_some_iff.1 hr'
      cases h
      exact ⟨d, v₁, hr, ha, rfl⟩

end Volume

end Moxia.Fat
