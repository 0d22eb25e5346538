import Moxia.Fat.WellFormed
import Moxia.Fat.Entry
import Moxia.Fat.Contents

/-!
# Changes of one file

`Grows`: the entry in one slot is made or rewritten, as that of a regular file, and free clusters
are appended to one chain, which is that file's or a directory's. Such a change keeps the tree of
the directories (`Grows.isDir_iff`), adds no other entry (`Grows.live_iff`), keeps a volume
well-formed (`Grows.wellFormed`) and leaves all other files alone (`Grows.others`).
-/

namespace Moxia.Fat

namespace Volume

variable {v v' : Volume} {s t : Slot} {o o' : Option Slot} {d : Nat} {l m ext : List Nat}

/-! ### The chains of the live entries and of the root -/

/-- The chain of the entry in a slot, or of the root directory. -/
def Owns (v : Volume) : Option Slot → List Nat → Prop
  | none, l => v.IsChain v.rootCluster l
  | some s, l => v.EntryChain s l

def LiveOwner (v : Volume) : Option Slot → Prop
  | none => True
  | some s => v.Live s

theorem Owns.unique (h : v.Owns o l) (h' : v.Owns o m) : l = m := by
  rcases o with _ | s
  · exact IsChain.unique h h'
  · exact EntryChain.unique h h'

theorem Owns.fat_ne_zero (h : v.Owns o l) : ∀ c ∈ l, v.fat c ≠ 0 := by
  rcases o with _ | s
  · exact fun c => IsChain.fat_ne_zero h
  · exact EntryChain.fat_ne_zero h

theorem WellFormed.ownersDisjoint (h : v.WellFormed) (hne : o ≠ o') (ho : v.LiveOwner o)
    (ho' : v.LiveOwner o')
    (hl : v.Owns o l) (hm : v.Owns o' m) : l.Disjoint m := by
  rcases o with _ | s <;> rcases o' with _ | t
  · exact absurd rfl hne
  · exact fun c hc hc' => h.rootDisjoint t m l ho' hm hl hc' hc
  · exact h.rootDisjoint s l m ho hl hm
  · exact h.disjoint s t l m ho ho' (fun heq => hne (congrArg some heq)) hl hm

/-- The chain of a directory is that of the root or of a directory entry. -/
theorem IsDir.owner (hd : v.IsDir d) (hl : v.IsChain d l) :
    ∃ o, v.LiveOwner o ∧ v.Owns o l ∧ ∀ s, o = some s → v.IsDirectory s ∧ v.firstCluster s = d := by
  cases hd with
  | root => exact ⟨none, trivial, hl, fun _ h => by cases h⟩
  | @sub d' l' s hd' hl' hs he ha h0 =>
    refine ⟨some s, ⟨d', l', hd', hl', hs, he⟩, .inr hl, ?_⟩
    rintro t h
    cases h
    exact ⟨ha, rfl⟩

theorem slots_append : v.slots (l ++ m) = v.slots l ++ v.slots m := List.flatMap_append

/-! ### Bytes of slots -/

/-- A byte that is not one of the entry in `s`. -/
def OutOf (s : Slot) (c off : Nat) : Prop :=
  c ≠ s.cluster ∨ off < s.offset ∨ s.offset + kEntrySize ≤ off

theorem outOf_of_ne (hne : t ≠ s) {i : Nat} (hi : i < kEntrySize) :
    OutOf s t.cluster (t.offset + i) := by
  obtain ⟨c, j⟩ := s
  obtain ⟨c', j'⟩ := t
  by_cases hc : c' = c
  · subst hc
    have hj : j' ≠ j := fun h => hne (by rw [h])
    right
    simp only [Slot.offset, kEntrySize] at *
    omega
  · exact .inl hc

theorem WellFormed.slot_lt (hwf : v.WellFormed) (hidx : t.index < v.slotsPerCluster) {i : Nat}
    (hi : i < kEntrySize) :
    t.offset + i < v.bytesPerCluster := by
  obtain ⟨k, hk⟩ := hwf.aligned
  rw [slotsPerCluster, hk, Nat.mul_div_cancel_left _ (by decide)] at hidx
  rw [Slot.offset, hk, Nat.mul_comm kEntrySize k]
  have := Nat.mul_le_mul_right kEntrySize (Nat.succ_le_of_lt hidx)
  rw [Nat.succ_mul] at this
  omega

/-- The same name and attribute in two volumes. -/
def SameHead (v v' : Volume) (s : Slot) : Prop := ∀ i, i < 12 → v'.entryByte s i = v.entryByte s i

namespace SameHead

theorem name (h : SameHead v v' s) {i : Nat} (hi : i < 11) : v'.name s i = v.name s i :=
  h i (by omega)

theorem attr (h : SameHead v v' s) : v'.attr s = v.attr s := h 11 (by decide)

theorem hasEntry (h : SameHead v v' s) : v'.HasEntry s ↔ v.HasEntry s := by
  have hdots : v'.IsDots s ↔ v.IsDots s := by
    unfold IsDots
    rw [h.name (by decide), h.name (by decide)]
    exact and_congr_right fun _ => and_congr_right fun _ => forall₂_congr fun i hi => by
      rw [h.name hi]
  rw [HasEntry, HasEntry, InUse, InUse, hdots, h.attr, h.name (by decide)]

theorem isDirectory (h : SameHead v v' s) : v'.IsDirectory s ↔ v.IsDirectory s := by
  rw [IsDirectory, IsDirectory, h.attr]

end SameHead

/-- The same entry in two volumes. -/
def SameEntry (v v' : Volume) (s : Slot) : Prop := ∀ i, i < kEntrySize →
    v'.entryByte s i = v.entryByte s i

namespace SameEntry

theorem name (h : SameEntry v v' s) {i : Nat} (hi : i < 11) : v'.name s i = v.name s i :=
  h i (by rw [kEntrySize]; omega)

theorem firstCluster (h : SameEntry v v' s) : v'.firstCluster s = v.firstCluster s :=
  firstCluster_congr fun o _ ho => h o (by rw [kEntrySize]; omega)

theorem fileSize (h : SameEntry v v' s) : v'.fileSize s = v.fileSize s :=
  fileSize_congr fun o _ ho => h o ho

theorem head (h : SameEntry v v' s) : SameHead v v' s := fun i hi => h i (by rw [kEntrySize]; omega)

theorem hasEntry (h : SameEntry v v' s) : v'.HasEntry s ↔ v.HasEntry s := h.head.hasEntry

theorem isDirectory (h : SameEntry v v' s) : v'.IsDirectory s ↔ v.IsDirectory s :=
  h.head.isDirectory

end SameEntry

theorem not_hasEntry_of_zero (h : v.name s 0 = 0) : ¬ v.HasEntry s := fun he => he.1.1 h

/-! ### The change -/

/-- The entry in `s` is written, and the clusters `ext` are appended to the chain `l` of `o`. -/
structure Grows (v v' : Volume) (s : Slot) (o : Option Slot) (l ext : List Nat) : Prop where
  extend : Extends v l ext v'
  live : v.LiveOwner o
  owns : v.Owns o l
  owns' : v'.Owns o (l ++ ext)
  /-- Another chain than the file's is a directory's, and the file is a new one. -/
  dir : o ≠ some s → ¬ v.Live s ∧ v'.EntryChain s [] ∧ ∀ t, o = some t → v.IsDirectory t
  kept : ∀ d m c off, v.IsDir d → v.IsChain d m → c ∈ m → OutOf s c off →
    v'.data c off = v.data c off
  zero : o ≠ some s → ∀ c off, c ∈ ext → off < v.bytesPerCluster → OutOf s c off → v'.data c off = 0
  files : ∀ t m c, v.Live t → t ≠ s → ¬ v.IsDirectory t → v.EntryChain t m → c ∈ m →
    v'.data c = v.data c
  place : ∃ d m, v.IsDir d ∧ v'.IsChain d m ∧ s ∈ v'.slots m
  entry : v'.HasEntry s
  regular : ¬ v'.IsDirectory s
  wasnt : ¬ (v.Live s ∧ v.IsDirectory s)
  size : v'.fileSize s ≤ if o = some s then (l ++ ext).length * v.bytesPerCluster else 0
  before : ∀ d m, v.IsDir d → v'.IsChain d m → (v'.slots m).Pairwise fun t u => u = s →
    v'.name t 0 ≠ 0

namespace Grows

variable (h : Grows v v' s o l ext)

include h

theorem slots_eq : v'.slots m = v.slots m := by
  rw [slots, slots, slotsPerCluster, slotsPerCluster, h.extend.bytesPerCluster]

theorem same (hd : v.IsDir d) (hm : v.IsChain d m) (ht : t ∈ v.slots m)
    (hne : t ≠ s) : SameEntry v v' t :=
  fun i hi => h.kept d m t.cluster (t.offset + i) hd hm (mem_slots.1 ht).1 (outOf_of_ne hne hi)

theorem same_of_live (ht : v.Live t) (hne : t ≠ s) : SameEntry v v' t := by
  obtain ⟨d, m, hd, hm, htm, -⟩ := ht
  exact h.same hd hm htm hne

theorem dirChain (hwf : v.WellFormed) (hd : v.IsDir d) (hm : v.IsChain d m) :
    v'.IsChain d m ∨ (m = l ∧ o ≠ some s ∧ v'.IsChain d (m ++ ext)) := by
  obtain ⟨o', ho', hown, hdir⟩ := hd.owner hm
  by_cases heq : o' = o
  · subst heq
    obtain rfl := hown.unique h.owns
    by_cases hs : o' = some s
    · have hlive : v.Live s := by rwa [hs] at ho'
      exact absurd ⟨hlive, (hdir s hs).1⟩ h.wasnt
    · exact .inr ⟨rfl, hs, h.extend.chain hm⟩
  · exact .inl (h.extend.other hm (hwf.ownersDisjoint (Ne.symm heq) h.live ho' h.owns hown))

theorem name_zero (hwf : v.WellFormed) (ho : o ≠ some s) (ht : t ∈ v.slots ext)
    (hne : t ≠ s) {i : Nat}
    (hi : i < kEntrySize) : v'.data t.cluster (t.offset + i) = 0 := by
  obtain ⟨hc, hidx⟩ := mem_slots.1 ht
  exact h.zero ho t.cluster (t.offset + i) hc (hwf.slot_lt hidx hi) (outOf_of_ne hne hi)

/-- A slot of a directory afterwards was one before, or is the written one, or is unused. -/
theorem slot_cases (hwf : v.WellFormed) (hd : v.IsDir d) {m' : List Nat} (hm' : v'.IsChain d m')
    (ht : t ∈ v'.slots m') : t = s ∨ (∃ m, v.IsChain d m ∧ t ∈ v.slots m) ∨ v'.name t 0 = 0 := by
  obtain ⟨m, hm⟩ := hwf.dirChain hd
  rw [h.slots_eq] at ht
  rcases h.dirChain hwf hd hm with hc | ⟨rfl, ho, hc⟩
  · rw [hm'.unique hc] at ht
    exact .inr (.inl ⟨m, hm, ht⟩)
  · rw [hm'.unique hc, slots_append] at ht
    rcases List.mem_append.1 ht with ht | ht
    · exact .inr (.inl ⟨m, hm, ht⟩)
    · by_cases hne : t = s
      · exact .inl hne
      · exact .inr (.inr (h.name_zero hwf ho ht hne (by decide)))

theorem mem_slots_of_mem (hwf : v.WellFormed) (hd : v.IsDir d) (hm : v.IsChain d m)
    (ht : t ∈ v.slots m) :
    ∃ m', v'.IsChain d m' ∧ t ∈ v'.slots m' := by
  rcases h.dirChain hwf hd hm with hc | ⟨-, -, hc⟩
  · exact ⟨m, hc, by rwa [h.slots_eq]⟩
  · refine ⟨m ++ ext, hc, ?_⟩
    rw [h.slots_eq, slots_append]
    exact List.mem_append_left _ ht

theorem isDir_iff (hwf : v.WellFormed) : v'.IsDir d ↔ v.IsDir d := by
  have hroot : v'.rootCluster = v.rootCluster := by rw [rootCluster, rootCluster, h.extend.bpb]
  constructor
  · intro hd
    induction hd with
    | root =>
      rw [hroot]
      exact .root
    | @sub d m' t hd hm' ht he ha h0 ih =>
      have hne : t ≠ s := by
        rintro rfl
        exact h.regular ha
      rcases h.slot_cases hwf ih hm' ht with heq | ⟨m, hm, htm⟩ | h0'
      · exact absurd heq hne
      · have hsame := h.same ih hm htm hne
        rw [hsame.firstCluster] at h0 ⊢
        exact .sub ih hm htm (hsame.hasEntry.1 he) (hsame.isDirectory.1 ha) h0
      · exact absurd he (not_hasEntry_of_zero h0')
  · intro hd
    induction hd with
    | root =>
      rw [← hroot]
      exact .root
    | @sub d m t hd hm ht he ha h0 ih =>
      have hne : t ≠ s := by
        rintro rfl
        exact h.wasnt ⟨⟨d, m, hd, hm, ht, he⟩, ha⟩
      have hsame := h.same hd hm ht hne
      obtain ⟨m', hm', ht'⟩ := h.mem_slots_of_mem hwf hd hm ht
      rw [← hsame.firstCluster] at h0 ⊢
      exact .sub ih hm' ht' (hsame.hasEntry.2 he) (hsame.isDirectory.2 ha) h0

theorem live_iff (hwf : v.WellFormed) : v'.Live t ↔ v.Live t ∨ t = s := by
  constructor
  · rintro ⟨d, m', hd, hm', ht, he⟩
    have hd := (h.isDir_iff hwf).1 hd
    by_cases hne : t = s
    · exact .inr hne
    rcases h.slot_cases hwf hd hm' ht with heq | ⟨m, hm, htm⟩ | h0
    · exact .inr heq
    · exact .inl ⟨d, m, hd, hm, htm, (h.same hd hm htm hne).hasEntry.1 he⟩
    · exact absurd he (not_hasEntry_of_zero h0)
  · intro ht
    by_cases hne : t = s
    · subst hne
      obtain ⟨d, m, hd, hm, htm⟩ := h.place
      exact ⟨d, m, (h.isDir_iff hwf).2 hd, hm, htm, h.entry⟩
    · obtain ⟨d, m, hd, hm, htm, he⟩ := ht.resolve_right hne
      obtain ⟨m', hm', ht'⟩ := h.mem_slots_of_mem hwf hd hm htm
      exact ⟨d, m', (h.isDir_iff hwf).2 hd, hm', ht', (h.same hd hm htm hne).hasEntry.2 he⟩

theorem entryChain (hwf : v.WellFormed) (ht : v.Live t) (hne : t ≠ s) (ho : o ≠ some t)
    (hm : v.EntryChain t m) :
    v'.EntryChain t m := by
  have hd : l.Disjoint m :=
    hwf.ownersDisjoint ho h.live (show v.LiveOwner (some t) from ht) h.owns hm
  rw [EntryChain, (h.same_of_live ht hne).firstCluster]
  exact hm.imp_right fun hc => h.extend.other hc hd

/-- The chain of a live entry or the root afterwards: that of the written entry, the one that grew,
or as before. -/
theorem owns_cases (hwf : v.WellFormed) (ho' : v'.LiveOwner o') {m' : List Nat}
    (hm' : v'.Owns o' m') :
    (o' = o ∧ m' = l ++ ext) ∨ (o' ≠ o ∧ (m' = [] ∨ (v.LiveOwner o' ∧ v.Owns o' m'))) := by
  by_cases heq : o' = o
  · subst heq
    exact .inl ⟨rfl, hm'.unique h.owns'⟩
  refine .inr ⟨heq, ?_⟩
  rcases o' with _ | t
  · obtain ⟨m, hm⟩ := hwf.root
    have hd : l.Disjoint m :=
      hwf.ownersDisjoint (Ne.symm heq) h.live (show v.LiveOwner none from trivial) h.owns hm
    have hroot : v'.rootCluster = v.rootCluster := by rw [rootCluster, rootCluster, h.extend.bpb]
    have hm' : v'.IsChain v'.rootCluster m' := hm'
    rw [hroot] at hm'
    rw [hm'.unique (h.extend.other hm hd)]
    exact .inr ⟨trivial, hm⟩
  · by_cases hne : t = s
    · subst hne
      exact .inl (EntryChain.unique hm' (h.dir (Ne.symm heq)).2.1)
    · have ht : v.Live t := ((h.live_iff hwf).1 ho').resolve_right hne
      obtain ⟨m, hm⟩ := hwf.chain t ht
      rw [EntryChain.unique hm' (h.entryChain hwf ht hne (Ne.symm heq) hm)]
      exact .inr ⟨ht, hm⟩

theorem ownersDisjoint (hwf : v.WellFormed) {o₁ o₂ : Option Slot} {l₁ l₂ : List Nat} (hne : o₁ ≠ o₂)
    (ho₁ : v'.LiveOwner o₁) (ho₂ : v'.LiveOwner o₂) (hl₁ : v'.Owns o₁ l₁)
    (hl₂ : v'.Owns o₂ l₂) : l₁.Disjoint l₂ := by
  have hfree : ∀ {m}, (∀ c ∈ m, v.fat c ≠ 0) → l.Disjoint m → (l ++ ext).Disjoint m := by
    intro m hm hd c hc hcm
    rcases List.mem_append.1 hc with hc | hc
    · exact hd hc hcm
    · exact hm c hcm (h.extend.free c hc).2
  rcases h.owns_cases hwf ho₁ hl₁ with ⟨rfl, rfl⟩ | ⟨hne₁, rfl | ⟨hv₁, hv₁'⟩⟩
  · rcases h.owns_cases hwf ho₂ hl₂ with ⟨rfl, -⟩ | ⟨-, rfl | ⟨hv₂, hv₂'⟩⟩
    · exact absurd rfl hne
    · exact List.disjoint_nil_right _
    · exact hfree hv₂'.fat_ne_zero (hwf.ownersDisjoint hne h.live hv₂ h.owns hv₂')
  · exact List.disjoint_nil_left _
  · rcases h.owns_cases hwf ho₂ hl₂ with ⟨rfl, rfl⟩ | ⟨-, rfl | ⟨hv₂, hv₂'⟩⟩
    · exact fun c hc hc' =>
        hfree hv₁'.fat_ne_zero (hwf.ownersDisjoint (Ne.symm hne) h.live hv₁ h.owns hv₁') hc' hc
    · exact List.disjoint_nil_right _
    · exact hwf.ownersDisjoint hne hv₁ hv₂ hv₁' hv₂'

theorem zeros (hwf : v.WellFormed) (hd : v.IsDir d) {m' : List Nat} (hm' : v'.IsChain d m') :
    (v'.slots m').Pairwise fun t u => v'.name t 0 = 0 → ∀ i, i < kEntrySize →
      v'.data u.cluster (u.offset + i) = 0 := by
  obtain ⟨m, hm⟩ := hwf.dirChain hd
  have hs : v'.name s 0 ≠ 0 := h.entry.1.1
  have hbefore := h.before d m' hd hm'
  have hold : (v.slots m).Pairwise fun t u => (u = s → v'.name t 0 ≠ 0) →
      v'.name t 0 = 0 → ∀ i, i < kEntrySize → v'.data u.cluster (u.offset + i) = 0 := by
    refine (hwf.zeros d m hd hm).imp_of_mem ?_
    intro t u ht hu hzero hb h0 i hi
    have hts : t ≠ s := by
      rintro rfl
      exact hs h0
    have hus : u ≠ s := fun hus => hb hus h0
    have hsame := h.same hd hm hu hus i hi
    rw [(h.same hd hm ht hts).name (by decide)] at h0
    exact hsame.trans (hzero h0 i hi)
  rcases h.dirChain hwf hd hm with hc | ⟨rfl, ho, hc⟩
  · rw [hm'.unique hc, h.slots_eq] at *
    exact hold.imp₂ (fun _ _ hz hb => hz hb) hbefore
  · rw [hm'.unique hc, h.slots_eq, slots_append] at *
    have hnew : ∀ t u, u ∈ v.slots ext → (u = s → v'.name t 0 ≠ 0) → v'.name t 0 = 0 →
        ∀ i, i < kEntrySize → v'.data u.cluster (u.offset + i) = 0 := by
      intro t u hu hb h0 i hi
      exact h.name_zero hwf ho hu (fun hus => hb hus h0) hi
    obtain ⟨hb₁, hb₂, hb₃⟩ := List.pairwise_append.1 hbefore
    refine List.pairwise_append.2 ⟨hold.imp₂ (fun _ _ hz hb => hz hb) hb₁, ?_, ?_⟩
    · exact hb₂.imp_of_mem fun _ hu hb => hnew _ _ hu hb
    · exact fun t ht u hu => hnew t u hu (hb₃ t ht u hu)

theorem wellFormed (hwf : v.WellFormed) : v'.WellFormed := by
  have hB := h.extend.bytesPerCluster
  have hroot : v'.rootCluster = v.rootCluster := by rw [rootCluster, rootCluster, h.extend.bpb]
  have howned : ∀ t, v'.Live t → ∃ m, v'.EntryChain t m ∧ v'.fileSize t ≤
    m.length * v.bytesPerCluster := by
    intro t ht
    by_cases hne : t = s
    · subst hne
      have hsize := h.size
      by_cases ho : o = some t
      · subst ho
        rw [if_pos rfl] at hsize
        exact ⟨_, h.owns', hsize⟩
      · rw [if_neg ho] at hsize
        exact ⟨[], (h.dir ho).2.1, by rwa [List.length_nil, Nat.zero_mul]⟩
    · have ht := ((h.live_iff hwf).1 ht).resolve_right hne
      obtain ⟨m, hm⟩ := hwf.chain t ht
      have hsize := hwf.size t m ht hm
      rw [← (h.same_of_live ht hne).fileSize] at hsize
      by_cases ho : o = some t
      · subst ho
        obtain rfl : m = l := EntryChain.unique hm h.owns
        refine ⟨_, h.owns', Nat.le_trans hsize (Nat.mul_le_mul_right _ ?_)⟩
        rw [List.length_append]
        omega
      · exact ⟨m, h.entryChain hwf ht hne ho hm, hsize⟩
  refine ⟨hB ▸ hwf.pos, hB ▸ hwf.aligned, ?_, ?_, ?_, ?_, ?_, ?_, ?_⟩
  · rw [NumbersOk, h.extend.numClusters]
    exact hwf.numbers
  · obtain ⟨m, hm⟩ := hwf.root
    rw [hroot]
    rcases h.dirChain hwf .root hm with hc | ⟨-, -, hc⟩
    · exact ⟨m, hc⟩
    · exact ⟨m ++ ext, hc⟩
  · intro t ht
    obtain ⟨m, hm, -⟩ := howned t ht
    exact ⟨m, hm⟩
  · intro t m' ht hm'
    obtain ⟨m, hm, hsize⟩ := howned t ht
    rwa [hm'.unique hm, hB]
  · intro t u l₁ l₂ ht hu hne hl₁ hl₂
    have htu : some t ≠ some u := fun heq => hne (Option.some.inj heq)
    exact h.ownersDisjoint hwf htu ht hu hl₁ hl₂
  · intro t l₁ l₂ ht hl₁ hl₂
    exact h.ownersDisjoint hwf (Option.some_ne_none t) ht trivial hl₁ hl₂
  · intro d m' hd hm'
    exact h.zeros hwf ((h.isDir_iff hwf).1 hd) hm'

theorem others (hwf : v.WellFormed) (ht : v.Live t) (hne : t ≠ s) : SameEntry v v' t ∧
    (¬ v.IsDirectory t → ∀ m, v.EntryChain t m → v'.EntryChain t m ∧
      v'.contents t m = v.contents t m) := by
  have hsame := h.same_of_live ht hne
  refine ⟨hsame, fun hreg m hm => ?_⟩
  have ho : o ≠ some t := by
    intro ho
    by_cases hs : o = some s
    · exact hne (Option.some.inj (ho.symm.trans hs))
    · exact hreg ((h.dir hs).2.2 t ho)
  refine ⟨h.entryChain hwf ht hne ho hm, ?_⟩
  rw [contents, contents, hsame.fileSize,
    chainBytes_congr h.extend.bytesPerCluster fun c hc o _ =>
      congrFun (h.files t m c ht hne hreg hm hc) o]

end Grows

end Volume

end Moxia.Fat
