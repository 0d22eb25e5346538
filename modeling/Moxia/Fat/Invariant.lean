import Moxia.Lib.Run
import Moxia.Fat.CreateFile
import Moxia.Fat.WriteFile
import Moxia.Fat.Small

/-!
# Runs of `CreateFile` and `Write`

Files are created and written through any number of descriptors. A call of `Write` changes one file
(`FileWritten.grows`), and so does a call of `CreateFile` whose path leads to a directory and whose
slot is clear (`CreateOk`). In runs of such calls the volume stays well-formed (`volume_invariant`).
-/

namespace Moxia.Fat

open Lib Volume FileDescriptor

variable {v v' : Volume} {fd : FileDescriptor} {s t : Slot} {l ext : List Nat} {pos pos' len : Nat}
    {buf : Nat → UInt8}

theorem FileDescriptor.FileWritten.grows {r : Written} (h : FileWritten v fd s l pos ext pos' r)
    (hwf : v.WellFormed)
    (hs : v.Live s) (hreg : ¬ v.IsDirectory s) (hl : v.EntryChain s l) :
    Grows v r.vol s (some s) l ext := by
  have hslots : ∀ m, r.vol.slots m = v.slots m := fun m => by
    rw [slots, slots, slotsPerCluster, slotsPerCluster, h.extend.bytesPerCluster]
  have hold : ∀ c, v.fat c ≠ 0 → c ∉ ext := fun c hc hmem => hc (h.extend.free c hmem).2
  have hhead : SameHead v r.vol s := fun i hi => h.entry _ (.inl (by omega))
  have hkept : ∀ d m c off, v.IsDir d → v.IsChain d m → c ∈ m → OutOf s c off →
    r.vol.data c off = v.data c off := by
    intro d m c off hd hm hc hout
    by_cases hcs : c = s.cluster
    · subst hcs
      exact h.entry off ((hout.resolve_left fun hne => hne rfl).imp (fun hlt => by omega) fun hle =>
        hle)
    · have hcl : c ∉ l := fun hcl => hwf.fileDisjoint hs hreg hl hd hm hcl hc
      rw [h.data c (by simp [hcl, hold c (hm.fat_ne_zero hc)]) hcs]
  have hchain : ∀ {d m}, v.IsDir d → v.IsChain d m → r.vol.IsChain d m := fun hd hm =>
    h.extend.other hm (hwf.fileDisjoint hs hreg hl hd hm)
  obtain ⟨d, m, hd, hm, hsm, he⟩ := id hs
  have he' : r.vol.HasEntry s := hhead.hasEntry.2 he
  refine ⟨h.extend, hs, hl, h.file.chain, fun hne => absurd rfl hne, hkept, fun hne =>
    absurd rfl hne, ?_,
    ⟨d, m, hd, hchain hd hm, by rwa [hslots]⟩, he', fun hd' => hreg (hhead.isDirectory.1 hd'),
      fun hw => hreg hw.2,
    ?_, ?_⟩
  · intro t n c ht hne htreg hn hc
    have hcl : c ∉ l := fun hcl => hwf.disjoint t s n l ht hs hne hn hl hc hcl
    have hcs : c ≠ s.cluster := by
      rintro rfl
      exact hwf.fileDisjoint ht htreg hn hd hm hc (mem_slots.1 hsm).1
    exact h.data c (by simp [hcl, hold c (hn.fat_ne_zero c hc)]) hcs
  · rw [if_pos rfl]
    exact h.size_le
  · -- in front of the entry there is no unused slot
    intro d' m' hd' hm'
    obtain ⟨m₀, hm₀⟩ := hwf.dirChain hd'
    rw [hslots, hm'.unique (hchain hd' hm₀)]
    refine (hwf.zeros d' m₀ hd' hm₀).imp_of_mem ?_
    intro t u ht _ hzero hus h0
    subst hus
    have hne : t ≠ u := by
      rintro rfl
      exact he'.1.1 h0
    have hname : r.vol.name t 0 = v.name t 0 :=
      hkept d' m₀ _ _ hd' hm₀ (mem_slots.1 ht).1 (outOf_of_ne hne (by decide))
    rw [hname] at h0
    exact he.1.1 (hzero h0 0 (by decide))

/-! ### Runs -/

/-- The path leads to a directory, the name is not that of a deleted slot, nor `.` or `..`, and the
slot that is taken, if the directory has a free one, holds no old cluster or attribute. -/
def CreateOk (v : Volume) (path : List UInt8) : Prop :=
  ∀ d, v.parentDir (splitPath path).1 = some (.ok d) →
    v.IsDir d ∧ NameOk (fileName (splitPath path).2) ∧
    ∀ l s, v.IsChain d l → v.freeSlot l = some s → v.Clear s

/-- A volume and the open descriptors. -/
structure Mounted where
  vol : Volume
  fds : Nat → Option FileDescriptor

namespace Mounted

inductive Event
  | create (path : CString)
  | openFile (i : Nat) (s : Slot)
  | write (i : Nat) (buf : Nat → UInt8) (len : Nat)

def step (st : Mounted) : Event → Option Mounted
  | .create path =>
    match st.vol.createFile path.chars with
    | some (.ok (v, _)) => some { st with vol := v }
    | _ => none
  | .openFile i s => some { st with fds := Function.update st.fds i (some { fatEntry := s }) }
  | .write i buf len => (st.fds i).bind fun fd => (fd.write st.vol buf len).map fun r =>
    { vol := r.vol, fds := Function.update st.fds i (some r.fd) }

/-- Descriptors are opened on regular files. -/
def Enabled (st : Mounted) : Event → Prop
  | .openFile _ s => st.vol.Live s ∧ ¬ st.vol.IsDirectory s
  | _ => True

def StepOk (st : Mounted) : Event → Prop
  | .create path => CreateOk st.vol path.chars
  | _ => True

def Step : Mounted → Event → Mounted → Prop :=
  Guarded (fun st e => Enabled st e ∧ StepOk st e) fun st e st' => st.step e = some st'

/-- All entries but the one in `s`, and the contents of all other files, are as they were. -/
structure OthersKept (v v' : Volume) (s : Slot) : Prop where
  live : ∀ t, v'.Live t ↔ v.Live t ∨ t = s
  entries : ∀ t, v.Live t → t ≠ s → SameEntry v v' t
  files : ∀ t l, v.Live t → t ≠ s → ¬ v.IsDirectory t → v.EntryChain t l →
    v'.EntryChain t l ∧ v'.contents t l = v.contents t l

/-- A file of its own, which is empty. -/
structure Created (v v' : Volume) (s : Slot) : Prop where
  others : OthersKept v v' s
  new : ¬ v.Live s
  regular : ¬ v'.IsDirectory s
  noCluster : v'.EntryChain s []
  empty : v'.fileSize s = 0

/-- What a call does to the volume. -/
def Right (st : Mounted) (e : Event) (st' : Mounted) : Prop :=
  match e with
  | .create path =>
      ∃ s, st.vol.createFile path.chars = some (.ok (st'.vol, s)) ∧ Created st.vol st'.vol s
  | .openFile _ _ => st'.vol = st.vol
  | .write i _ _ =>
      ∃ fd, st.fds i = some fd ∧ st.vol.Live fd.fatEntry ∧ OthersKept st.vol st'.vol fd.fatEntry

structure Inv (st : Mounted) : Prop where
  wellFormed : st.vol.WellFormed
  fds : ∀ i fd, st.fds i = some fd → st.vol.Live fd.fatEntry ∧ ¬ st.vol.IsDirectory fd.fatEntry ∧
    ∃ l pos, st.vol.EntryChain fd.fatEntry l ∧ WriterAt st.vol fd l pos

variable {st st' : Mounted}

theorem OthersKept.of_grows {o : Option Slot} (h : Grows v v' s o l ext)
    (hwf : v.WellFormed) : OthersKept v v' s :=
  ⟨fun _ => h.live_iff hwf, fun _ ht hne => (h.others hwf ht hne).1,
    fun _ _ ht hne hreg hl => (h.others hwf ht hne).2 hreg _ hl⟩

/-- A change of another file leaves the descriptors of a file as they are. -/
theorem Inv.fds_of_kept (h : Inv st) (hk : OthersKept st.vol v' s)
    (hB : v'.bytesPerCluster = st.vol.bytesPerCluster) {i : Nat} (hfd : st.fds i = some fd)
    (hne : fd.fatEntry ≠ s) :
    v'.Live fd.fatEntry ∧ ¬ v'.IsDirectory fd.fatEntry ∧
      ∃ l pos, v'.EntryChain fd.fatEntry l ∧ WriterAt v' fd l pos := by
  obtain ⟨hlive, hreg, l, pos, hl, hw⟩ := h.fds i fd hfd
  refine ⟨(hk.live _).2 (.inl hlive), fun hd => hreg ((hk.entries _ hlive hne).isDirectory.1 hd), l,
    pos,
    (hk.files _ l hlive hne hreg hl).1, ?_⟩
  have happ : WriterAt v' fd (l ++ []) pos := hw.append hB
  rwa [List.append_nil] at happ

theorem Inv.create {path : CString} (h : Inv st) (hok : CreateOk st.vol path.chars)
    (hs : st.step (.create path) = some st') : Inv st' ∧ Right st (.create path) st' := by
  rw [step] at hs
  split at hs
  swap
  · cases hs
  rename_i v' s hrun
  cases hs
  obtain ⟨d, v₁, hparent, halloc, rfl⟩ := createFile_ok hrun
  obtain ⟨hd, hname, hclear⟩ := hok d hparent
  obtain ⟨l, hl⟩ := h.wellFormed.dirChain hd
  obtain ⟨ext, ha⟩ := (allocateEntry_spec h.wellFormed hl).1 v₁ s halloc
  obtain ⟨o, ho, hg⟩ := ha.grows h.wellFormed hd hl (not_mem_filename path.noNul) hname
    (ha.clear h.wellFormed fun hf => hclear l s hl hf)
  have hk := OthersKept.of_grows hg h.wellFormed
  refine ⟨⟨hg.wellFormed h.wellFormed, fun i fd hfd => ?_⟩, s, hrun, hk, ha.not_live, hg.regular,
    (hg.dir ho).2.1,
    setEntry_fileSize⟩
  have hne : fd.fatEntry ≠ s := fun heq => ha.not_live (heq ▸ (h.fds i fd hfd).1)
  exact h.fds_of_kept hk hg.extend.bytesPerCluster hfd hne

theorem Inv.write {i : Nat} (h : Inv st) (hs : st.step (.write i buf len) = some st') :
    Inv st' ∧ Right st (.write i buf len) st' := by
  obtain ⟨fd, hfd, hs⟩ := Option.bind_eq_some_iff.1 hs
  obtain ⟨r, hrun, rfl⟩ := Option.map_eq_some_iff.1 hs
  obtain ⟨hlive, hreg, l, pos, hl, hw⟩ := h.fds i fd hfd
  obtain ⟨ext, pos', hwr⟩ := (h.wellFormed.fileAt hlive hl).write rfl hw hrun
  have hg := hwr.grows h.wellFormed hlive hreg hl
  have hk := OthersKept.of_grows hg h.wellFormed
  have hB := hg.extend.bytesPerCluster
  refine ⟨⟨hg.wellFormed h.wellFormed, fun j fd' hfd' => ?_⟩, fd, hfd, hlive, hk⟩
  have hsame : ∀ {fd'' : FileDescriptor} {p}, fd''.fatEntry = fd.fatEntry →
      WriterAt r.vol fd'' (l ++ ext) p →
      r.vol.Live fd''.fatEntry ∧ ¬ r.vol.IsDirectory fd''.fatEntry ∧
        ∃ l pos, r.vol.EntryChain fd''.fatEntry l ∧ WriterAt r.vol fd'' l pos := by
    intro fd'' p heq hw'
    rw [heq]
    exact ⟨(hk.live _).2 (.inl hlive), hg.regular, l ++ ext, p, hwr.file.chain, hw'⟩
  by_cases hj : j = i
  · subst hj
    simp only [Function.update_self, Option.some.injEq] at hfd'
    subst hfd'
    exact hsame hwr.fatEntry hwr.writer
  · simp only [Function.update_of_ne hj] at hfd'
    by_cases heq : fd'.fatEntry = fd.fatEntry
    · obtain ⟨-, -, l', p, hl', hw'⟩ := h.fds j fd' hfd'
      rw [heq] at hl'
      obtain rfl := hl'.unique hl
      exact hsame heq (hw'.append hB)
    · exact h.fds_of_kept hk hB hfd' heq

theorem Inv.openFile {i : Nat} (h : Inv st) (hlive : st.vol.Live s) (hreg : ¬ st.vol.IsDirectory s)
    (hs : st.step (.openFile i s) = some st') : Inv st' ∧ Right st (.openFile i s) st' := by
  cases hs
  refine ⟨⟨h.wellFormed, fun j fd hfd => ?_⟩, rfl⟩
  by_cases hj : j = i
  · subst hj
    simp only [Function.update_self, Option.some.injEq] at hfd
    subst hfd
    obtain ⟨l, hl⟩ := h.wellFormed.chain s hlive
    exact ⟨hlive, hreg, l, 0, hl, .fresh _ _ _⟩
  · simp only [Function.update_of_ne hj] at hfd
    exact h.fds j fd hfd

theorem Inv.step {e : Event} (h : Inv st) (hs : Step st e st') : Inv st' ∧ Right st e st' := by
  obtain ⟨⟨hen, hok⟩, hs⟩ := hs
  rcases e with path | ⟨i, s⟩ | ⟨i, buf, len⟩
  · exact h.create hok hs
  · exact h.openFile hen.1 hen.2 hs
  · exact h.write hs

/-- A volume without open descriptors. -/
def mount (v : Volume) : Mounted := { vol := v, fds := fun _ => none }

theorem Inv.run {es : List Event} (hwf : v.WellFormed) (hrun : Run Step (mount v) es st) : Inv st :=
  hrun.inv (fun _ _ _ h hs => (h.step hs).1) ⟨hwf, fun _ _ h => by cases h⟩

end Mounted

/-- In runs of such calls the volume stays well-formed, each new file is empty and of its own, and
each call leaves the other files alone. -/
theorem volume_invariant (hwf : v.WellFormed) {es : List Mounted.Event} {st : Mounted}
    (hrun : Run Mounted.Step (.mount v) es st) : st.vol.WellFormed ∧
      ∀ e st', Mounted.Step st e st' → st'.vol.WellFormed ∧ Mounted.Right st e st' := by
  have hinv := Mounted.Inv.run hwf hrun
  refine ⟨hinv.wellFormed, fun e st' hs => ?_⟩
  obtain ⟨hinv', hright⟩ := hinv.step hs
  exact ⟨hinv'.wellFormed, hright⟩

/-- `b` -/
def pathB : CString := ⟨[0x62], by decide⟩

/-- A second file is created. -/
theorem volume_invariant_oneFile : ∃ st, Run Mounted.Step (.mount oneFile) [.create pathB] st ∧
    st.vol.WellFormed ∧
    ∀ e st', Mounted.Step st e st' → st'.vol.WellFormed ∧ Mounted.Right st e st' := by
  obtain ⟨st, hst⟩ : ∃ st, (Mounted.mount oneFile).step (.create pathB) = some st :=
    Option.isSome_iff_exists.1 (by decide +kernel)
  have hok : CreateOk oneFile pathB.chars := by
    intro d hd
    obtain rfl : 2 = d := Except.ok.inj (Option.some.inj hd)
    refine ⟨.root, by decide, fun l s hl hs => ?_⟩
    rw [hl.unique oneFile_root] at hs
    obtain rfl : ⟨2, 1⟩ = s := Option.some.inj ((by decide +kernel : _ = _).symm.trans hs)
    decide +kernel
  have hrun : Run Mounted.Step (.mount oneFile) [.create pathB] st := .single ⟨⟨trivial, hok⟩, hst⟩
  exact ⟨st, hrun, volume_invariant oneFile_wellFormed hrun⟩

/-- The file `A`, and a deleted slot in which its cluster is left over. -/
def deletedFile : Volume :=
  small 4 [0, 0, kEndOfClusterchain, kEndOfClusterchain]
    (entryBytes nameA 0x20 3 3 ++ entryBytes (0xe5 :: nameA.tail) 0x20 3 3)

theorem deletedFile_wellFormed : deletedFile.WellFormed := by
  have hone : ∀ i, i < 16 → (deletedFile.HasEntry ⟨2, i⟩ ↔ i = 0) := by decide +kernel
  refine small_wellFormed (k := 2) (j := 0) (m := [3]) ?_ ?_ ?_ ?_ ?_ ?_
  iterate 5 decide +kernel
  intro i hi he
  obtain rfl := (hone i hi).1 he
  refine ⟨rfl, ?_, .inr (isChain_singleton ?_ ?_), ?_, ?_⟩ <;> decide +kernel

/-- The new file takes the deleted slot, and with it the cluster of `A`. -/
theorem not_volume_invariant : ¬ ∀ (v : Volume) (es : List Mounted.Event) (st : Mounted),
    v.WellFormed →
    Run (Guarded Mounted.Enabled fun st e st' => st.step e = some st') (.mount v) es st →
      st.vol.WellFormed := by
  intro hall
  have hany : (((Mounted.mount deletedFile).step (.create pathB)).any fun st =>
      st.vol.rootCluster = 2 ∧ 1 < st.vol.slotsPerCluster ∧
      (∀ c, c < 4 → 2 ≤ c → isEndOfClusterchain (st.vol.fat c) = true ∧ st.vol.InRange c) ∧
      st.vol.HasEntry ⟨2, 0⟩ ∧ st.vol.HasEntry ⟨2, 1⟩ ∧
      st.vol.firstCluster ⟨2, 0⟩ = 3 ∧ st.vol.firstCluster ⟨2, 1⟩ = 3) = true := by decide +kernel
  obtain ⟨st, hst, h⟩ := (Option.any_eq_true _ _).1 hany
  obtain ⟨hr, hb, hend, h₀, h₁, hf₀, hf₁⟩ := of_decide_eq_true h
  have hen : Mounted.Enabled (.mount deletedFile) (.create pathB) := trivial
  have hwf := hall _ _ st deletedFile_wellFormed (.single ⟨hen, hst⟩)
  have hchain : ∀ c, c < 4 → 2 ≤ c → st.vol.IsChain c [c] := fun c hlt hle =>
    isChain_singleton (hend c hlt hle).1 (hend c hlt hle).2
  have hlive : ∀ i, i < 2 → st.vol.HasEntry ⟨2, i⟩ → st.vol.Live ⟨2, i⟩ := fun i hi he =>
    ⟨2, [2], hr ▸ .root, hchain 2 (by decide) (by decide),
      mem_slots.2 ⟨List.mem_singleton_self 2, by show i < _; omega⟩, he⟩
  have h3 := hchain 3 (by decide) (by decide)
  exact hwf.disjoint ⟨2, 0⟩ ⟨2, 1⟩ [3] [3] (hlive 0 (by decide) h₀)
    (hlive 1 (by decide) h₁) (by decide)
    (.inr (hf₀ ▸ h3)) (.inr (hf₁ ▸ h3)) (List.mem_singleton_self 3) (List.mem_singleton_self 3)

end Moxia.Fat
