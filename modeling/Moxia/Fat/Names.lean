import Moxia.Fat.FindCreated
import Moxia.Fat.Invariant
import Moxia.Fat.OutOfSpace
import Mathlib.Data.List.Find

/-!
# A tree of names

Of the directories of a volume, `FindFile` sees no more than which entry a name has in which
directory, and which directory an entry leads to (`Names`). On a well-formed volume a path comes to
its end if its elements are short and none of them is the name of a deleted entry; it leads where
the names say (`Named.findFile`). `Write` changes no name (`Named.write`), and `CreateFile` adds one
(`Named.create`).
-/

namespace Moxia.Fat

open Lib Volume

/-- The elements fit into `path_elem`, and none of them is the name of a deleted entry. -/
structure Walkable (path : List UInt8) : Prop where
  fits : ∀ e ∈ elems path, e.name.length ≤ kMaxPathElem
  noDeleted : NoDeleted (elems path)

/-- Directories are known by their clusters. -/
structure Names where
  root : Nat
  entry : Nat → List UInt8 → Option Slot
  /-- The directory an entry leads to. -/
  dir : Slot → Option Nat

instance (name name' : List UInt8) : Decidable (Same83 name name') :=
  inferInstanceAs (Decidable (∀ i, i < 11 → _))

namespace Names

def start (N : Names) (e : Elem) (d : Nat) : Nat := if e.fromRoot then N.root else d

/-- The walk along the elements of a path, the last of which is followed by a slash or not. -/
def resolve (N : Names) (post : Bool) : Nat → List Elem → Option Slot × Bool
  | _, [] => (none, post)
  | d, [e] => (N.entry (N.start e d) e.name, post)
  | d, e :: e' :: es =>
    match N.entry (N.start e d) e.name with
    | none => (none, true)
    | some s =>
      match N.dir s with
      | none => (some s, true)
      | some d' => N.resolve post d' (e' :: es)

def find (N : Names) (path : List UInt8) : Option Slot × Bool :=
  N.resolve (postSlash path) N.root (elems path)

/-- The directory for a new file. -/
def IsParent (N : Names) (parent : List UInt8) (d : Nat) : Prop :=
  (parent = [] ∧ d = N.root) ∨ (parent ≠ [] ∧ ∃ t b, N.find parent = (some t, b) ∧ N.dir t = some d)

/-- A file with a new name. -/
def add (N : Names) (d : Nat) (name : List UInt8) (s : Slot) : Names where
  root := N.root
  entry d' name' := if d' = d ∧ Same83 name' name then some s else N.entry d' name'
  dir := Function.update N.dir s none

variable {N : Names} {s t : Slot} {d : Nat} {post b b' : Bool} {e g : Elem}

/-- If a path leads to something and the path behind it does not, then the first one leads to a
directory without the name. -/
theorem resolve_append : ∀ {es d}, es ≠ [] → N.resolve b d es = (some t, b') →
    (N.resolve post d (es ++ [g])).1 = none →
    ∃ d', N.dir t = some d' ∧ N.entry (N.start g d') g.name = none := by
  intro es
  induction es with
  | nil => exact fun h => absurd rfl h
  | cons e es ih =>
    intro d _ hparent hpath
    rcases es with _ | ⟨e', es⟩
    · rw [resolve] at hparent
      rw [List.cons_append, List.nil_append, resolve, (Prod.mk.inj hparent).1] at hpath
      dsimp only at hpath
      rcases hdir : N.dir t with _ | d' <;> rw [hdir] at hpath
      · cases hpath
      · exact ⟨d', rfl, hpath⟩
    · rw [resolve] at hparent
      rw [List.cons_append, List.cons_append, resolve] at hpath
      rcases hentry : N.entry (N.start e d) e.name with _ | u <;> rw [hentry] at hparent hpath
      · cases hparent
      dsimp only at hparent hpath
      rcases hdir : N.dir u with _ | d' <;> rw [hdir] at hparent hpath
      · cases hpath
      · exact ih (List.cons_ne_nil _ _) hparent hpath

end Names

namespace Volume

variable {v v' v₁ : Volume} {s t u : Slot} {d dir : Nat} {l m ext : List Nat}
    {name filename : List UInt8}

/-- The directory that the walk goes on in. -/
def dirOf (v : Volume) (s : Slot) : Option Nat :=
  if v.attr s = kDirectory then some (if v.firstCluster s = 0 then v.rootCluster else
    v.firstCluster s) else none

/-- An entry of one of the directories. -/
def Listed (v : Volume) (s : Slot) : Prop :=
  v.InUse s ∧ ∃ d l, v.IsDir d ∧ v.IsChain d l ∧ s ∈ v.slots l

theorem Listed.of_lookup (hd : v.IsDir d) (hl : v.IsChain d l) (hdel : name83 name 0 ≠ 0xe5)
    (h : v.lookup l name = some s) :
    v.Listed s := by
  obtain ⟨hs, h0, heq⟩ := lookup_eq_some h
  exact ⟨⟨h0, by rwa [heq 0 (by decide)]⟩, d, l, hd, hl, hs⟩

theorem lookup_congr (hslots : v'.slots l = v.slots l) (hname : ∀ t ∈ v.slots l, ∀ i, i < 11 →
    v'.name t i = v.name t i)
    (name : List UInt8) : v'.lookup l name = v.lookup l name := by
  have hstops : ∀ t ∈ v.slots l, v'.stops name t = v.stops name t := fun t ht => by
    have heq : v'.nameIsEqual t name ↔ v.nameIsEqual t name :=
      forall₂_congr fun i hi => by rw [hname t ht i hi]
    simp only [stops, hname t ht 0 (by decide), heq]
  rw [lookup, lookup, hslots, List.find?_congr hstops]
  rcases hfind : (v.slots l).find? (v.stops name) with _ | t
  · rfl
  · rw [Option.bind_some, Option.bind_some, hname t (List.mem_of_find?_eq_some hfind) 0 (by decide)]

theorem SameHead.inUse (h : SameHead v v' s) : v'.InUse s ↔ v.InUse s := by
  rw [InUse, InUse, h.name (by decide)]

/-- Behind the first unused slot there are no names. -/
theorem lookup_ne_none (hwf : v.WellFormed) (hd : v.IsDir d) (hl : v.IsChain d l)
    (hu : u ∈ v.slots l) (h0 : v.name u 0 ≠ 0)
    (heq : v.nameIsEqual u name) : v.lookup l name ≠ none := by
  have hstop : v.stops name u = true := decide_eq_true (.inr heq)
  obtain ⟨t, ht⟩ := Option.isSome_iff_exists.1 (List.find?_isSome.2 ⟨u, hu, hstop⟩)
  obtain ⟨-, pre, post, hsplit, hpre⟩ := List.find?_eq_some_iff_append.1 ht
  rw [lookup, ht, Option.bind_some]
  split
  · rename_i ht0
    have hzeros := hwf.zeros d l hd hl
    rw [hsplit] at hu hzeros
    rcases List.mem_append.1 hu with hu | hu
    · have := hpre u hu
      rw [hstop] at this
      cases this
    rcases List.mem_cons.1 hu with rfl | hu
    · exact absurd ht0 h0
    · exact absurd ((List.pairwise_cons.1 (List.pairwise_append.1 hzeros).2.1).1 u hu ht0 0
        (by decide)) h0
  · exact Option.some_ne_none _

end Volume

/-- The names of the volume. -/
structure Named (N : Names) (v : Volume) : Prop where
  root : N.root = v.rootCluster
  entry : ∀ d l name, v.IsDir d → v.IsChain d l → name83 name 0 ≠ 0xe5 →
    N.entry d name = v.lookup l name
  dir : ∀ s, v.Listed s → N.dir s = v.dirOf s

variable {N : Names} {v v' v₁ : Volume} {s t : Slot} {o : Option Slot} {d dir : Nat}
  {l m ext : List Nat}
  {path filename : List UInt8}

def Volume.names (v : Volume) : Names where
  root := v.rootCluster
  entry d name := (v.scanDir name d (v.numClusters + 1)).join
  dir := v.dirOf

theorem Volume.named (hwf : v.WellFormed) : Named v.names v where
  root := rfl
  entry d l name _ hl _ := by
    show (v.scanDir name d (v.numClusters + 1)).join = _
    rw [scanDir_spec hl hwf.numbers name hl.chain.getElem_zero (Nat.lt_succ_of_le hl.length_le),
      List.drop_zero, Option.join_some]
  dir _ _ := rfl

namespace Named

theorem resolve (h : Named N v) (hwf : v.WellFormed) {post : Bool} : ∀ {es dir}, es ≠ [] →
    dir = 0 ∨ v.IsDir dir →
    (∀ e ∈ es, e.name.length ≤ kMaxPathElem) → NoDeleted es →
    v.resolve post dir es = some (N.resolve post (if dir = 0 then v.rootCluster else dir) es) ∧
      ∀ t, (N.resolve post (if dir = 0 then v.rootCluster else dir) es).1 = some t →
        v.Listed t := by
  intro es
  induction es with
  | nil => exact fun h => absurd rfl h
  | cons e es ih =>
    intro dir _ hdir hfits hdel
    have hsd := startDir_isDir hdir e
    obtain ⟨m, hm⟩ := hwf.dirChain hsd
    have hname := hdel e List.mem_cons_self
    have hstart : N.start e (if dir = 0 then v.rootCluster else dir) = v.startDir e dir := by
      rw [Names.start, startDir, h.root]
      by_cases hroot : e.fromRoot = true
      · rw [if_pos hroot, if_pos (.inl hroot)]
      · rw [if_neg hroot]
        exact if_congr (by rw [or_iff_right hroot]) rfl rfl
    have hentry : N.entry (N.start e (if dir = 0 then v.rootCluster else dir)) e.name =
      v.lookup m e.name := by
      rw [hstart]
      exact h.entry _ _ _ hsd hm hname
    have hscan := scanElem_eq hwf.numbers hm (hfits e List.mem_cons_self)
    rcases es with _ | ⟨e', es⟩
    · rw [Volume.resolve, Names.resolve, hscan, hentry]
      exact ⟨rfl, fun t ht => .of_lookup hsd hm hname ht⟩
    rw [Volume.resolve, Names.resolve, hscan, hentry, Option.bind_some]
    rcases hlook : v.lookup m e.name with _ | s
    · exact ⟨rfl, fun t ht => by cases ht⟩
    have hlisted : v.Listed s := .of_lookup hsd hm hname hlook
    dsimp only
    rw [h.dir s hlisted, dirOf]
    by_cases ha : v.attr s = kDirectory
    · rw [if_pos ha, if_pos ha]
      exact ih (List.cons_ne_nil _ _) (isDir_of_live (live_of_lookup hsd hm hlook hname ha))
        (fun e he => hfits e (List.mem_cons_of_mem _ he)) fun e he =>
          hdel e (List.mem_cons_of_mem _ he)
    · rw [if_neg ha, if_neg ha]
      exact ⟨rfl, fun t ht => Option.some.inj ht ▸ hlisted⟩

theorem findFile (h : Named N v) (hwf : v.WellFormed) (hpath : Walkable path) :
    v.findFile path = some (N.find path) ∧ ∀ t, (N.find path).1 = some t → v.Listed t := by
  have hres : _ ∧ ∀ t, (N.resolve (postSlash path) _ (elems path)).1 = some t → v.Listed t :=
    h.resolve hwf (elems_ne_nil path) (.inl rfl) hpath.fits hpath.noDeleted
  rw [if_pos rfl, ← h.root] at hres
  rwa [findFile_eq]

end Named

/-! ### Paths of new files -/

theorem Walkable.parent (h : Walkable path) (hf : slash ∈ path → (splitPath path).2 ≠ [])
    (hne : (splitPath path).1 ≠ []) :
    Walkable (splitPath path).1 := by
  have helems := ((elems_splitPath hf).2.resolve_left fun hroot => hne hroot.1).2
  exact ⟨fun e he => h.fits e (helems ▸ List.mem_append_left _ he), fun e he =>
    h.noDeleted e (helems ▸ List.mem_append_left _ he)⟩

theorem Walkable.filename_noDeleted (h : Walkable path)
    (hf : slash ∈ path → (splitPath path).2 ≠ []) :
    name83 (splitPath path).2 0 ≠ 0xe5 := by
  obtain ⟨-, ⟨-, b, helems⟩ | ⟨-, helems⟩⟩ := elems_splitPath hf
  · exact h.noDeleted ⟨b, _⟩ (helems ▸ List.mem_singleton_self _)
  · exact h.noDeleted ⟨_, _⟩ (helems ▸ List.mem_append_right _ (List.mem_singleton_self _))

theorem Walkable.exists_parentDir (h : Walkable path) (hwf : v.WellFormed)
    (hf : slash ∈ path → (splitPath path).2 ≠ []) :
    ∃ r, v.parentDir (splitPath path).1 = some r := by
  rw [parentDir]
  split
  · exact ⟨_, rfl⟩
  · rename_i hne
    rw [((Volume.named hwf).findFile hwf (h.parent hf hne)).1]
    exact ⟨_, rfl⟩

theorem createFile_isDirectory (h : slash ∈ path ∧ (splitPath path).2 = []) :
    v.createFile path = some (.error .kIsDirectory) := by
  rw [createFile]
  exact if_pos h

theorem createFile_of_filename (hf : slash ∈ path → (splitPath path).2 ≠ []) :
    v.createFile path = (v.parentDir (splitPath path).1).bind fun
      | .error e => some (.error e)
      | .ok d => (v.newFile d (splitPath path).2).map .ok := by
  rw [createFile]
  rcases hsplit : splitPath path with ⟨parent, filename⟩
  rw [hsplit] at hf
  exact if_neg fun hdir => hf hdir.1 hdir.2

theorem createFile_ne_error {err : Fat.Error} (hf : slash ∈ path → (splitPath path).2 ≠ [])
    (h : v.parentDir (splitPath path).1 = some (.ok d)) :
    v.createFile path ≠ some (.error err) := by
  intro hrun
  rw [createFile_of_filename hf, h] at hrun
  obtain ⟨_, -, hok⟩ := Option.map_eq_some_iff.1 hrun
  cases hok

/-- There is a slot for the file, or a cluster to append to its directory. -/
def EntryFits (v : Volume) (path : List UInt8) : Prop :=
  (slash ∈ path → (splitPath path).2 ≠ []) → ∀ d, v.parentDir (splitPath path).1 = some (.ok d) →
    ∃ l, Room v d l

theorem exists_createFile (hwf : v.WellFormed) {path : CString} (hpath : Walkable path.chars)
    (hroom : EntryFits v path.chars) :
    ∃ r, v.createFile path.chars = some r := by
  refine Option.ne_none_iff_exists'.1 ((createFile_ne_none_iff hwf.numbers path).2 ?_)
  by_cases hdir : slash ∈ path.chars ∧ (splitPath path.chars).2 = []
  · exact .inl hdir
  have hf : slash ∈ path.chars → (splitPath path.chars).2 ≠ [] := fun hmem hnil => hdir ⟨hmem, hnil⟩
  obtain ⟨e | d, hparent⟩ := hpath.exists_parentDir hwf hf
  · exact .inr (.inl ⟨e, hparent⟩)
  · obtain ⟨l, hl⟩ := hroom hf d hparent
    exact .inr (.inr ⟨d, l, hparent, hl⟩)

namespace Named

/-- What has not been found is not in the directory either that it is to be created in. -/
theorem isParent (h : Named N v) (hwf : v.WellFormed) (hpath : Walkable path)
    (hf : slash ∈ path → (splitPath path).2 ≠ [])
    (hnull : (N.find path).1 = none) (hpost : postSlash (splitPath path).1 = false) (hd : v.IsDir d)
    (hparent : v.parentDir (splitPath path).1 = some (.ok d)) :
    N.IsParent (splitPath path).1 d ∧ N.entry d (splitPath path).2 = none := by
  rw [Names.find] at hnull
  rcases (elems_splitPath hf).2 with ⟨hroot, b, helems⟩ | ⟨hne, helems⟩
  · rw [hroot] at hparent
    cases hparent
    rw [helems, Names.resolve] at hnull
    have hstart : N.start ⟨b, (splitPath path).2⟩ N.root = N.root := ite_self _
    exact ⟨.inl ⟨hroot, h.root.symm⟩, by rwa [← h.root, ← hstart]⟩
  · obtain ⟨t, b, hfind, rfl⟩ := parentDir_eq hne hparent
    obtain ⟨hfind', hlisted⟩ := h.findFile hwf (hpath.parent hf hne)
    have hN := Option.some.inj (hfind'.symm.trans hfind)
    rw [helems] at hnull
    obtain ⟨d', hdir, hentry⟩ := Names.resolve_append (elems_ne_nil _) hN hnull
    rw [Names.start, hpost, if_neg Bool.false_ne_true] at hentry
    have hdirOf := (h.dir t (hlisted t (congrArg Prod.fst hN))).symm.trans hdir
    obtain ⟨m, hm⟩ := hwf.dirChain hd
    have h0 : v.firstCluster t ≠ 0 := fun h0 => absurd (h0 ▸ hm.inRange_head.1) (by decide)
    by_cases hattr : v.attr t = kDirectory
    · rw [dirOf, if_pos hattr, if_neg h0] at hdirOf
      cases hdirOf
      exact ⟨.inr ⟨hne, t, b, hN, hdir⟩, hentry⟩
    · rw [dirOf, if_neg hattr] at hdirOf
      cases hdirOf

theorem noParent (h : Named N v) (hwf : v.WellFormed) (hpath : Walkable path)
    (hf : slash ∈ path → (splitPath path).2 ≠ [])
    {err : Fat.Error} (hparent : v.parentDir (splitPath path).1 = some (.error err)) :
    err = .kNoSuchDirectory ∧ (splitPath path).1 ≠ [] ∧ (N.find (splitPath path).1).1 = none := by
  rw [parentDir] at hparent
  split at hparent
  · cases hparent
  rename_i hne
  rw [(h.findFile hwf (hpath.parent hf hne)).1] at hparent
  rcases hfind : N.find (splitPath path).1 with ⟨_ | t, b⟩ <;> rw [hfind] at hparent
  · cases hparent
    exact ⟨rfl, hne, rfl⟩
  · cases hparent

theorem write (h : Named N v) (hwf : v.WellFormed) (hg : Grows v v' s (some s) l ext)
    (hhead : SameHead v v' s) : Named N v' := by
  have hchain : ∀ {d m}, v.IsDir d → v.IsChain d m → v'.IsChain d m := fun hd hm =>
    (hg.dirChain hwf hd hm).resolve_right fun hown => hown.2.1 rfl
  have hsame : ∀ {d m t}, v.IsDir d → v.IsChain d m → t ∈ v.slots m → SameHead v v' t :=
    fun {d m t} hd hm ht => by
    by_cases hne : t = s
    · exact hne ▸ hhead
    · exact (hg.same hd hm ht hne).head
  have hroot : v'.rootCluster = v.rootCluster := congrArg (·.rootCluster.toNat) hg.extend.bpb
  refine ⟨h.root.trans hroot.symm, fun d m' name hd hm' hdel => ?_, fun t ht => ?_⟩
  · have hd := (hg.isDir_iff hwf).1 hd
    obtain ⟨m, hm⟩ := hwf.dirChain hd
    rw [hm'.unique (hchain hd hm), lookup_congr hg.slots_eq fun t ht i hi =>
      (hsame hd hm ht).name hi]
    exact h.entry d m name hd hm hdel
  · obtain ⟨huse, d, m', hd, hm', htm⟩ := ht
    have hd := (hg.isDir_iff hwf).1 hd
    obtain ⟨m, hm⟩ := hwf.dirChain hd
    rw [hm'.unique (hchain hd hm), hg.slots_eq] at htm
    have hhead' := hsame hd hm htm
    rw [h.dir t ⟨hhead'.inUse.1 huse, d, m, hd, hm, htm⟩, dirOf, dirOf, hhead'.attr, hroot]
    by_cases hne : t = s
    · -- the file is no directory, whatever its clusters
      have ha : v.attr t ≠ kDirectory :=
        fun ha => hg.regular (by rw [← hne, IsDirectory, hhead'.attr, ha]; decide)
      rw [if_neg ha, if_neg ha]
    · rw [(hg.same hd hm htm hne).firstCluster]

/-- In a directory the new file is found by its name, and everything else as before. -/
theorem lookup_setEntry (hwf : v.WellFormed) (hd : v.IsDir d) (hl : v.IsChain d l)
    (ha : Allocated v l v₁ s ext)
    (hg : Grows v (v₁.setEntry s filename) s o l ext) (ho : o ≠ some s) (hnul : 0 ∉ filename)
    (hnone : v.lookup l filename = none)
    (hsame : ∀ i, i < 11 → fileName filename i = name83 filename i) {name : List UInt8}
    (hdel : name83 name 0 ≠ 0xe5) :
    (v₁.setEntry s filename).lookup (l ++ ext) name = if Same83 name filename then some s else
      v.lookup l name := by
  by_cases hname : Same83 name filename
  · rw [if_pos hname, lookup_same83 hname, ha.lookup_new hl hnul hnone hsame]
  rw [if_neg hname]
  have hchain := hg.extend.chain hl
  rcases hlook : v.lookup l name with _ | u
  · -- nothing of that name was there, and the new file has another one
    refine Option.eq_none_iff_forall_ne_some.2 fun u hu => ?_
    obtain ⟨hmem, h0, heq⟩ := lookup_eq_some hu
    have hne : u ≠ s := by
      rintro rfl
      exact hname fun i hi => by rw [← heq i hi, setEntry_name hi, hsame i hi]
    rw [hg.slots_eq, slots_append] at hmem
    rcases List.mem_append.1 hmem with hmem | hmem
    · have hkept := hg.same hd hl hmem hne
      exact lookup_ne_none hwf hd hl hmem (by rwa [← hkept.name (by decide)])
        (hkept.nameIsEqual.1 heq) hlook
    · exact h0 (hg.name_zero hwf ho hmem hne (by decide))
  · obtain ⟨m', hm', hfound, -⟩ := ha.finds hwf hd hl hnul hnone hsame d l name u hd hl hdel hlook
    rwa [hm'.unique hchain] at hfound

theorem create (h : Named N v) (hwf : v.WellFormed) (hd : v.IsDir d) (hl : v.IsChain d l)
    (ha : Allocated v l v₁ s ext)
    (hg : Grows v (v₁.setEntry s filename) s o l ext) (ho : o ≠ some s) (hnul : 0 ∉ filename)
    (hnone : v.lookup l filename = none)
    (hsame : ∀ i, i < 11 → fileName filename i = name83 filename i) :
    Named (N.add d filename s) (v₁.setEntry s filename) := by
  have hroot : (v₁.setEntry s filename).rootCluster = v.rootCluster :=
    congrArg (·.rootCluster.toNat) hg.extend.bpb
  refine ⟨h.root.trans hroot.symm, fun d' m' name hd' hm' hdel => ?_, fun t ht => ?_⟩
  · have hd' := (hg.isDir_iff hwf).1 hd'
    obtain ⟨m, hm⟩ := hwf.dirChain hd'
    show (if d' = d ∧ Same83 name filename then some s else N.entry d' name) = _
    rw [h.entry d' m name hd' hm hdel]
    rcases ha.dirChain hwf hd hl hd' hm filename with ⟨rfl, hc⟩ | ⟨hns, hdisj, hc⟩
    · have hdd : d' = d := by
        obtain ⟨_, hm₁⟩ := hm.chain.exists_cons
        obtain ⟨_, hm₂⟩ := hl.chain.exists_cons
        exact (List.cons.inj (hm₁.symm.trans hm₂)).1
      rw [hm'.unique hc, lookup_setEntry hwf hd hl ha hg ho hnul hnone hsame hdel]
      exact if_congr (and_iff_right hdd) rfl rfl
    · have hdd : d' ≠ d := by
        rintro rfl
        obtain ⟨_, hm₁⟩ := hm.chain.exists_cons
        rw [hl.unique hm, hm₁] at hdisj
        exact hdisj List.mem_cons_self List.mem_cons_self
      rw [if_neg fun h => hdd h.1, hm'.unique hc]
      refine (lookup_congr hg.slots_eq (fun t ht i hi => ?_) name).symm
      exact (hg.same hd' hm ht fun heq => hns (heq ▸ ht)).name hi
  · show Function.update N.dir s none t = _
    by_cases hne : t = s
    · subst hne
      have hattr : (v₁.setEntry t filename).attr t ≠ kDirectory :=
        fun hattr => hg.regular (by rw [IsDirectory, hattr]; decide)
      rw [Function.update_self, dirOf, if_neg hattr]
    · obtain ⟨huse, d', m', hd', hm', htm⟩ := ht
      have hd' := (hg.isDir_iff hwf).1 hd'
      obtain ⟨m, hm, htm⟩ := ((hg.slot_cases hwf hd' hm' htm).resolve_left hne).resolve_right huse.1
      have hkept := hg.same hd' hm htm hne
      rw [Function.update_of_ne hne, h.dir t ⟨hkept.head.inUse.1 huse, d', m, hd', hm, htm⟩, dirOf,
        dirOf, hkept.head.attr,
        hkept.firstCluster, hroot]

end Named

end Moxia.Fat
