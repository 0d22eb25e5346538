import Moxia.Fat.CreateFile
import Moxia.Fat.Paths
import Moxia.Fat.Small

/-!
# Finding a created file

`FindFile` finds a file `CreateFile` has made just before if both make the same name of its path,
and the path leads both to one directory (`PathOk`). The walk to this directory goes as before,
since the new entry comes before no entry of its own name.
-/

namespace Moxia.Fat

open Lib

namespace Volume

variable {v w v₁ : Volume} {s t u : Slot} {d f dir : Nat} {l m ext : List Nat}
    {name filename : List UInt8}

/-! ### Looking up a name in a directory -/

/-- Where the search for a name ends: at the name or at the first unused slot. -/
def stops (v : Volume) (name : List UInt8) (s : Slot) : Bool :=
  v.name s 0 = 0 ∨ v.nameIsEqual s name

/-- The entry of a name in the directory with the clusters `l`. -/
def lookup (v : Volume) (l : List Nat) (name : List UInt8) : Option Slot :=
  ((v.slots l).find? (v.stops name)).bind fun s => if v.name s 0 = 0 then none else some s

/-- Names are the same if their eleven bytes in an entry are. -/
def Same83 (name name' : List UInt8) : Prop := ∀ i, i < 11 → name83 name i = name83 name' i

theorem lookup_same83 (h : Same83 name filename) : v.lookup l name = v.lookup l filename := by
  have hstops : v.stops name = v.stops filename := by
    funext t
    have : v.nameIsEqual t name ↔ v.nameIsEqual t filename :=
      forall₂_congr fun i hi => by rw [h i hi]
    simp only [stops, this]
  rw [lookup, lookup, hstops]

theorem stops_eq_false_iff : v.stops name s = false ↔ v.name s 0 ≠ 0 ∧ ¬ v.nameIsEqual s name := by
  simp [stops]

theorem scanDir_spec (h : v.IsChain f l) (hN : v.NumbersOk) (name : List UInt8) :
    ∀ {fuel i c}, l[i]? = some c →
    l.length < fuel + i → v.scanDir name c fuel = some (v.lookup (l.drop i) name) := by
  intro fuel
  induction fuel with
  | zero =>
    intro i c hi hlen
    have := (List.getElem?_eq_some_iff.1 hi).1
    omega
  | succ fuel ih =>
    intro i c hi hlen
    obtain ⟨hlt, rfl⟩ := List.getElem?_eq_some_iff.1 hi
    have hmem := List.mem_of_getElem? hi
    have hstops : (fun s => decide (v.name s 0 = 0 ∨ v.nameIsEqual s name)) = v.stops name := rfl
    rw [scanDir, if_neg (h.ne_endMark hN hmem), if_pos (h.inRange _ hmem), findSlot_eq, lookup,
      slots_drop hlt,
      List.find?_append, hstops]
    rcases hfind : (v.slots [l[i]]).find? (v.stops name) with _ | s
    · show ((v.nextCluster l[i]).bind _) = _
      rw [h.nextCluster hi, Option.bind_some, Option.none_or]
      by_cases hlast : i + 1 < l.length
      · have hnext : l[i + 1]? = some l[i + 1] := List.getElem?_eq_getElem hlast
        rw [hnext, Option.getD_some, ih hnext (by omega)]
        rfl
      · obtain ⟨fuel, rfl⟩ : ∃ n, fuel = n + 1 := ⟨fuel - 1, by omega⟩
        rw [List.getElem?_eq_none (by omega), Option.getD_none, List.drop_eq_nil_of_le (by omega),
          scanDir, if_pos rfl]
        rfl
    · rfl

theorem lookup_eq_some (h : v.lookup l name = some s) :
    s ∈ v.slots l ∧ v.name s 0 ≠ 0 ∧ v.nameIsEqual s name := by
  obtain ⟨t, ht, h⟩ := Option.bind_eq_some_iff.1 h
  have hstop := List.find?_some ht
  split at h
  · cases h
  · rename_i hne
    cases h
    refine ⟨List.mem_of_find?_eq_some ht, hne, ?_⟩
    rw [stops, decide_eq_true_eq] at hstop
    exact hstop.resolve_left hne

/-- The first entry of the name, where no unused slot comes before it. -/
theorem lookup_of_split {pre post : List Slot} (hsplit : v.slots l = pre ++ s :: post)
    (hpre : ∀ t ∈ pre, v.name t 0 ≠ 0 ∧ ¬ v.nameIsEqual t name) (h0 : v.name s 0 ≠ 0)
    (hs : v.nameIsEqual s name) :
    v.lookup l name = some s := by
  have hfind : (v.slots l).find? (v.stops name) = some s := by
    refine List.find?_eq_some_iff_append.2 ⟨?_, pre, post, hsplit, fun t ht => ?_⟩
    · rw [stops, decide_eq_true_eq]
      exact .inr hs
    · rw [stops_eq_false_iff.2 (hpre t ht)]
      rfl
  rw [lookup, hfind, Option.bind_some, if_neg h0]

theorem split_of_lookup (h : v.lookup l name = some s) :
    ∃ pre post, v.slots l = pre ++ s :: post ∧ ∀ t ∈ pre, v.name t 0 ≠ 0 ∧
      ¬ v.nameIsEqual t name := by
  obtain ⟨t, ht, h⟩ := Option.bind_eq_some_iff.1 h
  split at h
  · cases h
  · cases h
    obtain ⟨-, pre, post, hsplit, hpre⟩ := List.find?_eq_some_iff_append.1 ht
    exact ⟨pre, post, hsplit, fun t ht => stops_eq_false_iff.1 (by simpa using hpre t ht)⟩

theorem not_nameIsEqual_of_lookup {pre : List Slot} (h : v.lookup l name = none)
    (hpre : pre <+: v.slots l)
    (huse : ∀ t ∈ pre, v.InUse t) (ht : t ∈ pre) : ¬ v.nameIsEqual t name := by
  intro heq
  obtain ⟨post, hpost⟩ := hpre
  obtain ⟨u, hu⟩ : ∃ u, pre.find? (v.stops name) = some u := by
    refine Option.isSome_iff_exists.1 (List.find?_isSome.2 ⟨t, ht, ?_⟩)
    rw [stops, decide_eq_true_eq]
    exact .inr heq
  have h0 := (huse u (List.mem_of_find?_eq_some hu)).1
  rw [lookup, ← hpost, List.find?_append, hu, Option.some_or, Option.bind_some, if_neg h0] at h
  cases h

theorem SameEntry.nameIsEqual (h : SameEntry v w s) : w.nameIsEqual s name ↔ v.nameIsEqual s name :=
  forall₂_congr fun i hi => by rw [h.name hi]

theorem lookup_of_same (h : v.lookup l name = some t) (hpre : v.slots l <+: w.slots m) (hne : t ≠ s)
    (hsame : ∀ u ∈ v.slots l, u ≠ s → SameEntry v w u)
    (hs : s ∈ v.slots l → w.name s 0 ≠ 0 ∧ ¬ w.nameIsEqual s name) : w.lookup m name = some t := by
  obtain ⟨pre, post, hsplit, hpre'⟩ := split_of_lookup h
  obtain ⟨ht, h0, heq⟩ := lookup_eq_some h
  obtain ⟨more, hmore⟩ := hpre
  have hst := hsame t ht hne
  have hsplit' : w.slots m = pre ++ t :: (post ++ more) := by
    rw [← hmore, hsplit, List.append_assoc, List.cons_append]
  refine lookup_of_split hsplit' ?_ (by rwa [hst.name (by decide)]) (hst.nameIsEqual.2 heq)
  · intro u hu
    have hul : u ∈ v.slots l := by
      rw [hsplit]
      exact List.mem_append_left _ hu
    by_cases hus : u = s
    · subst hus
      exact hs hul
    · have hsu := hsame u hul hus
      rw [hsu.name (by decide), hsu.nameIsEqual]
      exact hpre' u hu

/-- `NameIsEqual` compares with names without dots. -/
theorem name83Loop_ne_dot {g : Nat → UInt8} (hg : ∀ i, g i ≠ dot) :
    ∀ {k} (i : Nat), name83Loop name k g i ≠ dot := by
  induction name generalizing g with
  | nil => exact fun i => hg i
  | cons c name ih =>
    intro k i
    rw [name83Loop]
    split
    · split
      · exact ih hg i
      · rename_i hc
        refine ih (fun j => ?_) i
        by_cases hj : j = k
        · subst hj
          rw [Function.update_self, toupper]
          simp only [dot] at *
          split <;> grind
        · rw [Function.update_of_ne hj]
          exact hg j
    · exact hg i

theorem name83_ne_dot (name : List UInt8) (i : Nat) : name83 name i ≠ dot :=
  name83Loop_ne_dot (fun _ => by decide) i

/-! ### Walking to a directory -/

theorem scanElem_eq (hN : v.NumbersOk) {e : Elem} (hm : v.IsChain (v.startDir e dir) m)
    (hfit : e.name.length ≤ kMaxPathElem) : v.scanElem dir e = some (v.lookup m e.name) := by
  rw [scanElem, if_pos hfit]
  exact scanDir_spec hm hN e.name hm.chain.getElem_zero (Nat.lt_succ_of_le hm.length_le)

theorem startDir_isDir (hdir : dir = 0 ∨ v.IsDir dir) (e : Elem) : v.IsDir (v.startDir e dir) := by
  rw [startDir]
  split
  · exact .root
  · rename_i h
    exact hdir.resolve_left fun h0 => h (.inr h0)

theorem scanElem_spec (hwf : v.WellFormed) (hdir : dir = 0 ∨ v.IsDir dir) {e : Elem}
    {r : Option Slot}
    (h : v.scanElem dir e = some r) : e.name.length ≤ kMaxPathElem ∧
      ∃ m, v.IsChain (v.startDir e dir) m ∧ v.lookup m e.name = r := by
  obtain ⟨m, hm⟩ := hwf.dirChain (startDir_isDir hdir e)
  have hfit : e.name.length ≤ kMaxPathElem := by
    rw [scanElem] at h
    split at h
    · assumption
    · cases h
  rw [scanElem_eq hwf.numbers hm hfit] at h
  exact ⟨hfit, m, hm, Option.some.inj h⟩

/-- The bytes of none of the names start like a deleted slot. -/
def NoDeleted (es : List Elem) : Prop := ∀ e ∈ es, name83 e.name 0 ≠ 0xe5

instance (es : List Elem) : Decidable (NoDeleted es) := inferInstanceAs (Decidable (∀ e ∈ es, _))

theorem live_of_lookup (hd : v.IsDir d) (hm : v.IsChain d m) (h : v.lookup m name = some u)
    (hdel : name83 name 0 ≠ 0xe5) (ha : v.attr u = kDirectory) : v.Live u ∧ v.IsDirectory u := by
  obtain ⟨hu, h0, heq⟩ := lookup_eq_some h
  have hname := heq 0 (by decide)
  refine ⟨⟨d, m, hd, hm, hu, ⟨h0, by rwa [hname]⟩, fun hdots => ?_, by rw [ha]; decide⟩, by
    rw [IsDirectory, ha]; decide⟩
  rw [IsDots, hname] at hdots
  exact name83_ne_dot name 0 hdots.1

theorem isDir_of_live (h : v.Live u ∧ v.IsDirectory u) :
    v.firstCluster u = 0 ∨ v.IsDir (v.firstCluster u) := by
  obtain ⟨⟨d, m, hd, hm, hu, he⟩, ha⟩ := h
  by_cases h0 : v.firstCluster u = 0
  · exact .inl h0
  · exact .inr (.sub hd hm hu he ha h0)

/-- In `w` the entries that are found in directories of `v` are found, too. -/
def Finds (v w : Volume) : Prop := ∀ d m name u, v.IsDir d → v.IsChain d m → name83 name 0 ≠ 0xe5 →
  v.lookup m name = some u → ∃ m', w.IsChain d m' ∧ w.lookup m' name = some u ∧ SameEntry v w u

theorem Finds.refl (v : Volume) : Finds v v := fun _ m _ _ _ hm _ h => ⟨m, hm, h, fun _ _ => rfl⟩

/-- The walk along `es` ends at a live directory entry, in `w` too, and goes on from there to the
last element. -/
theorem walk (hwf : v.WellFormed) (hw : Finds v w) (hroot : w.rootCluster = v.rootCluster)
    (hN : w.NumbersOk)
    {b b' b'' : Bool} {g : Elem} : ∀ {es dir}, es ≠ [] → dir = 0 ∨ v.IsDir dir → NoDeleted es →
    v.resolve b dir es = some (some t, b') → v.resolve false dir (es ++ [g]) = some (none, b'') →
    v.Live t ∧ v.IsDirectory t ∧ v.resolve false (v.firstCluster t) [g] = some (none, b'') ∧
      ∀ g', w.resolve false dir (es ++ [g']) = w.resolve false (v.firstCluster t) [g'] := by
  intro es
  induction es with
  | nil => exact fun h => absurd rfl h
  | cons e es ih =>
    intro dir _ hdir hdel hparent hpath
    obtain ⟨e', es', hes⟩ :=
      List.exists_cons_of_ne_nil (List.append_ne_nil_of_right_ne_nil es (List.cons_ne_nil g []))
    -- the entry of the first element, the same for both paths
    obtain ⟨u, hu⟩ : ∃ u, v.scanElem dir e = some (some u) := by
      rw [List.cons_append, hes, resolve] at hpath
      obtain ⟨r, hr, hpath⟩ := Option.bind_eq_some_iff.1 hpath
      rcases r with _ | u
      · cases es with
        | nil =>
          rw [resolve, hr] at hparent
          cases hparent
        | cons e' es =>
          rw [resolve, hr] at hparent
          cases hparent
      · exact ⟨u, hr⟩
    obtain ⟨hfit, m, hm, hlook⟩ := scanElem_spec hwf hdir hu
    have hsd := startDir_isDir hdir e
    have ha : v.attr u = kDirectory := by
      rw [List.cons_append, hes, resolve, hu, Option.bind_some] at hpath
      dsimp only at hpath
      by_contra hne
      rw [if_neg hne] at hpath
      cases hpath
    have hlive := live_of_lookup hsd hm hlook (hdel e List.mem_cons_self) ha
    obtain ⟨m', hm', hlook', hsame⟩ := hw _ m e.name u hsd hm (hdel e List.mem_cons_self) hlook
    have hwu : w.scanElem dir e = some (some u) := by
      have hstart : w.startDir e dir = v.startDir e dir := by rw [startDir, startDir, hroot]
      rw [scanElem_eq hN (by rwa [hstart]) hfit, hlook']
    have hwa : w.attr u = kDirectory := by rw [hsame.head.attr, ha]
    have hwstep : ∀ e'' es'', w.resolve false dir (e :: e'' :: es'') =
        w.resolve false (v.firstCluster u) (e'' :: es'') := fun e'' es'' => by
      rw [resolve, hwu, Option.bind_some]
      dsimp only
      rw [if_pos hwa, hsame.firstCluster]
    have hstep : ∀ b e'' es'', v.resolve b dir (e :: e'' :: es'') = v.resolve b (v.firstCluster u)
      (e'' :: es'') :=
      fun b e'' es'' => by
        rw [resolve, hu, Option.bind_some]
        dsimp only
        rw [if_pos ha]
    cases es with
    | nil =>
      rw [resolve, hu] at hparent
      cases hparent
      rw [List.cons_append, List.nil_append, hstep] at hpath
      exact ⟨hlive.1, hlive.2, hpath, fun g' => hwstep g' []⟩
    | cons e'' es =>
      rw [List.cons_append, List.cons_append, hstep] at hpath
      rw [hstep] at hparent
      obtain ⟨ht, hta, hlast, hwalk⟩ := ih (List.cons_ne_nil _ _) (isDir_of_live hlive)
        (fun e he => hdel e (List.mem_cons_of_mem _ he)) hparent hpath
      refine ⟨ht, hta, hlast, fun g' => ?_⟩
      rw [List.cons_append, List.cons_append, hwstep]
      exact hwalk g'

theorem scanElem_of_resolve {g : Elem} :
    ∀ {es dir}, v.resolve false dir (es ++ [g]) = some (some s, false) →
    ∃ dir', v.scanElem dir' g = some (some s) := by
  intro es
  induction es with
  | nil =>
    intro dir h
    obtain ⟨r, hr, h⟩ := Option.map_eq_some_iff.1 h
    cases h
    exact ⟨dir, hr⟩
  | cons e es ih =>
    intro dir h
    obtain ⟨e', es', hes⟩ :=
      List.exists_cons_of_ne_nil (List.append_ne_nil_of_right_ne_nil es (List.cons_ne_nil g []))
    rw [List.cons_append, hes, resolve] at h
    obtain ⟨r, hr, h⟩ := Option.bind_eq_some_iff.1 h
    rcases r with _ | u
    · cases h
    · dsimp only at h
      split at h
      · rw [← hes] at h
        exact ih h
      · cases h

theorem scanDir_some : ∀ {fuel c}, v.scanDir name c fuel = some (some s) →
    v.nameIsEqual s name := by
  intro fuel
  induction fuel with
  | zero => intro c h; cases h
  | succ fuel ih =>
    intro c h
    rw [scanDir] at h
    split at h
    · cases h
    split at h
    swap
    · cases h
    split at h
    · rename_i u hu
      have hstop := List.find?_some hu
      split at h
      · cases h
      · rename_i h0
        cases h
        exact (of_decide_eq_true hstop).resolve_left h0
    · obtain ⟨next, -, h⟩ := Option.bind_eq_some_iff.1 h
      exact ih h

theorem nameIsEqual_of_scanElem {e : Elem} (h : v.scanElem dir e = some (some s)) :
    v.nameIsEqual s e.name := by
  rw [scanElem] at h
  split at h
  · exact scanDir_some h
  · cases h

/-! ### The directory of a new file -/

/-- In the volume with the new entry the other entries are found as before: a name they are found by
is not that of the new one. -/
theorem Allocated.finds (hwf : v.WellFormed) (hd : v.IsDir d) (hl : v.IsChain d l)
    (h : Allocated v l v₁ s ext)
    (hnul : 0 ∉ filename) (hnone : v.lookup l filename = none)
    (hsame : ∀ i, i < 11 → fileName filename i = name83 filename i) :
    Finds v (v₁.setEntry s filename) := by
  intro d' m name u hd' hm hdel hu
  obtain ⟨hum, h0, heq⟩ := lookup_eq_some hu
  have hus : u ≠ s := by
    rintro rfl
    exact h.not_inUse hm hum ⟨h0, by rwa [heq 0 (by decide)]⟩
  rcases h.dirChain hwf hd hl hd' hm filename with ⟨rfl, hc⟩ | ⟨hns, -, hc⟩
  · -- the directory of the new entry
    have hne : ¬ (v₁.setEntry s filename).nameIsEqual s name := by
      intro heq
      have hlook : v.lookup m filename = v.lookup m name := lookup_same83 fun i hi => by
        rw [← hsame i hi, ← setEntry_name (v := v₁) (s := s) hi, heq i hi]
      rw [hlook, hu] at hnone
      cases hnone
    have hname0 : (v₁.setEntry s filename).name s 0 ≠ 0 := by
      rw [setEntry_name (by decide)]
      exact fileName_ne_zero hnul 0
    exact ⟨m ++ ext, hc,
      lookup_of_same hu (by rw [h.slots_setEntry, slots_append]; exact List.prefix_append _ _) hus
      (fun t ht hts => h.same hm ht hts) fun _ => ⟨hname0, hne⟩, h.same hm hum hus⟩
  · exact ⟨m, hc, lookup_of_same hu (by simp only [h.slots_setEntry, List.prefix_rfl]) hus
      (fun t ht hts => h.same hm ht hts)
      (fun hs => absurd hs hns), h.same hm hum hus⟩

theorem Allocated.lookup_new (h : Allocated v l v₁ s ext) (hl : v.IsChain d l) (hnul : 0 ∉ filename)
    (hnone : v.lookup l filename = none)
    (hsame : ∀ i, i < 11 → fileName filename i = name83 filename i) :
    (v₁.setEntry s filename).lookup (l ++ ext) filename = some s := by
  obtain ⟨pre, post, hsplit, hpfx, huse⟩ := h.split
  refine lookup_of_split (by rw [h.slots_setEntry, hsplit]) (fun t ht => ?_) ?_ fun i hi => ?_
  · have hne : t ≠ s := by
      rintro rfl
      exact h.not_inUse hl (hpfx.subset ht) (huse t ht)
    have hst : SameEntry v (v₁.setEntry s filename) t := h.same hl (hpfx.subset ht) hne
    rw [hst.name (by decide), hst.nameIsEqual]
    exact ⟨(huse t ht).1, not_nameIsEqual_of_lookup hnone hpfx huse ht⟩
  · rw [setEntry_name (by decide)]
    exact fileName_ne_zero hnul 0
  · rw [setEntry_name hi, hsame i hi]

/-! ### `CreateFile`, then `FindFile` -/

/-- The new file is found, and no slash behind its name. -/
def Found (v : Volume) (path : List UInt8) : Prop :=
  ∃ v' s, v.createFile path = some (.ok (v', s)) ∧ v'.findFile path = some (some s, false)

/-- `SetFileName` and `NameIsEqual` make the same name, no slash ends the last element of the part
of the path before the name, and this part, if there is one, leads to an entry with a cluster
without naming a deleted one. -/
structure PathOk (v : Volume) (path : List UInt8) : Prop where
  sameName : ∀ i, i < 11 → fileName (splitPath path).2 i = name83 (splitPath path).2 i
  noPostSlash : postSlash (splitPath path).1 = false
  noDeleted : NoDeleted (elems (splitPath path).1)
  cluster : (splitPath path).1 ≠ [] → ∃ t b, v.findFile (splitPath path).1 = some (some t, b) ∧
    v.firstCluster t ≠ 0

theorem Found.sameName {path : List UInt8} (hf : slash ∈ path → (splitPath path).2 ≠ [])
    (h : Found v path) :
    ∀ i, i < 11 → fileName (splitPath path).2 i = name83 (splitPath path).2 i := by
  obtain ⟨v', s, hcreate, hfind⟩ := h
  obtain ⟨d, v₁, -, -, rfl⟩ := createFile_ok hcreate
  obtain ⟨hpost, helems⟩ := elems_splitPath hf
  rw [findFile_eq, hpost] at hfind
  obtain ⟨es, b, hes⟩ : ∃ es b, elems path = es ++ [⟨b, (splitPath path).2⟩] := by
    rcases helems with ⟨-, b, hes⟩ | ⟨-, hes⟩
    · exact ⟨[], b, hes⟩
    · exact ⟨_, _, hes⟩
  rw [hes] at hfind
  obtain ⟨dir', hscan⟩ := scanElem_of_resolve hfind
  intro i hi
  rw [← nameIsEqual_of_scanElem hscan i hi, setEntry_name hi]

theorem filename_ne_nil {path : List UInt8} (hok : ∀ e, v.createFile path ≠ some (.error e)) :
    slash ∈ path → (splitPath path).2 ≠ [] := by
  intro hmem hnil
  refine hok .kIsDirectory ?_
  rw [createFile]
  rcases hsplit : splitPath path with ⟨parent, filename⟩
  rw [hsplit] at hnil
  exact if_pos ⟨hmem, hnil⟩

theorem createFile_eq {path : List UInt8} (hf : slash ∈ path → (splitPath path).2 ≠ [])
    (hparent : v.parentDir (splitPath path).1 = some (.ok d))
    (halloc : v.allocateEntry d = some (v₁, s)) :
    v.createFile path = some (.ok (v₁.setEntry s (splitPath path).2, s)) := by
  rw [createFile]
  rcases hsplit : splitPath path with ⟨parent, filename⟩
  rw [hsplit] at hf hparent
  dsimp only at hf hparent ⊢
  rw [if_neg fun h => hf h.1 h.2, hparent, Option.bind_some]
  dsimp only
  rw [newFile, halloc]
  rfl

theorem allocateEntry_zero (v : Volume) : v.allocateEntry 0 = none := by
  rw [allocateEntry]
  rcases v.numClusters with _ | n
  · rfl
  · exact if_neg fun h => absurd h.1 (by decide)

theorem parentDir_eq {parent : List UInt8} (hne : parent ≠ [])
    (h : v.parentDir parent = some (.ok d)) :
    ∃ t b, v.findFile parent = some (some t, b) ∧ v.firstCluster t = d := by
  rw [parentDir, if_neg hne] at h
  obtain ⟨⟨t, b⟩, hfind, h⟩ := Option.map_eq_some_iff.1 h
  rcases t with _ | t
  · cases h
  · cases h
    exact ⟨t, b, hfind, rfl⟩

theorem elems_ne_nil (path : List UInt8) : elems path ≠ [] := by
  obtain ⟨e, es, h⟩ := parse_cons path.length path
  rw [elems, h]
  exact List.cons_ne_nil _ _

theorem resolve_new (hwf : v.WellFormed) (hfree : v.freeClusters ≠ []) {e : Elem} {b : Bool}
    (hdir : dir = 0 ∨ v.IsDir dir) (hnul : 0 ∉ e.name)
    (hnull : v.resolve false dir [e] = some (none, b))
    (hsame : ∀ i, i < 11 → fileName e.name i = name83 e.name i) :
    ∃ v₁ s, v.allocateEntry (v.startDir e dir) = some (v₁, s) ∧ Finds v (v₁.setEntry s e.name) ∧
      (v₁.setEntry s e.name).rootCluster = v.rootCluster ∧ (v₁.setEntry s e.name).NumbersOk ∧
      (v₁.setEntry s e.name).resolve false dir [e] = some (some s, false) := by
  obtain ⟨r, hr, hnull⟩ := Option.map_eq_some_iff.1 hnull
  cases hnull
  obtain ⟨hfit, l, hl, hnone⟩ := scanElem_spec hwf hdir hr
  have hd := startDir_isDir hdir e
  obtain ⟨hspec, hsome⟩ := allocateEntry_spec hwf hl
  obtain ⟨⟨v₁, s⟩, halloc⟩ := Option.ne_none_iff_exists'.1 (hsome hfree)
  obtain ⟨ext, ha⟩ := hspec v₁ s halloc
  have hext := ha.extends_setEntry e.name
  have hroot : (v₁.setEntry s e.name).rootCluster = v.rootCluster :=
    congrArg (·.rootCluster.toNat) hext.bpb
  have hN : (v₁.setEntry s e.name).NumbersOk := by
    rw [NumbersOk, hext.numClusters]
    exact hwf.numbers
  have hstart : (v₁.setEntry s e.name).startDir e dir = v.startDir e dir := by
    rw [startDir, startDir, hroot]
  refine ⟨v₁, s, halloc, ha.finds hwf hd hl hnul hnone hsame, hroot, hN, ?_⟩
  rw [resolve, scanElem_eq hN (by rw [hstart]; exact hext.chain hl) hfit,
    ha.lookup_new hl hnul hnone hsame]
  rfl

theorem Found.of_pathOk (hwf : v.WellFormed) (hfree : v.freeClusters ≠ []) {path : List UInt8}
    (hnul : 0 ∉ path)
    {b : Bool} (hnull : v.findFile path = some (none, b))
    (hok : ∀ e, v.createFile path ≠ some (.error e))
    (h : PathOk v path) : Found v path := by
  have hf := filename_ne_nil hok
  have hnulf := not_mem_filename hnul
  obtain ⟨hpost, helems⟩ := elems_splitPath hf
  rw [findFile_eq, hpost] at hnull
  rcases helems with ⟨hparent, b', hes⟩ | ⟨hparent, hes⟩
  · -- a file in the root
    rw [hes] at hnull
    obtain ⟨v₁, s, halloc, -, -, -, hlast⟩ :=
      resolve_new hwf hfree (.inl rfl) hnulf hnull h.sameName
    have hstart : v.startDir ⟨b', (splitPath path).2⟩ 0 = v.rootCluster := if_pos (.inr rfl)
    rw [hstart] at halloc
    refine ⟨_, s, createFile_eq hf (by rw [hparent]; rfl) halloc, ?_⟩
    rw [findFile_eq, hpost, hes]
    exact hlast
  · obtain ⟨t, b', hfind, h0⟩ := h.cluster hparent
    rw [findFile_eq] at hfind
    rw [hes, h.noPostSlash] at hnull
    obtain ⟨ht, hta, hnull', -⟩ :=
      walk hwf (.refl v) rfl hwf.numbers (elems_ne_nil _) (.inl rfl) h.noDeleted hfind hnull
    have hd := (isDir_of_live ⟨ht, hta⟩).resolve_left h0
    obtain ⟨v₁, s, halloc, hfinds, hroot, hN, hlast⟩ :=
      resolve_new hwf hfree (.inr hd) hnulf hnull' h.sameName
    have hstart : v.startDir ⟨false, (splitPath path).2⟩ (v.firstCluster t) = v.firstCluster t :=
      if_neg fun h => h.elim (fun h => by cases h) h0
    rw [hstart] at halloc
    have hdir : v.parentDir (splitPath path).1 = some (.ok (v.firstCluster t)) := by
      rw [parentDir, if_neg hparent, findFile_eq, hfind]
      rfl
    refine ⟨_, s, createFile_eq hf hdir halloc, ?_⟩
    obtain ⟨-, -, -, hwalk⟩ :=
      walk hwf hfinds hroot hN (elems_ne_nil _) (.inl rfl) h.noDeleted hfind hnull
    rw [findFile_eq, hpost, hes, h.noPostSlash, hwalk]
    exact hlast

/-- Behind the slash of an element the name is looked up in the root. -/
theorem Found.noPostSlash (hwf : v.WellFormed) {path : List UInt8} (hpost : postSlash path = false)
    (hes : elems path = elems (splitPath path).1 ++
      [⟨postSlash (splitPath path).1, (splitPath path).2⟩])
    (ht : v.Live t) (hta : v.IsDirectory t) (h0 : v.firstCluster t ≠ 0)
    (halloc : v.allocateEntry (v.firstCluster t) = some (v₁, s))
    (hfind : (v₁.setEntry s (splitPath path).2).findFile path = some (some s, false)) :
    postSlash (splitPath path).1 = false := by
  have hd := (isDir_of_live ⟨ht, hta⟩).resolve_left h0
  obtain ⟨l, hl⟩ := hwf.dirChain hd
  obtain ⟨ext, ha⟩ := (allocateEntry_spec hwf hl).1 _ _ halloc
  rw [findFile_eq, hpost, hes] at hfind
  obtain ⟨dir', hscan⟩ := scanElem_of_resolve hfind
  rw [Bool.eq_false_iff]
  intro htrue
  rw [htrue] at hscan
  obtain ⟨m, hm⟩ := hwf.root
  have hext := ha.extends_setEntry (splitPath path).2
  have hroot : (v₁.setEntry s (splitPath path).2).rootCluster = v.rootCluster :=
    congrArg (·.rootCluster.toNat) hext.bpb
  have hN : (v₁.setEntry s (splitPath path).2).NumbersOk := by
    rw [NumbersOk, hext.numClusters]
    exact hwf.numbers
  have hdisj : l.Disjoint m := hwf.rootDisjoint t l m ht (.inr hl) hm
  rcases ha.dirChain hwf hd hl .root hm (splitPath path).2 with ⟨rfl, -⟩ | ⟨hns, -, hc⟩
  · exact hdisj hl.chain.mem_head hl.chain.mem_head
  · have hfit : (splitPath path).2.length ≤ kMaxPathElem := by
      rw [scanElem] at hscan
      split at hscan
      · assumption
      · cases hscan
    have hstart : (v₁.setEntry s (splitPath path).2).startDir ⟨true, (splitPath path).2⟩ dir' =
      v.rootCluster :=
      (if_pos (.inl rfl)).trans hroot
    rw [scanElem_eq hN (by rw [hstart]; exact hc) hfit] at hscan
    have hs := (lookup_eq_some (Option.some.inj hscan)).1
    rw [ha.slots_setEntry] at hs
    exact hns hs

theorem Found.pathOk (hwf : v.WellFormed) {path : List UInt8} {b : Bool}
    (hnull : v.findFile path = some (none, b))
    (hok : ∀ e, v.createFile path ≠ some (.error e)) (hdel : NoDeleted (elems (splitPath path).1))
    (h : Found v path) : PathOk v path := by
  have hf := filename_ne_nil hok
  have hsame := h.sameName hf
  obtain ⟨v', s, hcreate, hfind⟩ := h
  obtain ⟨d, v₁, hdir, halloc, rfl⟩ := createFile_ok hcreate
  obtain ⟨hpost, helems⟩ := elems_splitPath hf
  rcases helems with ⟨hparent, -⟩ | ⟨hparent, hes⟩
  · exact ⟨hsame, by rw [hparent]; rfl, hdel, fun hne => absurd hparent hne⟩
  · obtain ⟨t, b', hfindP, rfl⟩ := parentDir_eq hparent hdir
    have h0 : v.firstCluster t ≠ 0 := by
      intro h0
      rw [h0, allocateEntry_zero] at halloc
      cases halloc
    have hfindP' := hfindP
    rw [findFile_eq] at hfindP'
    rw [findFile_eq, hpost, hes] at hnull
    obtain ⟨ht, hta, -⟩ :=
      walk hwf (.refl v) rfl hwf.numbers (elems_ne_nil _) (.inl rfl) hdel hfindP' hnull
    exact ⟨hsame, Found.noPostSlash hwf hpost hes ht hta h0 halloc hfind, hdel,
      fun _ => ⟨t, b', hfindP, h0⟩⟩

end Volume

open Volume

/-- A file that was not there and was created is found if the path is right, and only if it is,
unless the path to its directory names a deleted entry. -/
theorem created_found {v : Volume} (hwf : v.WellFormed) (hfree : v.freeClusters ≠ [])
    (path : CString) {b : Bool}
    (hnull : v.findFile path.chars = some (none, b))
    (hok : ∀ e, v.createFile path.chars ≠ some (.error e)) :
    (PathOk v path.chars → Found v path.chars) ∧
      (NoDeleted (elems (splitPath path.chars).1) → Found v path.chars → PathOk v path.chars) :=
  ⟨Found.of_pathOk hwf hfree path.noNul hnull hok, fun hdel h => h.pathOk hwf hnull hok hdel⟩

theorem no_error_of_any {v : Volume} {path : List UInt8}
    (h : (v.createFile path).any Except.toBool = true) (e : Error) :
    v.createFile path ≠ some (.error e) := by
  intro he
  rw [he] at h
  cases h

/-- `b` -/
theorem created_found_oneFile : Found oneFile [0x62] := by
  have hok : PathOk oneFile [0x62] :=
    ⟨by decide +kernel, by decide +kernel, by decide +kernel, fun h => absurd rfl h⟩
  exact (created_found oneFile_wellFormed (by decide +kernel) ⟨[0x62], by decide⟩
    (b := false) (by decide +kernel) (no_error_of_any (by decide +kernel))).1 hok

/-- `x.y.z` is put into the entry as the base `x.y`, and looked up as the base `x`. -/
theorem not_created_found : ¬ ∀ (v : Volume) (path : CString) (b : Bool), v.WellFormed →
    v.freeClusters ≠ [] →
    (∀ c ∈ path.chars.splitOn slash, c.length ≤ kMaxPathElem ∧ c ≠ [dot] ∧ c ≠ [dot, dot]) →
    v.findFile path.chars = some (none, b) → (∀ e, v.createFile path.chars ≠ some (.error e)) →
    Found v path.chars := by
  intro hall
  have h := hall oneFile ⟨[0x78, dot, 0x79, dot, 0x7a], by decide⟩ false oneFile_wellFormed
    (by decide +kernel)
    (by decide +kernel) (by decide +kernel) (no_error_of_any (by decide +kernel))
  have hsame := h.sameName fun hmem => absurd hmem (by decide)
  exact absurd (hsame 1 (by decide)) (by decide)

end Moxia.Fat
