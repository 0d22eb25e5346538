import Moxia.Fat.FindCreated

/-!
# What a path should resolve to

`resolvePath` takes a path apart at its slashes, drops empty components and looks each of the others
up in the directory found before it, past deleted slots and those of long names. `FindFile` agrees
with it where the walk meets no repeated slash, no such slot of the name it looks for, and no
directory other than those it knows (`departure`).
-/

namespace Moxia.Fat

open Lib

def components (path : List UInt8) : List (List UInt8) := (path.splitOn slash).filter (· ≠ [])

theorem splitOn_eq_singleton_nil {path : List UInt8} : path.splitOn slash = [[]] ↔ path = [] := by
  refine ⟨fun h => ?_, by rintro rfl; rfl⟩
  cases path with
  | nil => rfl
  | cons c path =>
    rw [List.splitOn_cons_eq_if_modifyHead] at h
    obtain ⟨p, ps, hps⟩ := List.exists_cons_of_ne_nil (List.splitOn_ne_nil slash path)
    rw [hps] at h
    split at h <;> simp at h

theorem components_cons {c : UInt8} (path : List UInt8) (hc : c ≠ slash) :
    ∃ p ps, components (c :: path) = p :: ps := by
  obtain ⟨p, ps, hps⟩ := List.exists_cons_of_ne_nil (List.splitOn_ne_nil slash path)
  refine ⟨c :: p, ps.filter (· ≠ []), ?_⟩
  have hne : (c == slash) = false := beq_eq_false_iff_ne.2 hc
  simp [components, List.splitOn_cons_eq_if_modifyHead, hne, hps]

theorem components_slash (path : List UInt8) : components (slash :: path) = components path := by
  simp [components, List.splitOn_cons_eq_if_modifyHead]

theorem getLast_of_components {path : List UInt8} (h : components path = []) :
    (slash :: path).getLast? = some slash := by
  induction path with
  | nil => rfl
  | cons c path ih =>
    by_cases hc : c = slash
    · rw [hc, components_slash] at h
      rw [hc, List.getLast?_cons_cons, ih h]
    · obtain ⟨p, ps, hps⟩ := components_cons path hc
      rw [hps] at h
      cases h

theorem nextPathElement_spec (path : List UInt8) : ∃ c next, nextPathElement path = (c, next) ∧
    path.splitOn slash = c :: (next.map (List.splitOn slash)).getD [] ∧
      (c ≠ [] → components path = c :: (next.map components).getD []) ∧
        (next.isSome = true ↔ (next.map components).getD [] ≠ [] ∨ path.getLast? = some slash) ∧
          ∀ rest ∈ next, path = c ++ slash :: rest := by
  by_cases hmem : slash ∈ path
  · obtain ⟨c, rest, rfl, hc⟩ := List.eq_append_cons_of_mem hmem
    have hsplit := List.splitOn_append_cons_self_of_not_mem hc rest
    refine ⟨c, some rest, nextPathElement_append_of_not_mem hc, hsplit, fun hne => ?_, ?_, ?_⟩
    · rw [components, hsplit, List.filter_cons_of_pos (by simpa using hne)]
      rfl
    · refine iff_of_true rfl ?_
      by_cases hrest : components rest = []
      · right
        rw [List.getLast?_append_of_ne_nil _ (List.cons_ne_nil _ _), getLast_of_components hrest]
      · exact .inl hrest
    · rintro _ ⟨⟩
      rfl
  · have hsplit : path.splitOn slash = [path] := List.splitOn_eq_singleton hmem
    refine ⟨path, none, nextPathElement_of_not_mem hmem, hsplit, fun hne => ?_, ?_, by simp⟩
    · rw [components, hsplit, List.filter_cons_of_pos (by simpa using hne)]
      rfl
    · have hlast : path.getLast? ≠ some slash := fun h => hmem (List.mem_of_getLast? h)
      simp [hlast]

namespace Volume

variable {v : Volume} {s : Slot} {d : Nat} {l : List Nat} {name path : List UInt8}

/-- The clusters that the FAT links from `c` on. -/
def clustersFrom (v : Volume) : Nat → Nat → List Nat
  | 0, _ => []
  | fuel + 1, c =>
      if v.InRange c then c :: v.clustersFrom fuel ((v.nextCluster c).getD kEndOfClusterchain)
      else []

def dirSlots (v : Volume) (d : Nat) : List Slot := v.slots (v.clustersFrom v.numClusters d)

/-- Neither deleted nor a slot of a long name. -/
def Candidate (v : Volume) (s : Slot) : Prop := v.name s 0 ≠ 0xe5 ∧ v.attr s ≠ kLongName

instance (v : Volume) (s : Slot) : Decidable (v.Candidate s) := inferInstanceAs (Decidable (_ ∧ _))

/-- The entry of a name in a directory, before its end marker. -/
def entryOf (v : Volume) (d : Nat) (name : List UInt8) : Option Slot :=
  ((v.dirSlots d).takeWhile fun s => v.name s 0 ≠ 0).find? fun s =>
    v.Candidate s ∧ v.nameIsEqual s name

/-- The last component is followed by a slash if `post` holds, the others are. -/
def resolveFrom (v : Volume) (post : Bool) : Nat → List (List UInt8) → Option Slot × Bool
  | _, [] => (none, post)
  | d, [c] => (v.entryOf d c, post)
  | d, c :: c' :: cs =>
    match v.entryOf d c with
    | none => (none, true)
    | some s =>
        if v.IsDirectory s then v.resolveFrom post (v.firstCluster s) (c' :: cs) else (some s, true)

def resolvePath (v : Volume) (path : List UInt8) : Option Slot × Bool :=
  v.resolveFrom (path.getLast? = some slash) v.rootCluster (components path)

/-- Where the walk of `FindFile` first leaves that of `resolvePath`. -/
inductive Departure
  | nowhere
  /-- It ends at a deleted slot or one of a long name. -/
  | wrongSlot
  /-- It goes on in a deleted directory, in the root in place of a directory without clusters, or
  not into a directory with further attributes. -/
  | wrongDirectory
  /-- A slash follows the one that ends a component, or the one at the start. -/
  | emptyComponent
deriving DecidableEq

/-- The walk through the pieces of a path between its slashes. -/
def departure (v : Volume) : Nat → List (List UInt8) → Departure
  | _, [] => .nowhere
  | d, c :: ps =>
    if c = [] then .emptyComponent
    else
      match ((v.dirSlots d).takeWhile fun s => v.name s 0 ≠ 0).find? fun s => v.nameIsEqual s c with
      | none => .nowhere
      | some s =>
        let isLast : Bool := ps = [] ∨ ps = [[]]
        if ¬ v.Candidate s then if isLast ∨ v.attr s ≠ kDirectory then .wrongSlot else
          .wrongDirectory
        else if isLast ∨ ¬ v.IsDirectory s then .nowhere
        else if v.attr s ≠ kDirectory ∨ v.firstCluster s = 0 then .wrongDirectory
        else v.departure (v.firstCluster s) ps

theorem clustersFrom_eq (h : v.IsChain d l) (hN : v.NumbersOk) : ∀ {fuel i c}, l[i]? = some c →
    l.length ≤ fuel + i →
    v.clustersFrom fuel c = l.drop i := by
  intro fuel
  induction fuel with
  | zero =>
    intro i c hi hlen
    have := (List.getElem?_eq_some_iff.1 hi).1
    omega
  | succ fuel ih =>
    intro i c hi hlen
    obtain ⟨hlt, rfl⟩ := List.getElem?_eq_some_iff.1 hi
    rw [clustersFrom, if_pos (h.inRange _ (List.mem_of_getElem? hi)), h.nextCluster hi,
      Option.getD_some,
      List.drop_eq_getElem_cons hlt]
    by_cases hlast : i + 1 < l.length
    · have hnext : l[i + 1]? = some l[i + 1] := List.getElem?_eq_getElem hlast
      rw [hnext, Option.getD_some, ih hnext (by omega)]
    · have hend : ¬ v.InRange kEndOfClusterchain := by
        rw [NumbersOk] at hN
        rw [InRange, kEndOfClusterchain]
        omega
      rw [List.getElem?_eq_none (by omega), Option.getD_none, List.drop_eq_nil_of_le (by omega)]
      cases fuel with
      | zero => rfl
      | succ fuel => rw [clustersFrom, if_neg hend]

theorem dirSlots_eq (h : v.IsChain d l) (hN : v.NumbersOk) : v.dirSlots d = v.slots l := by
  rw [dirSlots, clustersFrom_eq h hN h.chain.getElem_zero (by have := h.length_le; omega),
    List.drop_zero]

/-- The slot `FindFile` finds is the first one of the name before the end marker. -/
theorem lookup_eq (l : List Nat) (name : List UInt8) : v.lookup l name =
    ((v.slots l).takeWhile fun s => v.name s 0 ≠ 0).find? fun s => v.nameIsEqual s name := by
  rw [lookup]
  induction v.slots l with
  | nil => rfl
  | cons s ss ih =>
    by_cases h0 : v.name s 0 = 0
    · simp [stops, h0]
    · by_cases heq : v.nameIsEqual s name
      · simp [stops, h0, heq]
      · simpa [stops, h0, heq] using ih

theorem entryOf_of_lookup_none (h : v.IsChain d l) (hN : v.NumbersOk)
    (hlook : v.lookup l name = none) :
    v.entryOf d name = none := by
  rw [lookup_eq] at hlook
  rw [entryOf, dirSlots_eq h hN, List.find?_eq_none]
  intro s hs
  have := List.find?_eq_none.1 hlook s hs
  simp_all

theorem entryOf_of_lookup (h : v.IsChain d l) (hN : v.NumbersOk) (hlook : v.lookup l name = some s)
    (hs : v.Candidate s) : v.entryOf d name = some s := by
  rw [lookup_eq] at hlook
  rw [entryOf, dirSlots_eq h hN]
  obtain ⟨hname, pre, post, hsplit, hpre⟩ := List.find?_eq_some_iff_append.1 hlook
  refine List.find?_eq_some_iff_append.2 ⟨by simp_all, pre, post, hsplit, fun t ht => ?_⟩
  have := hpre t ht
  simp_all

theorem resolveFrom_of_none {post : Bool} {cs : List (List UInt8)} (h : v.entryOf d name = none) :
    v.resolveFrom post d (name :: cs) = (none, cs ≠ [] || post) := by
  cases cs with
  | nil => simp [resolveFrom, h]
  | cons c cs => simp [resolveFrom, h]

theorem resolveFrom_of_some {post : Bool} {cs : List (List UInt8)} (h : v.entryOf d name = some s)
    (hs : cs = [] ∨ ¬ v.IsDirectory s) :
    v.resolveFrom post d (name :: cs) = (some s, cs ≠ [] || post) := by
  cases cs with
  | nil => simp [resolveFrom, h]
  | cons c cs => simp [resolveFrom, h, hs.resolve_left (List.cons_ne_nil _ _)]

theorem findFileLoop_piece (fuel : Nat) {c : List UInt8} {next : Option (List UInt8)}
    (h : v.IsChain d l)
    (hN : v.NumbersOk) (hhead : path.head? ≠ some slash) (hnext : nextPathElement path = (c, next))
    (hfit : c.length ≤ kMaxPathElem) :
    (v.lookup l c = none → v.findFileLoop (fuel + 1) path d = some (none, next.isSome)) ∧
      ∀ s, v.lookup l c = some s →
        ((∀ rest ∈ next, v.attr s = kDirectory → rest = []) →
            v.findFileLoop (fuel + 1) path d = some (some s, next.isSome)) ∧
          ∀ rest, next = some rest → v.attr s = kDirectory → rest ≠ [] →
            v.findFileLoop (fuel + 1) path d = v.findFileLoop fuel rest (v.firstCluster s) := by
  have hd0 : d ≠ 0 := by
    rintro rfl
    exact absurd h.inRange_head.1 (by decide)
  have hstart : v.startDir ⟨false, c⟩ d = d := by simp [startDir, hd0]
  have hstrip : strip path = path := if_neg hhead
  have hfind := @findFileLoop_succ path c v d fuel next (hstrip.symm ▸ hnext)
  rw [decide_eq_false hhead, scanElem_eq hN (by rwa [hstart]) hfit, Option.bind_some] at hfind
  refine ⟨fun hlook => by rw [hfind, hlook], fun s hlook => ?_⟩
  rw [hlook] at hfind
  rcases next with _ | rest
  · exact ⟨fun _ => hfind, fun rest hrest => by cases hrest⟩
  · refine ⟨fun hlast => hfind.trans (if_neg fun hgo => hgo.2 (hlast rest rfl hgo.1)), ?_⟩
    rintro _ ⟨⟩ ha hne
    exact hfind.trans (if_pos ⟨ha, hne⟩)

theorem isDir_of_lookup (hd : v.IsDir d) (hl : v.IsChain d l) (hlook : v.lookup l name = some s)
    (hs : v.Candidate s) (ha : v.attr s = kDirectory) (h0 : v.firstCluster s ≠ 0) :
    v.IsDir (v.firstCluster s) := by
  have hdel : name83 name 0 ≠ 0xe5 := by
    rw [← (lookup_eq_some hlook).2.2 0 (by decide)]
    exact hs.1
  exact (isDir_of_live (live_of_lookup hd hl hlook hdel ha)).resolve_left h0

theorem findFileLoop_of_departure (hwf : v.WellFormed) : ∀ {fuel path d}, path.length < fuel →
    path.head? ≠ some slash → v.IsDir d → (∀ c ∈ components path, c.length ≤ kMaxPathElem) →
      (v.departure d (path.splitOn slash) = .nowhere →
        v.findFileLoop fuel path d =
          some (v.resolveFrom (path.getLast? = some slash) d (components path))) ∧
      (v.departure d (path.splitOn slash) = .wrongSlot →
        ∃ s b, v.findFileLoop fuel path d = some (some s, b) ∧ ¬ v.Candidate s) := by
  intro fuel
  induction fuel with
  | zero => exact fun h => absurd h (Nat.not_lt_zero _)
  | succ fuel ih =>
    intro path d hfuel hhead hd hfit
    obtain ⟨l, hl⟩ := hwf.dirChain hd
    obtain ⟨c, next, hnext, hsplit, hcomp, hpost, hrest⟩ := nextPathElement_spec path
    rw [hsplit, departure, dirSlots_eq hl hwf.numbers, ← lookup_eq]
    by_cases hc : c = []
    · simp [hc]
    rw [if_neg hc]
    obtain ⟨hnone, hsome⟩ :=
      findFileLoop_piece fuel hl hwf.numbers hhead hnext (hfit c (by simp [hcomp hc]))
    have hpost' : next.isSome =
        ((next.map components).getD [] ≠ [] || path.getLast? = some slash : Bool) := by
      rw [Bool.eq_iff_iff, hpost]
      simp
    have hlast : ((next.map (List.splitOn slash)).getD [] = [] ∨
        (next.map (List.splitOn slash)).getD [] = [[]]) ↔
        ∀ rest ∈ next, rest = [] := by
      cases next with
      | none => simp
      | some rest => simp [splitOn_eq_singleton_nil]
    rw [hcomp hc]
    rcases hlook : v.lookup l c with _ | s
    · -- both find nothing
      rw [hnone hlook, resolveFrom_of_none (entryOf_of_lookup_none hl hwf.numbers hlook), hpost']
      exact ⟨fun _ => rfl, fun h => by cases h⟩
    have hdirattr : v.attr s = kDirectory → v.IsDirectory s := fun h => by
      rw [IsDirectory, h]
      decide
    obtain ⟨hstay, hgo⟩ := hsome s hlook
    simp only [hlast, decide_eq_true_eq]
    by_cases hcand : v.Candidate s
    · have hentry := entryOf_of_lookup hl hwf.numbers hlook hcand
      rw [if_neg (not_not_intro hcand)]
      by_cases hend : (∀ rest ∈ next, rest = []) ∨ ¬ v.IsDirectory s
      · -- both end here
        rw [if_pos hend]
        refine ⟨fun _ => ?_, fun h => by cases h⟩
        rw [hstay, hpost', resolveFrom_of_some hentry]
        · exact hend.imp_left fun h => by
            cases next with
            | none => rfl
            | some rest =>
              rw [h rest rfl]
              rfl
        · exact fun rest hrest ha => (hend.resolve_right (not_not_intro (hdirattr ha))) rest hrest
      · rw [if_neg hend]
        push Not at hend
        obtain ⟨⟨rest, rfl, hne⟩, hdir⟩ := hend
        by_cases hknown : v.attr s ≠ kDirectory ∨ v.firstCluster s = 0
        · rw [if_pos hknown]
          exact ⟨fun h => (by cases h), fun h => (by cases h)⟩
        rw [if_neg hknown]
        push Not at hknown
        -- both go on in the directory of the entry
        have hpath := hrest rest rfl
        obtain ⟨x, r, rfl⟩ := List.exists_cons_of_ne_nil hne
        by_cases hx : x = slash
        · have hsplit' : (x :: r).splitOn slash = [] :: r.splitOn slash := by
            simp [List.splitOn_cons_eq_if_modifyHead, hx]
          rw [Option.map_some, Option.getD_some, hsplit', departure, if_pos rfl]
          exact ⟨fun h => (by cases h), fun h => (by cases h)⟩
        obtain ⟨c', cs, hcs⟩ := components_cons r hx
        have hsub := isDir_of_lookup hd hl hlook hcand hknown.1 hknown.2
        have hgetLast : path.getLast? = (x :: r).getLast? := by
          rw [hpath, List.getLast?_append_of_ne_nil _ (List.cons_ne_nil _ _),
            List.getLast?_cons_cons]
        have hlen : (x :: r).length < fuel := by
          rw [hpath, List.length_append, List.length_cons] at hfuel
          omega
        have := ih hlen (by simpa using hx) hsub fun y hy => hfit y (by simp [hcomp hc, hy])
        rw [hgo _ rfl hknown.1 hne, hgetLast, Option.map_some, Option.getD_some, Option.map_some,
          Option.getD_some]
        rw [hcs] at this ⊢
        rw [resolveFrom, hentry]
        dsimp only
        rw [if_pos hdir]
        exact this
    · -- the slot is not one of the reference
      rw [if_pos hcand]
      split
      · rename_i hend
        refine ⟨fun h => (by cases h),
          fun _ => ⟨s, next.isSome, hstay fun rest hrest hattr => ?_, hcand⟩⟩
        exact (hend.resolve_right (not_not_intro hattr)) rest hrest
      · exact ⟨fun h => (by cases h), fun h => (by cases h)⟩

theorem resolveFrom_candidate {post : Bool} {cs : List (List UInt8)}
    (h : (v.resolveFrom post d cs).1 = some s) :
    v.Candidate s := by
  have hentry {d name} (h : v.entryOf d name = some s) : v.Candidate s := by
    have := List.find?_some h
    simp_all
  induction cs generalizing d with
  | nil => cases h
  | cons c cs ih =>
    cases cs with
    | nil => exact hentry h
    | cons c' cs =>
      rw [resolveFrom] at h
      rcases hlook : v.entryOf d c with _ | t
      · rw [hlook] at h
        cases h
      · rw [hlook] at h
        dsimp only at h
        split at h
        · exact ih h
        · cases h
          exact hentry hlook

/-- A slash at the start of a path stands for the root, where the walk starts anyway. -/
theorem findFile_strip (hhead : (strip path).head? ≠ some slash) :
    v.findFile path = v.findFileLoop (path.length + 1) (strip path) v.rootCluster := by
  have hstrip : strip (strip path) = strip path := if_neg hhead
  rw [findFile, findFileLoop, findFileLoop, hstrip]
  simp

theorem components_strip (path : List UInt8) : components (strip path) = components path := by
  rw [strip]
  split
  · rename_i hhead
    obtain ⟨r, rfl⟩ : ∃ r, path = slash :: r := List.head?_eq_some_iff.1 hhead
    rw [components_slash, List.tail_cons]
  · rfl

theorem getLast_strip (h : strip path ≠ []) : path.getLast? = (strip path).getLast? := by
  rw [strip] at h ⊢
  split at h
  · rename_i hhead
    obtain ⟨r, rfl⟩ : ∃ r, path = slash :: r := List.head?_eq_some_iff.1 hhead
    obtain ⟨x, r, rfl⟩ := List.exists_cons_of_ne_nil h
    rw [if_pos hhead]
    exact List.getLast?_cons_cons
  · rw [if_neg (by assumption)]

/-- `FindFile` resolves a path as it should where its walk departs nowhere from what it should be,
and does not where the walk ends at a deleted slot or one of a long name. -/
theorem findFile_of_departure (hwf : v.WellFormed) (path : CString)
    (hfit : ∀ c ∈ components path.chars, c.length ≤ kMaxPathElem) :
    (v.departure v.rootCluster ((strip path.chars).splitOn slash) = .nowhere →
      v.findFile path.chars = some (v.resolvePath path.chars)) ∧
    (v.departure v.rootCluster ((strip path.chars).splitOn slash) = .wrongSlot →
      v.findFile path.chars ≠ some (v.resolvePath path.chars)) := by
  obtain ⟨path, hnul⟩ := path
  show (v.departure v.rootCluster ((strip path).splitOn slash) = .nowhere → _) ∧ (_ → _)
  by_cases hpiece : ∃ ps, (strip path).splitOn slash = [] :: ps
  · obtain ⟨ps, hps⟩ := hpiece
    rw [hps, departure, if_pos rfl]
    exact ⟨fun h => (by cases h), fun h => (by cases h)⟩
  · have hne : strip path ≠ [] := fun h => hpiece ⟨[], by rw [h]; rfl⟩
    have hhead : (strip path).head? ≠ some slash := by
      intro h
      obtain ⟨r, hr⟩ := List.head?_eq_some_iff.1 h
      exact hpiece ⟨r.splitOn slash, by simp [hr, List.splitOn_cons_eq_if_modifyHead]⟩
    have hlen : (strip path).length < path.length + 1 := Nat.lt_succ_of_le (strip_length path)
    obtain ⟨hsame, hwrong⟩ :=
      findFileLoop_of_departure hwf hlen hhead .root (by rwa [components_strip])
    rw [components_strip, ← getLast_strip hne, ← findFile_strip hhead] at hsame
    rw [← findFile_strip hhead] at hwrong
    refine ⟨hsame, fun h heq => ?_⟩
    obtain ⟨s, b, hfind, hcand⟩ := hwrong h
    rw [hfind] at heq
    exact hcand (resolveFrom_candidate (congrArg Prod.fst (Option.some.inj heq)).symm)

theorem findFile_of_departure_oneFile :
    oneFile.findFile [slash, 0x41] = some (oneFile.resolvePath [slash, 0x41]) :=
  (findFile_of_departure oneFile_wellFormed ⟨[slash, 0x41], by decide⟩ (by decide)).1
    (by decide +kernel)

/-- `//A` leads to nothing, where `/A` and `A` lead to a file. -/
theorem not_findFile_eq : ¬ ∀ (v : Volume) (path : CString), v.WellFormed →
    components path.chars ≠ [] →
    (∀ c ∈ components path.chars, c.length ≤ kMaxPathElem ∧ c ≠ [dot] ∧ c ≠ [dot, dot]) →
      v.findFile path.chars = some (v.resolvePath path.chars) := by
  intro h
  have hfind :=
    h oneFile ⟨[slash, slash, 0x41], by decide⟩ oneFile_wellFormed (by decide) (by decide)
  revert hfind
  decide +kernel

end Volume

end Moxia.Fat
