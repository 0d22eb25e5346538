import Moxia.Fat.FindCreated
import Mathlib.Data.List.DropRight
import Mathlib.Data.List.GetD

/-!
# Listing a directory (`ListAllEntries`)

`FormatName` cuts the padding off a name and puts a dot before its extension; `NameIsEqual` pads it
again and goes on at the extension. So `FindFile` leads from a name that `ListAllEntries` prints
back to its entry, as long as no other slot in front of it has the name.
-/

namespace Moxia.Fat

open Lib

namespace Volume

variable {v : Volume} {s t : Slot} {d c k i : Nat} {l : List Nat} {xs rest : List UInt8}
    {g : Nat → UInt8}

/-- `n` characters of a name from `first` on as a C string: the spaces at the end are overwritten
with NULs. -/
def nameChars (v : Volume) (s : Slot) (first n : Nat) : List UInt8 :=
  (((List.range n).map fun i => v.name s (first + i)).rdropWhile (· = space)).takeWhile (· ≠ 0)

/-- `ReadName`: the base and the extension. -/
def readName (v : Volume) (s : Slot) : List UInt8 × List UInt8 :=
  (v.nameChars s 0 8, v.nameChars s 8 3)

def formatName (v : Volume) (s : Slot) : List UInt8 :=
  match v.readName s with
  | (base, ext) => if ext = [] then base else base ++ dot :: ext

/-- The slots of one cluster: the names that are printed, and whether an unused slot ends the
listing. -/
def listSlots (v : Volume) : List Slot → List (List UInt8) × Bool
  | [] => ([], false)
  | s :: slots =>
    if v.name s 0 = 0 then ([], true)
    else if v.name s 0 = 0xe5 then v.listSlots slots
    else if v.attr s = kLongName then v.listSlots slots
    else (v.formatName s :: (v.listSlots slots).1, (v.listSlots slots).2)

/-- `ListAllEntries`: the names in the order in which they are printed. -/
def listAllEntriesLoop (v : Volume) (dirCluster : Nat) : Nat → Option (List (List UInt8))
  | 0 => none
  | fuel + 1 =>
    if dirCluster = kEndOfClusterchain then some []
    else if v.InRange dirCluster then
      match v.listSlots ((List.range v.slotsPerCluster).map fun i => ⟨dirCluster, i⟩) with
      | (names, true) => some names
      | (names, false) => do
        let next ← v.nextCluster dirCluster
        let others ← v.listAllEntriesLoop next fuel
        some (names ++ others)
    else none

def listAllEntries (v : Volume) (dirCluster : Nat) : Option (List (List UInt8)) :=
  v.listAllEntriesLoop dirCluster (v.numClusters + 1)

/-- The slots up to the first unused one. -/
def usedSlots (v : Volume) (slots : List Slot) : List Slot := slots.takeWhile (v.name · 0 ≠ 0)

/-- In use, and no part of a long name. -/
def IsListed (v : Volume) (s : Slot) : Prop := v.name s 0 ≠ 0xe5 ∧ v.attr s ≠ kLongName

instance (v : Volume) (s : Slot) : Decidable (v.IsListed s) := inferInstanceAs (Decidable (_ ∧ _))

/-- The live entries of the directory with the clusters `l`. -/
def listed (v : Volume) (l : List Nat) : List Slot := (v.usedSlots (v.slots l)).filter v.IsListed

/-! ### What is printed -/

theorem listSlots_eq (v : Volume) (slots : List Slot) : v.listSlots slots =
    (((v.usedSlots slots).filter v.IsListed).map v.formatName,
      decide (∃ s ∈ slots, v.name s 0 = 0)) := by
  induction slots with
  | nil => rfl
  | cons s slots ih =>
    rw [listSlots]
    by_cases h0 : v.name s 0 = 0
    · simp [usedSlots, h0]
    have hused : v.usedSlots (s :: slots) = s :: v.usedSlots slots :=
      List.takeWhile_cons_of_pos (by simpa using h0)
    rw [if_neg h0, hused, ih]
    by_cases hdel : v.name s 0 = 0xe5
    · rw [if_pos hdel, List.filter_cons_of_neg (by simp [IsListed, hdel])]
      simp [h0]
    by_cases hlong : v.attr s = kLongName
    · rw [if_neg hdel, if_pos hlong, List.filter_cons_of_neg (by simp [IsListed, hlong])]
      simp [h0]
    · rw [if_neg hdel, if_neg hlong, List.filter_cons_of_pos (by simp [IsListed, hdel, hlong]),
        List.map_cons]
      simp [h0]

theorem usedSlots_append {slots : List Slot} (h : ∀ s ∈ slots, v.name s 0 ≠ 0)
    (slots' : List Slot) :
    v.usedSlots (slots ++ slots') = slots ++ v.usedSlots slots' :=
  List.takeWhile_append_of_pos fun s hs => by simpa using h s hs

theorem usedSlots_append_of_unused {slots : List Slot} (h : ∃ s ∈ slots, v.name s 0 = 0)
    (slots' : List Slot) :
    v.usedSlots (slots ++ slots') = v.usedSlots slots := by
  obtain ⟨s, hs, h0⟩ := h
  rw [usedSlots, List.takeWhile_append, if_neg, usedSlots]
  intro hlen
  have hall := List.takeWhile_eq_self_iff.1 ((List.takeWhile_prefix _).eq_of_length hlen)
  have := hall s hs
  simp [h0] at this

theorem IsChain.tail {b : Nat} (h : v.IsChain c (c :: b :: l)) : v.IsChain b (b :: l) :=
  ⟨h.chain.of_append (l := [c]), fun x hx => h.inRange x (List.mem_cons_of_mem _ hx)⟩

theorem listAllEntriesLoop_spec (hN : v.NumbersOk) : ∀ {fuel c l}, v.IsChain c l → l.length < fuel →
    v.listAllEntriesLoop c fuel = some ((v.listed l).map v.formatName) := by
  intro fuel
  induction fuel with
  | zero => exact fun _ h => absurd h (Nat.not_lt_zero _)
  | succ fuel ih =>
    intro c l h hlen
    obtain ⟨m, rfl⟩ := h.chain.exists_cons
    have hslots : ((List.range v.slotsPerCluster).map fun i => (⟨c, i⟩ : Slot)) =
      v.slots [c] := by simp [slots]
    rw [listAllEntriesLoop, if_neg (h.ne_endMark hN List.mem_cons_self), if_pos h.inRange_head,
      hslots, listSlots_eq,
      listed, slots_cons (l := m)]
    by_cases hend : ∃ s ∈ v.slots [c], v.name s 0 = 0
    · rw [decide_eq_true hend, usedSlots_append_of_unused hend]
    · rw [decide_eq_false hend]
      have hused : ∀ s ∈ v.slots [c], v.name s 0 ≠ 0 := fun s hs h0 => hend ⟨s, hs, h0⟩
      have hself : v.usedSlots (v.slots [c]) = v.slots [c] :=
        List.takeWhile_eq_self_iff.2 fun s hs => by simpa using hused s hs
      rw [usedSlots_append hused, hself, List.filter_append, List.map_append]
      dsimp only
      rw [h.nextCluster (i := 0) rfl, Option.bind_eq_bind, Option.bind_some]
      cases m with
      | nil =>
        obtain ⟨fuel, rfl⟩ : ∃ n, fuel = n + 1 :=
          ⟨fuel - 1, by simp only [List.length_singleton] at hlen; omega⟩
        rw [show ([c] : List Nat)[0 + 1]? = none from rfl, Option.getD_none,
          listAllEntriesLoop, if_pos rfl]
        simp [usedSlots, slots]
      | cons b m =>
        rw [show (c :: b :: m)[0 + 1]? = some b from rfl, Option.getD_some,
          ih h.tail (by simpa using hlen)]
        rfl

/-! ### Names and their 11 bytes -/

theorem name83Loop_append (hxs : ∀ x ∈ xs, x ≠ dot ∧ toupper x = x) (hk : k + xs.length ≤ 11) :
    name83Loop (xs ++ rest) k g = name83Loop rest (k + xs.length) (Lib.store g k xs.length fun i =>
      xs.getD i 0) := by
  induction xs generalizing k g with
  | nil =>
    congr 1
    funext o
    exact (store_of_not_mem (by simp only [List.length_nil]; omega)).symm
  | cons x xs ih =>
    obtain ⟨hdot, hup⟩ := hxs x List.mem_cons_self
    rw [List.length_cons] at hk
    rw [List.cons_append, name83Loop, if_pos (by omega), if_neg hdot, hup,
      ih (fun y hy => hxs y (List.mem_cons_of_mem _ hy)) (by omega), List.length_cons,
        Nat.add_right_comm, Nat.add_assoc]
    congr 1
    funext o
    rw [Lib.store, Lib.store]
    rcases Nat.lt_trichotomy o k with ho | rfl | ho
    · rw [if_neg (by omega), if_neg (by omega), Function.update_of_ne (by omega)]
    · rw [if_neg (by omega), if_pos (by omega), Function.update_self, Nat.sub_self,
        List.getD_cons_zero]
    · rw [Function.update_of_ne (by omega)]
      obtain ⟨j, rfl⟩ : ∃ j, o = k + 1 + j := ⟨o - (k + 1), by omega⟩
      have hj : k + 1 + j - k = j + 1 := by omega
      rw [hj, List.getD_cons_succ, Nat.add_sub_cancel_left]
      congr 1
      exact propext (by omega)

theorem name83Loop_eq (hxs : ∀ x ∈ xs, x ≠ dot ∧ toupper x = x) (hk : k + xs.length ≤ 11) :
    name83Loop xs k g = Lib.store g k xs.length fun i => xs.getD i 0 := by
  have h := @name83Loop_append k xs [] g hxs hk
  rwa [List.append_nil, name83Loop] at h

theorem store_spaces (hg : ∀ o, k ≤ o → g o = space) {o : Nat} (ho : k ≤ o) :
    Lib.store g k xs.length (fun i => xs.getD i 0) o = xs.getD (o - k) space := by
  by_cases hlt : o < k + xs.length
  · rw [store_of_mem ⟨ho, hlt⟩, List.getD_eq_getElem _ _ (by omega),
      List.getD_eq_getElem _ _ (by omega)]
  · rw [store_of_not_mem (.inr (by omega)), hg o ho, List.getD_eq_default _ _ (by omega)]

/-- Padding brings back what `ReadName` has cut off. -/
theorem getD_rdropWhile (xs : List UInt8) (i : Nat) :
    (xs.rdropWhile (· = space)).getD i space = xs.getD i space := by
  conv_rhs => rw [← List.rdropWhile_append_rtakeWhile (p := fun c => decide (c = space)) (l := xs)]
  by_cases hi : i < (xs.rdropWhile (· = space)).length
  · rw [List.getD_append _ _ _ _ hi]
  · rw [List.getD_append_right _ _ _ _ (by omega), List.getD_eq_default _ _ (by omega)]
    by_cases hi' : i - (xs.rdropWhile (· = space)).length < (xs.rtakeWhile (· = space)).length
    · rw [List.getD_eq_getElem _ _ hi']
      have := List.mem_rtakeWhile_imp (List.getElem_mem hi')
      exact (by simpa using this : _ = space).symm
    · rw [List.getD_eq_default _ _ (by omega)]

/-- Printable, no lower-case letter, no dot and no slash. -/
def ValidChar (c : UInt8) : Prop := (0x20 ≤ c ∧ c ≤ 0x7e) ∧ ¬ (0x61 ≤ c ∧ c ≤ 0x7a) ∧
    c ≠ dot ∧ c ≠ slash

instance (c : UInt8) : Decidable (ValidChar c) := inferInstanceAs (Decidable (_ ∧ _))

/-- An 8.3 name. -/
structure ValidName (v : Volume) (s : Slot) : Prop where
  chars : ∀ i, i < 11 → ValidChar (v.name s i)
  nonblank : ∃ i, i < 11 ∧ v.name s i ≠ space

theorem nameChars_length (v : Volume) (s : Slot) (first n : Nat) :
    (v.nameChars s first n).length ≤ n := by
  have htake :=
    (List.takeWhile_prefix
      (l := ((List.range n).map fun i => v.name s (first + i)).rdropWhile (· = space))
    (· ≠ 0)).length_le
  have hdrop :=
    (List.rdropWhile_prefix (· = space) ((List.range n).map fun i =>
      v.name s (first + i))).length_le
  rw [List.length_map, List.length_range] at hdrop
  exact Nat.le_trans htake hdrop

theorem mem_nameChars {first n : Nat} {x : UInt8} (h : x ∈ v.nameChars s first n) :
    ∃ i, i < n ∧ x = v.name s (first + i) := by
  have hmem := (List.rdropWhile_prefix _ _).subset ((List.takeWhile_prefix _).subset h)
  obtain ⟨i, hi, rfl⟩ := List.mem_map.1 hmem
  exact ⟨i, List.mem_range.1 hi, rfl⟩

/-- At most 8 characters, a dot and 3 characters. -/
theorem formatName_length (v : Volume) (s : Slot) : (v.formatName s).length ≤ kMaxPathElem := by
  have hbase := nameChars_length v s 0 8
  have hext := nameChars_length v s 8 3
  rw [formatName, readName, kMaxPathElem]
  dsimp only
  split
  · omega
  · rw [List.length_append, List.length_cons]
    omega

namespace ValidName

theorem nameChars (h : v.ValidName s) {first n : Nat} (hn : first + n ≤ 11) {x : UInt8}
    (hx : x ∈ v.nameChars s first n) : ValidChar x := by
  obtain ⟨i, hi, rfl⟩ := mem_nameChars hx
  exact h.chars _ (by omega)

theorem getD_nameChars (h : v.ValidName s) {first n : Nat} (hn : first + n ≤ 11) (hi : i < n) :
    (v.nameChars s first n).getD i space = v.name s (first + i) := by
  -- there is no NUL in a valid name
  rw [Volume.nameChars, List.takeWhile_eq_self_iff.2, getD_rdropWhile,
    List.getD_eq_getElem _ _ (by simpa using hi)]
  · simp
  · intro x hx
    obtain ⟨j, hj, rfl⟩ := List.mem_map.1 ((List.rdropWhile_prefix _ _).subset hx)
    have := (h.chars (first + j) (by have := List.mem_range.1 hj; omega)).1.1
    simp only [ne_eq, decide_not, Bool.not_eq_eq_eq_not, Bool.not_true, decide_eq_false_iff_not]
    intro h0
    rw [h0] at this
    exact absurd this (by decide)

theorem slash_not_mem (h : v.ValidName s) : slash ∉ v.formatName s := by
  intro hmem
  have hbase : slash ∉ v.nameChars s 0 8 := fun hx => absurd (h.nameChars (by omega) hx) (by decide)
  have hext : slash ∉ v.nameChars s 8 3 :=
    fun hx => absurd (h.nameChars (Nat.le_refl _) hx) (by decide)
  rw [formatName, readName] at hmem
  dsimp only at hmem
  split at hmem
  · exact hbase hmem
  · rcases List.mem_append.1 hmem with hmem | hmem
    · exact hbase hmem
    · exact hext ((List.mem_cons.1 hmem).resolve_left (by decide))

theorem nameIsEqual (h : v.ValidName s) : v.nameIsEqual s (v.formatName s) := by
  have hlen := nameChars_length v s 0 8
  have hlen' := nameChars_length v s 8 3
  have hvalid : ∀ c, ValidChar c → c ≠ dot ∧ toupper c = c := fun c hc => ⟨hc.2.2.1, if_neg hc.2.1⟩
  have hbase : ∀ x ∈ v.nameChars s 0 8, x ≠ dot ∧ toupper x = x := fun x hx =>
    hvalid x (h.nameChars (by omega) hx)
  have hext : ∀ x ∈ v.nameChars s 8 3, x ≠ dot ∧ toupper x = x :=
    fun x hx => hvalid x (h.nameChars (Nat.le_refl _) hx)
  -- the base, and the extension behind it, with their padding
  set base := v.nameChars s 0 8 with hbase_def
  set ext := v.nameChars s 8 3 with hext_def
  have hget : ∀ i, i < 8 → v.name s i = base.getD i space := fun i hi => by
    rw [hbase_def, h.getD_nameChars (by omega) hi, Nat.zero_add]
  have hget' : ∀ i, 8 ≤ i → i < 11 → v.name s i = ext.getD (i - 8) space := fun i hlo hhi => by
    rw [hext_def, h.getD_nameChars (Nat.le_refl _) (by omega), Nat.add_sub_cancel' hlo]
  have hfirst : ∀ i, Lib.store (fun _ => space) 0 base.length (fun i => base.getD i 0) i =
    base.getD i space :=
    fun i => store_spaces (fun _ _ => rfl) (Nat.zero_le i)
  have hpad : ∀ o, 8 ≤ o → base.getD o space = space :=
    fun o ho => List.getD_eq_default _ _ (by omega)
  intro i hi
  rw [formatName, readName, name83, ← hbase_def, ← hext_def]
  dsimp only
  split
  · rename_i hnil
    rw [name83Loop_eq hbase (by omega), hfirst]
    by_cases hi8 : i < 8
    · exact hget i hi8
    · rw [hget' i (by omega) hi, hnil, hpad i (by omega), List.getD_nil]
  · rw [name83Loop_append hbase (by omega), Nat.zero_add, name83Loop, if_pos (by omega), if_pos rfl,
      name83Loop_eq hext (by omega)]
    by_cases hi8 : i < 8
    · rw [store_of_not_mem (.inl hi8), hfirst, hget i hi8]
    · rw [store_spaces (fun o ho => (hfirst o).trans (hpad o ho)) (by omega), hget' i (by omega) hi]

end ValidName

/-- The same 11 bytes. -/
def SameName (v : Volume) (s t : Slot) : Prop := ∀ i, i < 11 → v.name s i = v.name t i

/-- The entries other than `.` and `..` have valid names of their own. -/
structure NamesOk (v : Volume) (l : List Nat) : Prop where
  valid : ∀ s ∈ v.listed l, ¬ v.IsDots s → v.ValidName s
  distinct : ∀ s ∈ v.listed l, ∀ t ∈ v.listed l, ¬ v.IsDots s → ¬ v.IsDots t →
    v.SameName s t → s = t
  stale : ∀ s ∈ v.listed l, ¬ v.IsDots s → ∀ t ∈ v.usedSlots (v.slots l), t ∉ v.listed l →
    ¬ v.SameName s t

theorem lookup_formatName (hok : v.NamesOk l) (hs : s ∈ v.listed l) (hd : ¬ v.IsDots s) :
    v.lookup l (v.formatName s) = some s := by
  have hvalid := hok.valid s hs hd
  have hused := List.mem_of_mem_filter hs
  obtain ⟨pre, post, hsplit, hnot⟩ := List.eq_append_cons_of_mem hused
  have hslots : v.slots l = pre ++ s :: (post ++ (v.slots l).dropWhile (v.name · 0 ≠ 0)) := by
    conv_lhs => rw [← List.takeWhile_append_dropWhile (p := (v.name · 0 ≠ 0)) (l := v.slots l)]
    rw [← usedSlots, hsplit, List.append_assoc, List.cons_append]
  have h0 : ∀ t ∈ v.usedSlots (v.slots l), v.name t 0 ≠ 0 := fun t ht => by
    simpa using List.mem_takeWhile_imp ht
  refine lookup_of_split hslots (fun t ht => ?_) (h0 s hused) hvalid.nameIsEqual
  have htu : t ∈ v.usedSlots (v.slots l) := by
    rw [hsplit]
    exact List.mem_append_left _ ht
  refine ⟨h0 t htu, fun heq => ?_⟩
  have hsame : v.SameName s t := fun i hi => (hvalid.nameIsEqual i hi).trans (heq i hi).symm
  by_cases htl : t ∈ v.listed l
  · by_cases htd : v.IsDots t
    · exact name83_ne_dot _ 0 ((heq 0 (by omega)).symm.trans htd.1)
    · exact hnot (hok.distinct s hs t htl hd htd hsame ▸ ht)
  · exact hok.stale s hs hd t htu htl hsame

/-- `ListAllEntries` prints one name for each live entry, and `FindFile` leads from this name to the
entry. -/
theorem listing_and_lookup (hN : v.NumbersOk) (h : v.IsChain d l) (hok : v.NamesOk l) :
    v.listAllEntries d = some ((v.listed l).map v.formatName) ∧
    (∀ s ∈ v.listed l, (v.formatName s).length + 1 ≤ 13) ∧
    ∀ s ∈ v.listed l, ¬ v.IsDots s →
      v.findFileLoop ((v.formatName s).length + 1) (v.formatName s) d = some (some s, false) := by
  refine ⟨listAllEntriesLoop_spec hN h (Nat.lt_succ_of_le h.length_le),
    fun s _ => Nat.succ_le_succ (formatName_length v s), fun s hs hd => ?_⟩
  have hno := (hok.valid s hs hd).slash_not_mem
  obtain ⟨hstrip, hhead⟩ := strip_of_not_mem hno
  have hnext : nextPathElement (strip (v.formatName s)) = (v.formatName s, none) := by
    rw [hstrip, nextPathElement_of_not_mem hno]
  have hstart : v.startDir ⟨false, v.formatName s⟩ d = d :=
    if_neg fun hz => by have := h.inRange_head.1; simp at hz; omega
  rw [findFileLoop_succ hnext, hhead, scanElem_eq hN (hstart.symm ▸ h) (formatName_length v s),
    lookup_formatName hok hs hd]
  rfl

/-! ### A directory with a file, a deleted entry and a part of a long name -/

def listedFat : List Nat := [0, 0, kEndOfClusterchain, kEndOfClusterchain]

/-- `A B.C`, then a deleted entry, a part of a long name, and `.C`. -/
def listedRoot : List UInt8 :=
  entryBytes [0x41, 0x20, 0x42, 0x20, 0x20, 0x20, 0x20, 0x20, 0x43, 0x20, 0x20] 0x20 3 3 ++
    entryBytes (0xe5 :: List.replicate 10 0x20) 0x20 0 0 ++
      entryBytes (0x41 :: List.replicate 10 0x20) kLongName 0 0 ++
    entryBytes (List.replicate 8 0x20 ++ [0x43, 0x20, 0x20]) 0x20 0 0

def listedVolume : Volume := small 4 listedFat listedRoot

theorem listedVolume_listed : listedVolume.listed [2] = [⟨2, 0⟩, ⟨2, 3⟩] := by decide +kernel

theorem listedVolume_usedSlots : listedVolume.usedSlots (listedVolume.slots [2]) =
    [⟨2, 0⟩, ⟨2, 1⟩, ⟨2, 2⟩, ⟨2, 3⟩] := by
  decide +kernel

theorem listedVolume_namesOk : listedVolume.NamesOk [2] := by
  constructor
  · intro s hs _
    rw [listedVolume_listed, List.mem_cons, List.mem_singleton] at hs
    rcases hs with rfl | rfl
    · exact ⟨by decide +kernel, 0, by decide, by decide +kernel⟩
    · exact ⟨by decide +kernel, 8, by decide, by decide +kernel⟩
  · intro s hs t ht _ _ hsame
    rw [listedVolume_listed, List.mem_cons, List.mem_singleton] at hs ht
    rcases hs with rfl | rfl <;> rcases ht with rfl | rfl
    · rfl
    · exact absurd (hsame 0 (by decide)) (by decide +kernel)
    · exact absurd (hsame 0 (by decide)) (by decide +kernel)
    · rfl
  · intro s hs _ t ht hnot hsame
    rw [listedVolume_usedSlots] at ht
    rw [listedVolume_listed] at hs hnot
    simp only [List.mem_cons, List.not_mem_nil, or_false] at hs ht hnot
    rcases ht with rfl | rfl | rfl | rfl
    · exact hnot (.inl rfl)
    · rcases hs with rfl | rfl <;> exact absurd (hsame 0 (by decide)) (by decide +kernel)
    · rcases hs with rfl | rfl
      · exact absurd (hsame 2 (by decide)) (by decide +kernel)
      · exact absurd (hsame 0 (by decide)) (by decide +kernel)
    · exact hnot (.inr rfl)

theorem listing_and_lookup_listedVolume : listedVolume.listAllEntries 2 =
      some [[0x41, 0x20, 0x42, dot, 0x43], [dot, 0x43]] ∧
    listedVolume.findFileLoop 3 [dot, 0x43] 2 = some (some ⟨2, 3⟩, false) := by
  have hname : listedVolume.formatName ⟨2, 0⟩ = [0x41, 0x20, 0x42, dot, 0x43] := by decide +kernel
  have hname' : listedVolume.formatName ⟨2, 3⟩ = [dot, 0x43] := by decide +kernel
  obtain ⟨hlist, -, hfind⟩ := listing_and_lookup (v := listedVolume) (d := 2) (l := [2])
    (show (4 : Nat) + 2 ≤ 0x0ffffff8 by decide) (small_root (by decide) (by decide))
      listedVolume_namesOk
  rw [listedVolume_listed] at hlist hfind
  have h := hfind ⟨2, 3⟩ (by decide) (by decide +kernel)
  rw [hname'] at h
  refine ⟨?_, h⟩
  rw [hlist, List.map_cons, List.map_cons, List.map_nil, hname, hname']

end Volume

end Moxia.Fat
