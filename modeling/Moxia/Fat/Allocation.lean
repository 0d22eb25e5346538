import Moxia.Fat.Chains
import Moxia.Fat.Small

/-!
# What `ExtendCluster` and `AllocateClusterchain` do to the FAT

Free clusters are linked in increasing order behind a cluster that had none behind it, or as a chain
of their own. The word of the last of them is `kEndOfClusterchain`, and no other word changes, so
all other chains stay as they were.
-/

namespace Moxia.Fat

open Lib

namespace Volume

variable {v : Volume} {c f : Nat} {l : List Nat}

/-- In use, and not marked as bad. -/
def IsUsed (v : Volume) (cluster : Nat) : Prop :=
  v.InRange cluster ∧ v.fat cluster ≠ 0 ∧ v.fat cluster ≠ 0x0ffffff7

instance (v : Volume) (cluster : Nat) : Decidable (v.IsUsed cluster) :=
  inferInstanceAs (Decidable (_ ∧ _))

/-- From each cluster in use the FAT leads to an end mark. -/
structure FatWellFormed (v : Volume) : Prop where
  numbers : v.NumbersOk
  chain : ∀ c, v.IsUsed c → ∃ l, v.IsChain c l

/-- The free clusters `ext` were linked in this order; besides theirs only the words of `tail`
changed. -/
structure Appends (v : Volume) (tail ext : List Nat) (v' : Volume) : Prop where
  only : v' = { v with fat := v'.fat }
  free : ∀ x ∈ ext, v.InRange x ∧ v.fat x = 0
  increasing : ext.Pairwise (· < ·)
  frame : ∀ x, x ∉ tail → x ∉ ext → v'.fat x = v.fat x

theorem Appends.other {v' : Volume} {tail ext m : List Nat} {g : Nat} (h : Appends v tail ext v')
    (hm : v.IsChain g m)
    (hd : tail.Disjoint m) : v'.IsChain g m := by
  refine hm.congr (by rw [h.only]) fun c hc => h.frame c (fun ht => hd ht hc) fun he => ?_
  exact hm.fat_ne_zero hc (h.free c he).2

theorem freeClusters_increasing : v.freeClusters.Pairwise (· < ·) :=
  List.Pairwise.filter _ (List.pairwise_lt_range' ..)

theorem linkFree_endMark : ∀ (fuel current candidate n : Nat) {v v' : Volume} {last : Nat},
    v.linkFree current candidate n fuel = some (v', last) → v'.fat last = kEndOfClusterchain := by
  have hdone : ∀ {current : Nat} {v v' : Volume} {last : Nat},
      some (v.setFat current kEndOfClusterchain, current) = some (v', last) →
        v'.fat last = kEndOfClusterchain := by
    intro current v v' last h
    cases h
    exact Function.update_self ..
  intro fuel
  induction fuel with
  | zero =>
    intro current candidate n v v' last h
    rw [linkFree] at h
    split at h
    · exact hdone h
    · cases h
  | succ fuel ih =>
    intro current candidate n v v' last h
    rw [linkFree] at h
    split at h
    · exact hdone h
    · obtain ⟨word, -, h⟩ := Option.bind_eq_some_iff.1 h
      split at h
      · exact ih _ _ _ h
      · exact ih _ _ _ h

theorem extendCluster_endMark {v' : Volume} {n last : Nat}
    (h : v.extendCluster c n = some (v', last)) :
    v'.fat last = kEndOfClusterchain := by
  obtain ⟨t, -, h⟩ := Option.bind_eq_some_iff.1 h
  exact linkFree_endMark _ _ _ _ h

/-- `ExtendCluster` links the free clusters behind the last cluster of each chain through `c`. -/
theorem IsChain.extendCluster_appends (h : v.IsChain c l) (hN : v.NumbersOk) {t n : Nat}
    (ht : l.getLast? = some t)
    (hn : n ≤ v.freeClusters.length) :
    ∃ v', v.extendCluster c n = some (v', ((v.freeClusters.take n).getLast?).getD t) ∧
      Appends v [t] (v.freeClusters.take n) v' ∧
      ∀ {g : Nat} {m : List Nat}, v.IsChain g m → c ∈ m →
        v'.IsChain g (m ++ v.freeClusters.take n) := by
  have hmem : t ∈ l := List.mem_of_getLast? ht
  have hlast : v.lastCluster c (v.numClusters + 2) = some t :=
    lastCluster_spec h ht _ (Nat.le_trans h.length_le (Nat.le_add_right _ _))
  obtain ⟨fat', hrun, -, hframe⟩ := linkFree_spec hN v.numClusters t 2 n (by omega) (Nat.le_refl 2)
    (.inr (h.fat_ne_zero hmem)) hn
  refine ⟨{ v with fat := fat' }, ?_, ⟨rfl, fun x => free_take,
    freeClusters_increasing.sublist (List.take_sublist _ _), fun x hx =>
      hframe x (by simpa using hx)⟩,
    fun {g m} hm hc => ?_⟩
  · rw [Volume.extendCluster, hlast, Option.bind_eq_bind, Option.bind_some]
    exact hrun
  · -- every chain through `c` ends with `t`
    obtain ⟨l₁, l₂, rfl⟩ := List.append_of_mem hc
    have hsuf : v.IsChain c (c :: l₂) :=
      ⟨hm.chain.of_append, fun x hx => hm.inRange x (List.mem_append_right _ hx)⟩
    have htm : (l₁ ++ c :: l₂).getLast? = some t := by
      rw [List.getLast?_append_of_ne_nil _ (List.cons_ne_nil _ _), ← ht, h.unique hsuf]
    obtain ⟨hsome, -⟩ := hm.extendCluster hN (n := n) hc htm
    obtain ⟨w, hw, -, hext⟩ := hsome hn
    rw [Volume.extendCluster, hlast, Option.bind_eq_bind, Option.bind_some] at hw
    cases hrun.symm.trans hw
    exact hext.chain hm

theorem getLast?_append_eq {t : Nat} (ht : l.getLast? = some t) (ext : List Nat) :
    (l ++ ext).getLast? = some ((ext.getLast?).getD t) := by
  rw [List.getLast?_append, ht]
  cases ext.getLast? <;> rfl

theorem allocateClusterchain_endMark (hN : v.NumbersOk) {v' : Volume} {n : Nat} {m : List Nat}
    (hn : max n 1 ≤ v.freeClusters.length) (h : v.allocateClusterchain n = some (v', f))
    (hm : v'.IsChain f m) :
    ∃ last, m.getLast? = some last ∧ v'.fat last = kEndOfClusterchain := by
  obtain ⟨c, hfirst, h⟩ := Option.bind_eq_some_iff.1 h
  rw [firstFree_eq _ _ (by omega), ← freeClusters] at hfirst
  obtain ⟨rest, hfree⟩ := List.head?_eq_some_iff.1 hfirst
  have hc : v.InRange c ∧ v.fat c = 0 := mem_freeClusters.1 (hfree ▸ List.mem_cons_self)
  set v₁ := v.setFat c kEndOfClusterchain with hv₁
  have hword : v₁.fat c = kEndOfClusterchain := Function.update_self ..
  have hchain₁ : v₁.IsChain c [c] := isChain_singleton (by rw [hword]; rfl) hc.1
  by_cases hn1 : n > 1
  · rw [if_pos hn1] at h
    obtain ⟨⟨w, last⟩, hrun, h⟩ := Option.bind_eq_some_iff.1 h
    obtain ⟨rfl, rfl⟩ := Prod.mk.inj (Option.some.inj h)
    obtain ⟨w', hrun', -, hext⟩ := hchain₁.extendCluster_appends (n := n - 1) hN rfl (by
      rw [freeClusters_setFat hfree (by decide)]
      rw [hfree, List.length_cons] at hn
      omega)
    obtain ⟨rfl, rfl⟩ := Prod.mk.inj (Option.some.inj (hrun.symm.trans hrun'))
    rw [hm.unique (hext hchain₁ (List.mem_singleton_self _))]
    exact ⟨_, getLast?_append_eq rfl _, extendCluster_endMark hrun⟩
  · rw [if_neg hn1] at h
    obtain ⟨rfl, rfl⟩ := Prod.mk.inj (Option.some.inj h)
    rw [hm.unique hchain₁]
    exact ⟨_, rfl, hword⟩

/-- Both calls take as many free clusters as they are to take, in increasing order, and change no
word of any other chain. -/
theorem chainAllocation_exact (hwf : v.FatWellFormed) (n : Nat) :
    (∀ c, v.IsUsed c → n ≤ v.freeClusters.length → ∃ v' l t ext last,
      v.extendCluster c n = some (v', last) ∧ v.IsChain c l ∧ l.getLast? = some t ∧
      ext.length = n ∧ Appends v [t] ext v' ∧
      (∀ g m, v.IsChain g m → c ∈ m → v'.IsChain g (m ++ ext)) ∧
      (∀ g m, v.IsChain g m → t ∉ m → v'.IsChain g m) ∧
      (l ++ ext).getLast? = some last ∧ v'.fat last = kEndOfClusterchain) ∧
    (max n 1 ≤ v.freeClusters.length → ∃ v' ext first last,
      v.allocateClusterchain n = some (v', first) ∧ ext.length = max n 1 ∧ Appends v [] ext v' ∧
      v'.IsChain first ext ∧ (∀ g m, v.IsChain g m → v'.IsChain g m) ∧
      ext.getLast? = some last ∧ v'.fat last = kEndOfClusterchain) := by
  have hlen : ∀ {k}, k ≤ v.freeClusters.length → (v.freeClusters.take k).length = k := fun hk => by
    rw [List.length_take, Nat.min_eq_left hk]
  constructor
  · intro c hc hn
    obtain ⟨l, hl⟩ := hwf.chain c hc
    obtain ⟨t, ht⟩ := Option.ne_none_iff_exists'.1 (mt List.getLast?_eq_none_iff.1 hl.chain.ne_nil)
    obtain ⟨v', hrun, happ, hext⟩ := hl.extendCluster_appends hwf.numbers ht hn
    refine ⟨v', l, t, _, _, hrun, hl, ht, hlen hn, happ, fun g m => hext, fun g m hm htm => ?_,
      getLast?_append_eq ht _, extendCluster_endMark hrun⟩
    exact happ.other hm (List.singleton_disjoint.2 htm)
  · intro hn
    obtain ⟨v', f, hrun, hdata, hchain, hext⟩ := (allocateClusterchain_spec hwf.numbers n).1 hn
    obtain ⟨last, hlast, hword⟩ := allocateClusterchain_endMark hwf.numbers hn hrun hchain
    have happ : Appends v [] (v.freeClusters.take (max n 1)) v' := by
      refine ⟨?_, hext.free, freeClusters_increasing.sublist (List.take_sublist _ _), hext.frame⟩
      obtain ⟨bpb, numClusters, fat, data⟩ := v'
      obtain rfl : bpb = v.bpb := hext.bpb
      obtain rfl : numClusters = v.numClusters := hext.numClusters
      obtain rfl : data = v.data := hdata
      rfl
    exact ⟨v', _, f, last, hrun, hlen hn, happ, hchain, fun g m hm =>
      happ.other hm (List.disjoint_nil_left m),
      hlast, hword⟩

/-! The file of the volume `oneFile` gets two more clusters, or a chain of two clusters is made. -/

theorem oneFile_fatWellFormed : oneFile.FatWellFormed := by
  refine ⟨show (4 : Nat) + 2 ≤ 0x0ffffff8 by decide, fun c hc => ⟨[c], isChain_singleton ?_ hc.1⟩⟩
  have hall : ∀ c, c < 6 → oneFile.IsUsed c → isEndOfClusterchain (oneFile.fat c) = true := by
    decide +kernel
  exact hall c hc.1.2 hc

theorem chainAllocation_exact_oneFile :
    (∃ v' last, oneFile.extendCluster 3 2 = some (v', last) ∧ v'.fat last = kEndOfClusterchain ∧
      v'.IsChain 2 [2]) ∧
    ∃ v' first ext, oneFile.allocateClusterchain 2 = some (v', first) ∧ ext.length = 2 ∧
      v'.IsChain first ext := by
  obtain ⟨hextend, hallocate⟩ := chainAllocation_exact oneFile_fatWellFormed 2
  constructor
  · obtain ⟨v', l, t, ext, last, hrun, hl, ht, -, -, -, hother, -, hword⟩ :=
      hextend 3 (by decide +kernel) (by decide +kernel)
    have h3 : oneFile.IsChain 3 [3] := by refine isChain_singleton ?_ ?_ <;> decide +kernel
    obtain rfl : 3 = t := by
      rw [hl.unique h3] at ht
      exact Option.some.inj ht
    exact ⟨v', last, hrun, hword, hother 2 [2] oneFile_root (by decide)⟩
  · obtain ⟨v', ext, first, last, hrun, hlen, -, hchain, -⟩ := hallocate (by decide +kernel)
    exact ⟨v', first, ext, hrun, hlen, hchain⟩

end Volume

end Moxia.Fat
