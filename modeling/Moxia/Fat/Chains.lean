import Moxia.Lib.Chain
import Moxia.Fat.Volume
import Mathlib.Data.List.Range
import Mathlib.Data.List.Perm.Subperm

/-!
# Cluster chains

The chains of a FAT are the chains of `succ`, the successor a FAT word names. `ExtendCluster`
appends the first free clusters to a chain, `AllocateClusterchain` makes a new chain of them, and
both leave every other FAT word alone.
-/

namespace Moxia.Fat

open Lib

namespace Volume

variable {v : Volume} {c f : Nat} {l : List Nat}

/-- The cluster a FAT word names as the next one. -/
def succ (v : Volume) (cluster : Nat) : Option Nat :=
  if isEndOfClusterchain (v.fat cluster) then none else some (v.fat cluster)

/-- The clusters of the volume from `f` on to an end mark. -/
structure IsChain (v : Volume) (f : Nat) (l : List Nat) : Prop where
  chain : Chain v.succ f l
  inRange : ∀ c ∈ l, v.InRange c

/-- Cluster numbers are not end marks. -/
def NumbersOk (v : Volume) : Prop := v.numClusters + 2 ≤ 0x0ffffff8

/-- The free clusters, in the order in which they are handed out. -/
def freeFrom (v : Volume) (candidate n : Nat) : List Nat :=
  (List.range' candidate n).filter fun c => v.fat c = 0

def freeClusters (v : Volume) : List Nat := v.freeFrom 2 v.numClusters

theorem mem_freeFrom {candidate n : Nat} : c ∈ v.freeFrom candidate n ↔
    (candidate ≤ c ∧ c < candidate + n) ∧ v.fat c = 0 := by
  simp [freeFrom, List.mem_range'_1]

theorem mem_freeClusters : c ∈ v.freeClusters ↔ v.InRange c ∧ v.fat c = 0 := by
  rw [freeClusters, mem_freeFrom, InRange, Nat.add_comm 2]

theorem nodup_freeFrom {candidate n : Nat} : (v.freeFrom candidate n).Nodup :=
  List.Nodup.filter _ List.nodup_range'

theorem freeFrom_succ (v : Volume) (candidate n : Nat) : v.freeFrom candidate (n + 1) =
    if v.fat candidate = 0 then candidate :: v.freeFrom (candidate + 1) n
    else v.freeFrom (candidate + 1) n := by
  rw [freeFrom, List.range'_succ, List.filter_cons]
  simp [freeFrom]

theorem freeFrom_congr {v' : Volume} {candidate n : Nat}
    (h : ∀ c, candidate ≤ c → c < candidate + n → (v'.fat c = 0 ↔ v.fat c = 0)) :
    v'.freeFrom candidate n = v.freeFrom candidate n := by
  refine List.filter_congr fun c hc => ?_
  rw [List.mem_range'_1] at hc
  simp only [h c hc.1 hc.2]

theorem freeFrom_setFat {current word candidate n : Nat} (hw : word ≠ 0)
    (hcur : current < candidate ∨ v.fat current ≠ 0) :
    (v.setFat current word).freeFrom candidate n = v.freeFrom candidate n := by
  refine freeFrom_congr fun c hlo _ => ?_
  by_cases hc : c = current
  · subst hc
    simp only [setFat, Function.update_self, hw, hcur.resolve_left (by omega)]
  · simp only [setFat, Function.update_of_ne hc]

theorem IsChain.fat_ne_zero (h : v.IsChain f l) (hc : c ∈ l) : v.fat c ≠ 0 := by
  intro h0
  have hs : v.succ c = some 0 := by simp [succ, h0, isEndOfClusterchain]
  obtain ⟨i, hi⟩ := List.mem_iff_getElem?.1 hc
  have hnext := h.chain.next_getElem hi
  rw [hs] at hnext
  have := (h.inRange 0 (List.mem_of_getElem? hnext.symm)).1
  omega

theorem IsChain.inRange_head (h : v.IsChain f l) : v.InRange f := h.inRange f h.chain.mem_head

theorem IsChain.length_le (h : v.IsChain f l) : l.length ≤ v.numClusters := by
  have hsub : l ⊆ List.range' 2 v.numClusters := fun c hc => by
    have := h.inRange c hc
    rw [InRange] at this
    rw [List.mem_range'_1]
    omega
  have := (List.subperm_of_subset h.chain.nodup hsub).length_le
  rwa [List.length_range'] at this

theorem IsChain.unique {m : List Nat} (h : v.IsChain f l) (h' : v.IsChain f m) : l = m :=
  h.chain.unique h'.chain

/-- The FAT words of the chain are what matters to it. -/
theorem IsChain.congr {v' : Volume} (h : v.IsChain f l) (hn : v'.numClusters = v.numClusters)
    (hf : ∀ c ∈ l, v'.fat c = v.fat c) : v'.IsChain f l := by
  refine ⟨h.chain.congr fun c hc => by rw [succ, hf c hc, succ], fun c hc => ?_⟩
  rw [InRange, hn]
  exact h.inRange c hc

theorem IsChain.lt_endMark (h : v.IsChain f l) (hN : v.NumbersOk) (hc : c ∈ l) :
    isEndOfClusterchain c = false := by
  have := (h.inRange c hc).2
  rw [NumbersOk] at hN
  simp only [isEndOfClusterchain, decide_eq_false_iff_not]
  omega

theorem IsChain.ne_endMark (h : v.IsChain f l) (hN : v.NumbersOk) (hc : c ∈ l) :
    c ≠ kEndOfClusterchain := by
  rintro rfl
  exact absurd (h.lt_endMark hN hc) (by decide)

theorem IsChain.nextCluster (h : v.IsChain f l) {i : Nat} (hi : l[i]? = some c) :
    v.nextCluster c = some ((l[i + 1]?).getD kEndOfClusterchain) := by
  have hr := (h.inRange c (List.mem_of_getElem? hi)).2
  have hnext := h.chain.next_getElem hi
  rw [Volume.nextCluster, readFat, if_pos hr, Option.bind_eq_bind, Option.bind_some, ← hnext, succ]
  split <;> rfl

/-! ### `ExtendCluster` -/

/-- The walk to the end of the chain. -/
theorem lastCluster_spec {t : Nat} (h : v.IsChain f l) (ht : l.getLast? = some t) :
    ∀ fuel, l.length ≤ fuel → v.lastCluster f fuel = some t := by
  obtain ⟨hchain, hrange⟩ := h
  induction hchain with
  | @last a hs =>
    intro fuel hfuel
    cases ht
    obtain ⟨fuel, rfl⟩ := Nat.exists_eq_add_of_le' hfuel
    have hend : isEndOfClusterchain (v.fat a) = true := by
      by_contra hne
      rw [succ, if_neg hne] at hs
      cases hs
    simp [lastCluster, readFat, (hrange a (List.mem_singleton_self a)).2, hend]
  | @cons a b l hs hl ih =>
    intro fuel hfuel
    obtain ⟨fuel, rfl⟩ :=
      Nat.exists_eq_add_of_le' (Nat.le_trans (Nat.succ_le_succ (Nat.zero_le _)) hfuel)
    have hnot : isEndOfClusterchain (v.fat a) = false := by
      by_contra hne
      rw [succ, if_pos (by simpa using hne)] at hs
      cases hs
    have hb : v.fat a = b := by
      rw [succ, hnot] at hs
      exact Option.some.inj hs
    have ht' : l.getLast? = some t := by
      obtain ⟨l', rfl⟩ := hl.exists_cons
      rwa [List.getLast?_cons_cons] at ht
    simp only [List.length_cons] at hfuel
    have hrest := ih ht' (fun c hc => hrange c (List.mem_cons_of_mem _ hc)) fuel (by omega)
    rw [hb] at hnot
    simp only [lastCluster, readFat, if_pos (hrange a List.mem_cons_self).2, Option.bind_eq_bind,
      Option.bind_some, hb, hnot, Bool.false_eq_true, if_false, hrest]

/-- The FAT words from `current` on are linked to the first `n` free clusters. -/
theorem linkFree_spec (hN : v.NumbersOk) : ∀ (fuel current candidate n : Nat),
    candidate + fuel = v.numClusters + 2 → 2 ≤ candidate →
      (current < candidate ∨ v.fat current ≠ 0) → n ≤ (v.freeFrom candidate fuel).length →
    ∃ fat', v.linkFree current candidate n fuel = some ({ v with fat := fat' },
        (((v.freeFrom candidate fuel).take n).getLast?).getD current) ∧
      Chain (succ { v with fat := fat' }) current (current :: (v.freeFrom candidate fuel).take n) ∧
      ∀ c, c ≠ current → c ∉ (v.freeFrom candidate fuel).take n → fat' c = v.fat c := by
  intro fuel
  induction fuel generalizing v with
  | zero =>
    intro current candidate n _ _ _ hn
    have hn0 : n = 0 := by simpa [freeFrom] using hn
    subst hn0
    refine ⟨Function.update v.fat current kEndOfClusterchain, rfl, ?_, fun c hc _ =>
      Function.update_of_ne hc _ _⟩
    exact .last (by simp [succ, isEndOfClusterchain, kEndOfClusterchain])
  | succ fuel ih =>
    intro current candidate n hsum hcand hcur hn
    by_cases hn0 : n = 0
    · subst hn0
      refine ⟨Function.update v.fat current kEndOfClusterchain, rfl, ?_,
        fun c hc _ => Function.update_of_ne hc _ _⟩
      exact .last (by simp [succ, isEndOfClusterchain, kEndOfClusterchain])
    have hread : v.readFat candidate = some (v.fat candidate) := if_pos (by omega)
    rw [freeFrom_succ] at hn ⊢
    by_cases hfree : v.fat candidate = 0
    · -- the candidate is linked
      rw [if_pos hfree] at hn ⊢
      obtain ⟨n, rfl⟩ := Nat.exists_eq_succ_of_ne_zero hn0
      have hne : current ≠ candidate := by
        rintro rfl
        exact hcur.elim (Nat.lt_irrefl _) fun h => h hfree
      set v₁ := v.setFat current candidate with hv₁
      have hsame : v₁.freeFrom (candidate + 1) fuel = v.freeFrom (candidate + 1) fuel :=
        freeFrom_setFat (by omega) (hcur.imp (by omega) id)
      obtain ⟨fat', hrun, hchain, hframe⟩ := ih (v := v₁) hN candidate (candidate + 1) n
        (by simp only [hv₁, setFat]; omega) (by omega) (.inl (Nat.lt_succ_self _))
        (by rw [hsame]; simpa using hn)
      rw [hsame] at hrun hchain hframe
      have hcurN : current ∉ (v.freeFrom (candidate + 1) fuel).take n := by
        intro hmem
        obtain ⟨⟨hlo, -⟩, h0⟩ := mem_freeFrom.1 (List.mem_of_mem_take hmem)
        exact hcur.elim (fun h => absurd hlo (by omega)) fun h => h h0
      have hcurW : fat' current = candidate := by
        rw [hframe current hne hcurN]
        simp [hv₁, setFat]
      refine ⟨fat', ?_, ?_, fun c hc hmem => ?_⟩
      · simp only [linkFree, if_neg hn0, hread, Option.bind_eq_bind, Option.bind_some, hfree, ne_eq,
          not_true_eq_false, if_false, Nat.succ_eq_add_one, Nat.add_sub_cancel, ← hv₁, hrun]
        rw [List.take_succ_cons, List.getLast?_cons]
        rfl
      · rw [List.take_succ_cons]
        refine .cons ?_ hchain
        have hnot : isEndOfClusterchain candidate = false := by
          rw [NumbersOk] at hN
          simp only [isEndOfClusterchain, decide_eq_false_iff_not]
          omega
        simp only [succ, hcurW, hnot, Bool.false_eq_true, if_false]
      · rw [List.take_succ_cons, List.mem_cons, not_or] at hmem
        rw [hframe c hmem.1 hmem.2]
        simp only [hv₁, setFat, Function.update_of_ne hc]
    · rw [if_neg hfree] at hn ⊢
      obtain ⟨fat', hrun, hrest⟩ := ih hN current (candidate + 1) n (by omega) (by omega)
        (hcur.imp (by omega) id) hn
      refine ⟨fat', ?_, hrest⟩
      simp only [linkFree, if_neg hn0, hread, Option.bind_eq_bind, Option.bind_some, ne_eq, hfree,
        not_false_eq_true, if_true, hrun]

theorem linkFree_eq_none : ∀ (fuel current candidate n : Nat), candidate + fuel =
    v.numClusters + 2 →
    2 ≤ candidate → (current < candidate ∨ v.fat current ≠ 0) →
      (v.freeFrom candidate fuel).length < n →
    v.linkFree current candidate n fuel = none := by
  intro fuel
  induction fuel generalizing v with
  | zero =>
    intro current candidate n _ _ _ hn
    rw [linkFree, if_neg (by omega)]
  | succ fuel ih =>
    intro current candidate n hsum hcand hcur hn
    have hn0 : n ≠ 0 := by omega
    have hread : v.readFat candidate = some (v.fat candidate) := if_pos (by omega)
    rw [freeFrom_succ] at hn
    rw [linkFree, if_neg hn0, hread, Option.bind_eq_bind, Option.bind_some]
    by_cases hfree : v.fat candidate = 0
    · rw [if_pos hfree, List.length_cons] at hn
      rw [if_neg (not_not.2 hfree)]
      have hsame : (v.setFat current candidate).freeFrom (candidate + 1) fuel =
        v.freeFrom (candidate + 1) fuel :=
        freeFrom_setFat (by omega) (hcur.imp (by omega) id)
      exact ih candidate (candidate + 1) (n - 1) (by simp only [setFat]; omega) (by omega)
        (.inl (Nat.lt_succ_self _)) (by rw [hsame]; omega)
    · rw [if_neg hfree] at hn
      rw [if_pos hfree]
      exact ih current (candidate + 1) n (by omega) (by omega) (hcur.imp (by omega) id) hn

/-- `v` with the FAT words of `l`'s last cluster and of the free clusters `ext` rewritten so that
`ext` comes behind `l`. -/
structure Extends (v : Volume) (l ext : List Nat) (v' : Volume) : Prop where
  bpb : v'.bpb = v.bpb
  numClusters : v'.numClusters = v.numClusters
  free : ∀ c ∈ ext, v.InRange c ∧ v.fat c = 0
  nodup : ext.Nodup
  chain : ∀ {f}, v.IsChain f l → v'.IsChain f (l ++ ext)
  frame : ∀ c, c ∉ l → c ∉ ext → v'.fat c = v.fat c

namespace Extends

variable {v' v'' : Volume} {ext ext' m : List Nat}

theorem refl (v : Volume) (l : List Nat) : Extends v l [] v :=
  ⟨rfl, rfl, by simp, List.nodup_nil, fun h => by rwa [List.append_nil], fun _ _ _ => rfl⟩

theorem inRange_iff (h : Extends v l ext v') : v'.InRange c ↔ v.InRange c := by
  rw [InRange, InRange, h.numClusters]

theorem bytesPerCluster (h : Extends v l ext v') : v'.bytesPerCluster = v.bytesPerCluster := by
  rw [Volume.bytesPerCluster, Volume.bytesPerCluster, h.bpb]

theorem other (h : Extends v l ext v') {g : Nat} (hm : v.IsChain g m)
    (hd : l.Disjoint m) : v'.IsChain g m :=
  hm.congr h.numClusters fun c hc => h.frame c (fun hl => hd hl hc) fun he =>
    hm.fat_ne_zero hc (h.free c he).2

theorem trans (h : Extends v l ext v') (h' : Extends v' (l ++ ext) ext' v'')
    (hused : ∀ c ∈ l ++ ext, v'.fat c ≠ 0) : Extends v l (ext ++ ext') v'' := by
  have hnot : ∀ c ∈ ext', c ∉ l ∧ c ∉ ext := fun c hc => by
    have := mt (hused c) (not_not.2 (h'.free c hc).2)
    rwa [List.mem_append, not_or] at this
  refine ⟨h'.bpb.trans h.bpb, h'.numClusters.trans h.numClusters, fun c hc => ?_, ?_, fun hf => ?_,
    fun c hl he => ?_⟩
  · rcases List.mem_append.1 hc with hc | hc
    · exact h.free c hc
    · rw [← h.frame c (hnot c hc).1 (hnot c hc).2]
      exact ⟨h.inRange_iff.1 (h'.free c hc).1, (h'.free c hc).2⟩
  · refine List.nodup_append.2 ⟨h.nodup, h'.nodup, fun a ha b hb hab => ?_⟩
    subst hab
    exact (hnot a hb).2 ha
  · rw [← List.append_assoc]
    exact h'.chain (h.chain hf)
  · rw [List.mem_append, not_or] at he
    rw [h'.frame c (by simp [hl, he.1]) he.2, h.frame c hl he.1]

theorem freeClusters (h : Extends v l ext v') (hl : ∀ c ∈ l, v.fat c ≠ 0)
    (hused : ∀ c ∈ l ++ ext, v'.fat c ≠ 0) :
    v'.freeClusters = v.freeClusters.filter fun c => c ∉ ext := by
  rw [Volume.freeClusters, Volume.freeClusters, freeFrom, freeFrom, List.filter_filter,
    h.numClusters]
  refine List.filter_congr fun c _ => ?_
  by_cases he : c ∈ ext
  · simp [he, hused c (List.mem_append_right _ he)]
  by_cases hl' : c ∈ l
  · simp [hl c hl', hused c (List.mem_append_left _ hl')]
  · simp [he, h.frame c hl' he]

theorem freeClusters_take {k : Nat} (h : Extends v l (v.freeClusters.take k) v')
    (hl : ∀ c ∈ l, v.fat c ≠ 0)
    (hused : ∀ c ∈ l ++ v.freeClusters.take k, v'.fat c ≠ 0) :
    v'.freeClusters = v.freeClusters.drop k := by
  have hnd : (v.freeClusters.take k ++ v.freeClusters.drop k).Nodup := by
    rw [List.take_append_drop]
    exact nodup_freeFrom
  have hdisj := (List.nodup_append.1 hnd).2.2
  rw [h.freeClusters hl hused]
  conv_lhs => rw [← List.take_append_drop k v.freeClusters]
  rw [List.filter_append, List.filter_eq_nil_iff.2, List.nil_append, List.filter_eq_self.2]
  · intro c hc
    have : c ∉ v.freeClusters.take k := fun hc' => hdisj c hc' c hc rfl
    simpa using this
  · intro c hc
    simpa using hc

theorem of_data {w : Volume} (h : Extends v l ext v') (hf : w.fat = v'.fat) (hb : w.bpb = v'.bpb)
    (hn : w.numClusters = v'.numClusters) : Extends v l ext w := by
  refine ⟨hb.trans h.bpb, hn.trans h.numClusters, h.free, h.nodup, fun hc => ?_, fun c hl he => ?_⟩
  · exact (h.chain hc).congr hn fun c _ => by rw [hf]
  · rw [hf, h.frame c hl he]

end Extends

theorem free_take {n : Nat} (h : c ∈ v.freeClusters.take n) : v.InRange c ∧ v.fat c = 0 :=
  mem_freeClusters.1 (List.mem_of_mem_take h)

theorem extends_linkFree (hN : v.NumbersOk) {t : Nat} (ht : v.InRange t)
    (ht0 : v.fat t ≠ 0) {n : Nat}
    (hn : n ≤ v.freeClusters.length) (m : List Nat) :
    ∃ v', v.linkFree t 2 n v.numClusters = some (v', ((v.freeClusters.take n).getLast?).getD t) ∧
      v'.data = v.data ∧ Extends v (m ++ [t]) (v.freeClusters.take n) v' := by
  obtain ⟨fat', hrun, hchain, hframe⟩ :=
    linkFree_spec hN v.numClusters t 2 n (by omega) (Nat.le_refl 2)
    (.inr ht0) hn
  refine ⟨_, hrun, rfl, rfl, rfl, fun c => free_take,
    nodup_freeFrom.sublist (List.take_sublist _ _), ?_, ?_⟩
  · intro f hf
    have hndm := hf.chain.nodup
    refine ⟨?_, fun c hc => ?_⟩
    · rw [List.append_assoc, List.singleton_append]
      refine hf.chain.graft hchain fun x hx => ?_
      have hxt : x ≠ t := by
        rintro rfl
        exact (List.nodup_append.1 hndm).2.2 x hx x (List.mem_singleton_self x) rfl
      have hxf : x ∉ v.freeClusters.take n := fun hmem =>
        hf.fat_ne_zero (List.mem_append_left _ hx) (free_take hmem).2
      have hword : fat' x = v.fat x := hframe x hxt hxf
      simp only [succ, hword]
    · rcases List.mem_append.1 hc with hc | hc
      · exact hf.inRange c hc
      · exact (free_take hc).1
  · intro c hc hfree
    rw [List.mem_append, not_or, List.mem_singleton] at hc
    exact hframe c hc.2 hfree

/-- `ExtendCluster` from any cluster of a chain. -/
theorem IsChain.extendCluster (h : v.IsChain f l) (hN : v.NumbersOk) {t n : Nat} (hc : c ∈ l)
    (ht : l.getLast? = some t) :
    (n ≤ v.freeClusters.length →
      ∃ v', v.extendCluster c n = some (v', ((v.freeClusters.take n).getLast?).getD t) ∧
      v'.data = v.data ∧ Extends v l (v.freeClusters.take n) v') ∧
    (v.freeClusters.length < n → v.extendCluster c n = none) := by
  obtain ⟨l₁, l₂, rfl⟩ := List.append_of_mem hc
  have hsuf : v.IsChain c (c :: l₂) :=
    ⟨h.chain.of_append, fun x hx => h.inRange x (List.mem_append_right _ hx)⟩
  have ht' : (c :: l₂).getLast? = some t := by
    rwa [List.getLast?_append_of_ne_nil _ (List.cons_ne_nil _ _)] at ht
  have hlast : v.lastCluster c (v.numClusters + 2) = some t :=
    lastCluster_spec hsuf ht' _ (Nat.le_trans hsuf.length_le (Nat.le_add_right _ _))
  have hmem : t ∈ l₁ ++ c :: l₂ := List.mem_of_getLast? ht
  rw [Volume.extendCluster, hlast, Option.bind_eq_bind, Option.bind_some]
  constructor
  · intro hn
    obtain ⟨m, hm⟩ := List.getLast?_eq_some_iff.1 ht
    obtain ⟨v', hrun, hdata, hext⟩ :=
      extends_linkFree hN (h.inRange t hmem) (h.fat_ne_zero hmem) hn m
    exact ⟨v', hrun, hdata, hm ▸ hext⟩
  · exact fun hn => linkFree_eq_none v.numClusters t 2 n (by omega) (Nat.le_refl 2)
      (.inr (h.fat_ne_zero hmem)) hn

/-! ### `AllocateClusterchain` -/

theorem firstFree_eq : ∀ (fuel firstCluster : Nat), firstCluster + fuel = v.numClusters + 2 →
    v.firstFree firstCluster fuel = (v.freeFrom firstCluster fuel).head? := by
  intro fuel
  induction fuel with
  | zero => intro _ _; rfl
  | succ fuel ih =>
    intro firstCluster hsum
    have hread : v.readFat firstCluster = some (v.fat firstCluster) := if_pos (by omega)
    rw [firstFree, hread, Option.bind_eq_bind, Option.bind_some, freeFrom_succ]
    split
    · rfl
    · exact ih (firstCluster + 1) (by omega)

theorem freeClusters_setFat {rest : List Nat} {w : Nat} (hfree : v.freeClusters = c :: rest)
    (hw : w ≠ 0) :
    (v.setFat c w).freeClusters = rest := by
  have hnd : (c :: rest).Nodup := hfree ▸ nodup_freeFrom
  have hfilter : (v.setFat c w).freeClusters = v.freeClusters.filter fun x => x ≠ c := by
    rw [freeClusters, freeClusters, freeFrom, freeFrom, List.filter_filter]
    refine List.filter_congr fun x _ => ?_
    by_cases hx : x = c
    · subst hx
      simp [setFat, hw]
    · simp [setFat, hx]
  rw [hfilter, hfree, List.filter_cons_of_neg (by simp), List.filter_eq_self]
  intro x hx
  have : x ≠ c := fun h => (List.nodup_cons.1 hnd).1 (h ▸ hx)
  simpa using this

/-- A new chain of the first `n` free clusters, of one at least. -/
theorem allocateClusterchain_spec (hN : v.NumbersOk) (n : Nat) :
    (max n 1 ≤ v.freeClusters.length → ∃ v' f, v.allocateClusterchain n = some (v', f) ∧
      v'.data = v.data ∧ v'.IsChain f (v.freeClusters.take (max n 1)) ∧
      Extends v [] (v.freeClusters.take (max n 1)) v') ∧
    (v.freeClusters.length < max n 1 → v.allocateClusterchain n = none) := by
  have hfirst : v.firstFree 2 v.numClusters = v.freeClusters.head? := firstFree_eq _ _ (by omega)
  rw [allocateClusterchain, hfirst]
  cases hfree : v.freeClusters with
  | nil => exact ⟨fun h => by simp at h, fun _ => rfl⟩
  | cons c rest =>
    have hc : v.InRange c ∧ v.fat c = 0 := mem_freeClusters.1 (hfree ▸ List.mem_cons_self)
    rw [List.head?_cons, Option.bind_eq_bind, Option.bind_some]
    set v₁ := v.setFat c kEndOfClusterchain with hv₁
    have hfree₁ : v₁.freeClusters = rest := freeClusters_setFat hfree (by decide)
    have hword : v₁.fat c = kEndOfClusterchain := Function.update_self ..
    have hchain₁ : v₁.IsChain c [c] := by
      refine ⟨.last ?_, fun x hx => List.mem_singleton.1 hx ▸ hc.1⟩
      rw [succ, hword]
      rfl
    have hframe₁ : ∀ x, x ≠ c → v₁.fat x = v.fat x := fun x hx => Function.update_of_ne hx _ _
    have hfree_of : ∀ x ∈ c :: rest, v.InRange x ∧ v.fat x = 0 := fun x hx =>
      mem_freeClusters.1 (hfree ▸ hx)
    have hnd : (c :: rest).Nodup := hfree ▸ nodup_freeFrom
    by_cases hn : n > 1
    · obtain ⟨k, rfl⟩ : ∃ k, n = k + 1 := ⟨n - 1, by omega⟩
      rw [Nat.max_eq_left (by omega), if_pos hn, Nat.add_sub_cancel, List.length_cons]
      obtain ⟨hsome, hnone⟩ := hchain₁.extendCluster hN (n := k) (List.mem_singleton_self c) rfl
      rw [hfree₁] at hsome hnone
      constructor
      · intro hle
        obtain ⟨v', hrun, hdata, hext⟩ := hsome (by omega)
        refine ⟨v', c, by rw [hrun]; rfl, hdata, ?_, hext.bpb, hext.numClusters, ?_, ?_,
          fun hnil => absurd rfl hnil.chain.ne_nil, fun x _ hx => ?_⟩
        · rw [List.take_succ_cons]
          exact hext.chain hchain₁
        · exact fun x hx => hfree_of x (List.mem_of_mem_take hx)
        · exact hnd.sublist (List.take_sublist _ _)
        · rw [List.take_succ_cons, List.mem_cons, not_or] at hx
          rw [hext.frame x (by simpa using hx.1) hx.2, hframe₁ x hx.1]
      · intro hlt
        rw [hnone (by omega)]
        rfl
    · have hmax : max n 1 = 1 := by omega
      rw [hmax, if_neg hn, List.take_succ_cons, List.take_zero]
      refine ⟨fun _ => ⟨v₁, c, rfl, rfl, hchain₁, rfl, rfl, ?_, List.nodup_singleton _,
        fun hnil => absurd rfl hnil.chain.ne_nil, fun x _ hx => hframe₁ x (by simpa using hx)⟩, ?_⟩
      · exact fun x hx => List.mem_singleton.1 hx ▸ hc
      · intro hlt
        simp at hlt

end Volume

end Moxia.Fat
