import Moxia.Lib.Arith
import Moxia.Fat.Volume

/-!
# Where a volume's parts are in memory (`fat.hpp`, `fat.cpp`)

The addresses of the clusters and of the words of the first FAT, with the types in which they are
computed. For the BPB of a volume (`LaidOut`) nothing overflows, and the clusters lie side by side
behind the last FAT. So what the file system does to a `Volume` it does to the image in memory
(`volumeAt`).
-/

namespace Moxia.Fat

open Lib Lib.Expr IntType

/-- `fat::Initialize` -/
def bytesPerCluster (bpb : BPB) : Expr :=
  .cast .uint32 (ofUInt16 bpb.bytesPerSector) * ofUInt8 bpb.sectorsPerCluster

def sectorNum (bpb : BPB) (cluster : UInt64) : Expr :=
  ofUInt16 bpb.reservedSectorCount + ofUInt8 bpb.numFats * ofUInt32 bpb.fatSize32 +
    (ofUInt64 cluster - lit 2) * ofUInt8 bpb.sectorsPerCluster

/-- The image is at `bootVolumeImage`. -/
def getClusterAddr (bpb : BPB) (bootVolumeImage cluster : UInt64) : Expr :=
  let offset := sectorNum bpb cluster * ofUInt16 bpb.bytesPerSector
  ofUInt64 bootVolumeImage + offset

def getFAT (bpb : BPB) (bootVolumeImage : UInt64) : Expr :=
  let fatOffset := .cast .uint64 (ofUInt16 bpb.reservedSectorCount * ofUInt16 bpb.bytesPerSector)
  ofUInt64 bootVolumeImage + fatOffset

/-- `&fat[cluster]`, in bytes. -/
def fatWord (bpb : BPB) (bootVolumeImage : UInt64) (cluster : UInt32) : Expr :=
  getFAT bpb bootVolumeImage + .cast .uint64 (ofUInt32 cluster) * .val .uint64 4

/-- A volume with `n` data clusters. -/
structure LaidOut (bpb : BPB) (totalSectors32 : UInt32) (n : Nat) : Prop where
  sector : bpb.bytesPerSector.toNat ∈ [512, 1024, 2048, 4096]
  cluster : ∃ k, bpb.sectorsPerCluster.toNat = 2 ^ k
  numFats_pos : 1 ≤ bpb.numFats.toNat
  fats_lt : bpb.numFats.toNat * bpb.fatSize32.toNat < 2 ^ 32
  clusters_fit : bpb.reservedSectorCount.toNat + bpb.numFats.toNat * bpb.fatSize32.toNat +
    n * bpb.sectorsPerCluster.toNat ≤ totalSectors32.toNat
  words_fit : 4 * (n + 2) ≤ bpb.fatSize32.toNat * bpb.bytesPerSector.toNat

/-- The image ends before the address space does. -/
def InMemory (bpb : BPB) (totalSectors32 : UInt32) (image : UInt64) : Prop :=
  image.toNat + totalSectors32.toNat * bpb.bytesPerSector.toNat < 2 ^ 64

/-- The first sector behind the FATs. -/
def firstDataSector (bpb : BPB) : Nat :=
  bpb.reservedSectorCount.toNat + bpb.numFats.toNat * bpb.fatSize32.toNat

def clusterSize (bpb : BPB) : Nat := bpb.bytesPerSector.toNat * bpb.sectorsPerCluster.toNat

/-- The address that `getClusterAddr` is meant to be. -/
def clusterAddr (bpb : BPB) (base c : Nat) : Nat :=
  base + (firstDataSector bpb + (c - 2) * bpb.sectorsPerCluster.toNat) * bpb.bytesPerSector.toNat

def fatAddr (bpb : BPB) (base c : Nat) : Nat :=
  base + bpb.reservedSectorCount.toNat * bpb.bytesPerSector.toNat + c * 4

variable {bpb : BPB} {totalSectors32 : UInt32} {base n c d : Nat}

theorem clusterAddr_succ (hc : 2 ≤ c) :
    clusterAddr bpb base (c + 1) = clusterAddr bpb base c + clusterSize bpb := by
  have hsub : c + 1 - 2 = c - 2 + 1 := by omega
  rw [clusterAddr, clusterAddr, clusterSize, hsub, Nat.add_mul (c - 2), Nat.one_mul,
    ← Nat.add_assoc, Nat.add_mul _ _
    bpb.bytesPerSector.toNat, ← Nat.add_assoc, Nat.mul_comm bpb.sectorsPerCluster.toNat]

theorem clusterAddr_le (hcd : c ≤ d) : clusterAddr bpb base c ≤ clusterAddr bpb base d :=
  Nat.add_le_add_left
    (Nat.mul_le_mul_right _
    (Nat.add_le_add_left (Nat.mul_le_mul_right _ (Nat.sub_le_sub_right hcd 2)) _)) _

theorem clusterAddr_disjoint (hc : 2 ≤ c) (hcd : c < d) :
    clusterAddr bpb base c + clusterSize bpb ≤ clusterAddr bpb base d := by
  rw [← clusterAddr_succ hc]
  exact clusterAddr_le hcd

theorem firstData_le_clusterAddr : base + firstDataSector bpb * bpb.bytesPerSector.toNat ≤
    clusterAddr bpb base c :=
  Nat.add_le_add_left (Nat.mul_le_mul_right _ (Nat.le_add_right ..)) _

namespace LaidOut

theorem sector_le (h : LaidOut bpb totalSectors32 n) : bpb.bytesPerSector.toNat ≤ 4096 := by
  have := h.sector
  simp only [List.mem_cons, List.not_mem_nil, or_false] at this
  omega

theorem clusterAddr_end (h : LaidOut bpb totalSectors32 n) :
    clusterAddr bpb base (n + 2) ≤ base + totalSectors32.toNat * bpb.bytesPerSector.toNat :=
  Nat.add_le_add_left (Nat.mul_le_mul_right _ h.clusters_fit) _

theorem fatAddr_end (h : LaidOut bpb totalSectors32 n) (hc : c < n + 2) : fatAddr bpb base c + 4 ≤
    base + (bpb.reservedSectorCount.toNat + bpb.fatSize32.toNat) * bpb.bytesPerSector.toNat := by
  have hwords := h.words_fit
  rw [fatAddr, Nat.add_mul]
  omega

theorem fat_le_firstData (h : LaidOut bpb totalSectors32 n) :
    (bpb.reservedSectorCount.toNat + bpb.fatSize32.toNat) * bpb.bytesPerSector.toNat ≤
      firstDataSector bpb * bpb.bytesPerSector.toNat :=
  Nat.mul_le_mul_right _ (Nat.add_le_add_left (Nat.le_mul_of_pos_left _ h.numFats_pos) _)

theorem firstDataSector_lt (h : LaidOut bpb totalSectors32 n) : firstDataSector bpb < 2 ^ 32 :=
  Nat.lt_of_le_of_lt (Nat.le_trans (Nat.le_add_right ..) h.clusters_fit) totalSectors32.toNat_lt

/-! ### No overflow -/

theorem computes_bytesPerCluster (h : LaidOut bpb totalSectors32 n) :
    Computes (bytesPerCluster bpb) .uint32 (clusterSize bpb) := by
  have hbytes := h.sector_le
  have hsectors := bpb.sectorsPerCluster.toNat_lt
  have hsize : clusterSize bpb ≤ 4096 * 2 ^ 8 := Nat.mul_le_mul hbytes (Nat.le_of_lt hsectors)
  have hcast : Computes (.cast .uint32 (ofUInt16 bpb.bytesPerSector)) .uint32
    bpb.bytesPerSector.toNat :=
    .cast (Nat.succ_pos _) (.ofUInt16 _) (lt_uint32 (by omega))
  exact .mul hcast (.ofUInt8 _) (lt_uint32 (by omega)) (lt_uint32 (by omega))
    (lt_uint32 (show clusterSize bpb < 2 ^ 32 by omega))

theorem index_le (h : LaidOut bpb totalSectors32 n) (hcn : c < n + 2) :
    firstDataSector bpb + (c - 2) * bpb.sectorsPerCluster.toNat ≤ totalSectors32.toNat :=
  Nat.le_trans (Nat.add_le_add_left (Nat.mul_le_mul_right _ (by omega)) _) h.clusters_fit

theorem computes_sectorNum (h : LaidOut bpb totalSectors32 n) {cluster : UInt64}
    (hc : 2 ≤ cluster.toNat)
    (hcn : cluster.toNat < n + 2) : Computes (sectorNum bpb cluster) .uint64
      (firstDataSector bpb + (cluster.toNat - 2) * bpb.sectorsPerCluster.toNat) := by
  have hindex := h.index_le hcn
  have htotal := totalSectors32.toNat_lt
  have hcluster := cluster.toNat_lt
  have hnumFats := bpb.numFats.toNat_lt
  have hsectors := bpb.sectorsPerCluster.toNat_lt
  have hfats : Computes (ofUInt8 bpb.numFats * ofUInt32 bpb.fatSize32) .uint32
      (bpb.numFats.toNat * bpb.fatSize32.toNat) :=
    .mul (.ofUInt8 _) (.ofUInt32 _) (lt_uint32 (by omega)) bpb.fatSize32.toNat_lt h.fats_lt
  have hfirst : Computes (ofUInt16 bpb.reservedSectorCount + ofUInt8 bpb.numFats *
      ofUInt32 bpb.fatSize32) .uint32
      (firstDataSector bpb) := .add (.ofUInt16 _) hfats h.firstDataSector_lt
  have hminus : Computes (ofUInt64 cluster - lit 2) .uint64 (cluster.toNat - 2) :=
    .sub (.ofUInt64 _) (.lit (by decide)) hc hcluster
  have htimes : Computes ((ofUInt64 cluster - lit 2) * ofUInt8 bpb.sectorsPerCluster) .uint64
      ((cluster.toNat - 2) * bpb.sectorsPerCluster.toNat) :=
    .mul hminus (.ofUInt8 _) (lt_uint64 (by omega)) (lt_uint64 (by omega)) (lt_uint64 (by omega))
  exact .add hfirst htimes (lt_uint64 (by omega))

theorem computes_getClusterAddr (h : LaidOut bpb totalSectors32 n) {image cluster : UInt64}
    (himage : InMemory bpb totalSectors32 image) (hc : 2 ≤ cluster.toNat)
    (hcn : cluster.toNat < n + 2) :
    Computes (getClusterAddr bpb image cluster) .uint64
      (clusterAddr bpb image.toNat cluster.toNat) := by
  have hindex := h.index_le hcn
  have htotal := totalSectors32.toNat_lt
  have hbytes := bpb.bytesPerSector.toNat_lt
  have hend : clusterAddr bpb image.toNat cluster.toNat < 2 ^ 64 :=
    Nat.lt_of_le_of_lt (Nat.le_trans (clusterAddr_le (Nat.le_of_lt hcn)) h.clusterAddr_end) himage
  rw [clusterAddr] at hend ⊢
  have hoffset : Computes (sectorNum bpb cluster * ofUInt16 bpb.bytesPerSector) .uint64
      ((firstDataSector bpb + (cluster.toNat - 2) * bpb.sectorsPerCluster.toNat) *
        bpb.bytesPerSector.toNat) :=
    .mul (h.computes_sectorNum hc hcn) (.ofUInt16 _) (lt_uint64 (by omega)) (lt_uint64 (by omega))
      (lt_uint64 (Nat.lt_of_le_of_lt (Nat.le_add_left ..) hend))
  exact .add (.ofUInt64 _) hoffset (lt_uint64 hend)

theorem fat_lt (h : LaidOut bpb totalSectors32 n) {image : UInt64}
    (himage : InMemory bpb totalSectors32 image) :
    image.toNat + (bpb.reservedSectorCount.toNat + bpb.fatSize32.toNat) * bpb.bytesPerSector.toNat <
      2 ^ 64 := by
  refine Nat.lt_of_le_of_lt (Nat.add_le_add_left (Nat.le_trans h.fat_le_firstData ?_) _) himage
  exact Nat.mul_le_mul_right _ (Nat.le_trans (Nat.le_add_right ..) h.clusters_fit)

theorem computes_getFAT (h : LaidOut bpb totalSectors32 n) {image : UInt64}
    (himage : InMemory bpb totalSectors32 image) :
    Computes (getFAT bpb image) .uint64
      (image.toNat + bpb.reservedSectorCount.toNat * bpb.bytesPerSector.toNat) := by
  have hfat := h.fat_lt himage
  have hreserved := bpb.reservedSectorCount.toNat_lt
  have hbytes := h.sector_le
  have hmul : bpb.reservedSectorCount.toNat * bpb.bytesPerSector.toNat ≤ (2 ^ 16 - 1) * 4096 :=
    Nat.mul_le_mul (Nat.le_sub_one_of_lt hreserved) hbytes
  rw [Nat.add_mul] at hfat
  have hoffset : Computes (ofUInt16 bpb.reservedSectorCount * ofUInt16 bpb.bytesPerSector) .int
      (bpb.reservedSectorCount.toNat * bpb.bytesPerSector.toNat) :=
    .mul (.ofUInt16 _) (.ofUInt16 _) (lt_int (by omega)) (lt_int (by omega)) (lt_int (by omega))
  exact .add (.ofUInt64 _) (.cast (Nat.succ_pos _) hoffset (lt_uint64 (by omega)))
    (lt_uint64 (by omega))

theorem computes_fatWord (h : LaidOut bpb totalSectors32 n) {image : UInt64}
    (himage : InMemory bpb totalSectors32 image)
    {cluster : UInt32} (hcn : cluster.toNat < n + 2) :
    Computes (fatWord bpb image cluster) .uint64 (fatAddr bpb image.toNat cluster.toNat) := by
  have hcluster := cluster.toNat_lt
  have hend : fatAddr bpb image.toNat cluster.toNat < 2 ^ 64 := by
    have := Nat.le_trans (h.fatAddr_end hcn) (Nat.le_of_lt (h.fat_lt himage))
    omega
  have hindex : Computes (.cast .uint64 (ofUInt32 cluster)) .uint64 cluster.toNat :=
    .cast (Nat.succ_pos _) (.ofUInt32 _) (lt_uint64 (by omega))
  have hfour : Computes (.val .uint64 4) .uint64 4 := .val (Nat.succ_pos _) (lt_uint64 (by decide))
  exact .add (h.computes_getFAT himage)
    (.mul hindex hfour (lt_uint64 (by omega)) (lt_uint64 (by decide))
    (lt_uint64 (by omega))) hend

end LaidOut

/-- Where the parts of a volume with `n` data clusters are, as the code computes it. -/
structure Layout (bpb : BPB) (totalSectors32 : UInt32) (n : Nat) (image : UInt64) : Prop where
  /-- `bytes_per_cluster` -/
  size : Computes (bytesPerCluster bpb) .uint32 (clusterSize bpb)
  cluster : ∀ c : UInt64, 2 ≤ c.toNat → c.toNat < n + 2 →
    ∃ a, Computes (getClusterAddr bpb image c) .uint64 a ∧
    image.toNat + (bpb.reservedSectorCount.toNat + bpb.numFats.toNat * bpb.fatSize32.toNat) *
      bpb.bytesPerSector.toNat ≤ a ∧
    a + clusterSize bpb ≤ image.toNat + totalSectors32.toNat * bpb.bytesPerSector.toNat
  disjoint : ∀ c d : UInt64, 2 ≤ c.toNat → c.toNat < n + 2 → 2 ≤ d.toNat → d.toNat < n + 2 → c ≠ d →
    ∀ a b : Nat, (getClusterAddr bpb image c).eval = some ↑a →
      (getClusterAddr bpb image d).eval = some ↑b →
      a + clusterSize bpb ≤ b ∨ b + clusterSize bpb ≤ a
  fat : ∀ c : UInt32, c.toNat < n + 2 → ∃ a, Computes (fatWord bpb image c) .uint64 a ∧
    image.toNat + bpb.reservedSectorCount.toNat * bpb.bytesPerSector.toNat ≤ a ∧
    a + 4 ≤ image.toNat + (bpb.reservedSectorCount.toNat + bpb.fatSize32.toNat) *
      bpb.bytesPerSector.toNat

theorem LaidOut.layout (h : LaidOut bpb totalSectors32 n) {image : UInt64}
    (himage : InMemory bpb totalSectors32 image) :
    Layout bpb totalSectors32 n image where
  size := h.computes_bytesPerCluster
  cluster c hc hcn := by
    refine ⟨_, h.computes_getClusterAddr himage hc hcn, firstData_le_clusterAddr, ?_⟩
    exact Nat.le_trans (clusterAddr_disjoint hc hcn) h.clusterAddr_end
  disjoint c d hc hcn hd hdn hne a b ha hb := by
    rw [(h.computes_getClusterAddr himage hc hcn).eval_eq, Option.some.injEq, Int.natCast_inj] at ha
    rw [(h.computes_getClusterAddr himage hd hdn).eval_eq, Option.some.injEq, Int.natCast_inj] at hb
    rw [← ha, ← hb]
    rcases Nat.lt_or_gt_of_ne fun heq => hne (UInt64.toNat_inj.1 heq) with hlt | hgt
    · exact .inl (clusterAddr_disjoint hc hlt)
    · exact .inr (clusterAddr_disjoint hd hgt)
  fat c hcn := ⟨_, h.computes_fatWord himage hcn, Nat.le_add_right .., h.fatAddr_end hcn⟩

theorem layout_small : Layout ⟨512, 1, 32, 2, 1, 2⟩ 100 60 0x100000 :=
  LaidOut.layout ⟨by decide, ⟨0, rfl⟩, by decide, by decide, by decide, by decide⟩
    (show 0x100000 + 100 * 512 < 2 ^ 64 by decide)

/-! ### The volume in the image -/

/-- The volume whose image is at `base`. -/
def volumeAt (bpb : BPB) (n base : Nat) (mem : Nat → UInt8) : Volume where
  bpb := bpb
  numClusters := n
  fat c := loadLE mem (fatAddr bpb base c) 4
  data c o := mem (clusterAddr bpb base c + o)

/-- Two volumes are the same where a volume has words and bytes. -/
structure Volume.Agrees (v w : Volume) : Prop where
  bpb : v.bpb = w.bpb
  numClusters : v.numClusters = w.numClusters
  fat : ∀ c, c < v.numClusters + 2 → v.fat c = w.fat c
  data : ∀ c, v.InRange c → ∀ o, o < v.bytesPerCluster → v.data c o = w.data c o

variable {mem : Nat → UInt8}

theorem fatAddr_le_clusterAddr (h : LaidOut bpb totalSectors32 n) (hc : c < n + 2) :
    fatAddr bpb base c + 4 ≤ clusterAddr bpb base d :=
  Nat.le_trans (h.fatAddr_end hc)
    (Nat.le_trans (Nat.add_le_add_left h.fat_le_firstData _) firstData_le_clusterAddr)

/-- `memcpy` to a cluster changes this cluster only. -/
theorem volumeAt_store (h : LaidOut bpb totalSectors32 n) (hc : 2 ≤ c ∧ c < n + 2) {off len : Nat}
    (hlen : off + len ≤ clusterSize bpb) (src : Nat → UInt8) :
    (volumeAt bpb n base (Lib.store mem (clusterAddr bpb base c + off) len src)).Agrees
      ((volumeAt bpb n base mem).store c off len src) where
  bpb := rfl
  numClusters := rfl
  fat d hd := by
    have hdisj : fatAddr bpb base d + 4 ≤ clusterAddr bpb base c := fatAddr_le_clusterAddr h hd
    exact loadLE_congr fun o _ hhi => store_of_not_mem (.inl (by omega))
  data d hd o ho := by
    have hsize : o < clusterSize bpb := ho
    have hvolume : ((volumeAt bpb n base mem).store c off len src).data d o =
        Function.update (volumeAt bpb n base mem).data c
          (Lib.store ((volumeAt bpb n base mem).data c) off len src) d o := rfl
    have himage : (volumeAt bpb n base (Lib.store mem (clusterAddr bpb base c + off) len src)).data
        d o =
        Lib.store mem (clusterAddr bpb base c + off) len src (clusterAddr bpb base d + o) := rfl
    rw [hvolume, himage]
    rcases Nat.lt_trichotomy d c with hlt | rfl | hgt
    · have hdisj : clusterAddr bpb base d + clusterSize bpb ≤ clusterAddr bpb base c :=
        clusterAddr_disjoint hd.1 hlt
      rw [Function.update_of_ne (by omega), store_of_not_mem (by omega)]
      rfl
    · rw [Function.update_self]
      by_cases hmem : off ≤ o ∧ o < off + len
      · have hsub : clusterAddr bpb base d + o - (clusterAddr bpb base d + off) =
          o - off := by omega
        rw [store_of_mem (by omega), store_of_mem hmem, hsub]
      · rw [store_of_not_mem (by omega), store_of_not_mem (by omega)]
        rfl
    · have hdisj : clusterAddr bpb base c + clusterSize bpb ≤ clusterAddr bpb base d :=
        clusterAddr_disjoint hc.1 hgt
      rw [Function.update_of_ne (by omega), store_of_not_mem (by omega)]
      rfl

/-- A word of the FAT is written without harm to the others and to the data. -/
theorem volumeAt_setFat (h : LaidOut bpb totalSectors32 n) (hc : c < n + 2) {word : Nat}
    (hword : word < 2 ^ 32) :
    (volumeAt bpb n base (storeLE mem (fatAddr bpb base c) 4 word)).Agrees
      ((volumeAt bpb n base mem).setFat c word) where
  bpb := rfl
  numClusters := rfl
  fat d hd := by
    have hvolume : ((volumeAt bpb n base mem).setFat c word).fat d =
        Function.update (volumeAt bpb n base mem).fat c word d := rfl
    have himage : (volumeAt bpb n base (storeLE mem (fatAddr bpb base c) 4 word)).fat d =
        loadLE (storeLE mem (fatAddr bpb base c) 4 word) (fatAddr bpb base d) 4 := rfl
    rw [hvolume, himage]
    by_cases hdc : d = c
    · rw [hdc, Function.update_self, loadLE_storeLE_self]
      exact Nat.mod_eq_of_lt hword
    · rw [Function.update_of_ne hdc, loadLE_storeLE_of_disjoint (by rw [fatAddr, fatAddr]; omega)]
      rfl
  data d hd o ho := by
    have hdisj : fatAddr bpb base c + 4 ≤ clusterAddr bpb base d := fatAddr_le_clusterAddr h hc
    have hkeep : storeLE mem (fatAddr bpb base c) 4 word (clusterAddr bpb base d + o) =
      mem (clusterAddr bpb base d + o) :=
      store_of_not_mem (.inr (Nat.le_trans hdisj (Nat.le_add_right ..)))
    exact hkeep

end Moxia.Fat
