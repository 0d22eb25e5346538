import Moxia.Memory.Manager

/-!
# The bitmap behind `BitmapMemoryManager`

`bit m f` is the bit of frame `f`. `getBit` reads it, `setBit` and `setBits` change it exactly at
the frames named, for every frame of the map; nothing else of the manager changes. All later
reasoning about the allocator goes through these lemmas, never through lines and masks.
-/

namespace Moxia.BitmapMemoryManager

variable {m m' : BitmapMemoryManager}

/-- The bit of frame `f`. -/
def bit (m : BitmapMemoryManager) (f : Nat) : Bool :=
  (m.allocMap (f / kBitsPerMapLine)).getLsbD (f % kBitsPerMapLine)

theorem line_lt_iff (f : Nat) : f / kBitsPerMapLine < kFrameCount / kBitsPerMapLine ↔
    f < kFrameCount := by
  simp only [kBitsPerMapLine, kFrameCount, kMaxPhysicalMemoryBytes, kBytesPerFrame]
  omega

theorem and_shift_ne_zero (x : BitVec 64) {k : Nat} (hk : k < 64) :
    (x &&& (1#64 <<< k) != 0#64) = x.getLsbD k := by
  have hbit : (BitVec.twoPow 64 k).getLsbD k = true := by simp [hk]
  rw [← BitVec.twoPow_eq, BitVec.and_twoPow]
  split
  · rename_i hx
    rw [hx, bne_iff_ne]
    intro h0
    simp [h0] at hbit
  · rename_i hx
    simpa using hx

theorem getLsbD_setLine (x : BitVec 64) {k j : Nat} (hk : k < 64) (hj : j < 64) (b : Bool) :
    (if b then x ||| (1#64 <<< k) else x &&& ~~~(1#64 <<< k)).getLsbD j =
      if j = k then b else x.getLsbD j := by
  rw [← BitVec.twoPow_eq]
  by_cases h : j = k
  · cases b <;> simp [h, hk]
  · cases b <;> simp [h, hj]

theorem getBit_eq (m : BitmapMemoryManager) (f : Nat) :
    m.getBit f = if f < kFrameCount then some (m.bit f) else none := by
  have hlt : f % kBitsPerMapLine < 64 := Nat.mod_lt _ (by decide)
  simp only [getBit, line_lt_iff, bit, and_shift_ne_zero _ hlt]

/-- A manager is its range and its bits. -/
theorem eq_of_bit (hbegin : m'.rangeBegin = m.rangeBegin) (hend : m'.rangeEnd = m.rangeEnd)
    (hbit : ∀ f, m'.bit f = m.bit f) :
    m' = m := by
  have hmap : m'.allocMap = m.allocMap := funext fun line => BitVec.eq_of_getLsbD_eq fun i hi => by
    have h := hbit (kBitsPerMapLine * line + i)
    rw [bit, bit, kBitsPerMapLine, Nat.mul_add_div (by decide), Nat.mul_add_mod,
      Nat.div_eq_of_lt hi, Nat.mod_eq_of_lt hi] at h
    exact h
  cases m
  cases m'
  simp_all

theorem bit_new (f : Nat) : new.bit f = false := by simp [bit, new]

/-- `SetBit` inside the map writes the bit of `f` and nothing else. -/
theorem setBit_spec (m : BitmapMemoryManager) {f : Nat} (hf : f < kFrameCount) (b : Bool) :
    ∃ m', m.setBit f b = some m' ∧ m'.rangeBegin = m.rangeBegin ∧ m'.rangeEnd = m.rangeEnd ∧
      ∀ g, m'.bit g = if g = f then b else m.bit g := by
  refine ⟨_, if_pos ((line_lt_iff f).2 hf), rfl, rfl, fun g => ?_⟩
  have hmod : ∀ x, x % kBitsPerMapLine < 64 := fun x => Nat.mod_lt _ (by decide)
  show BitVec.getLsbD (if _ then _ else _) _ = _
  by_cases hline : g / kBitsPerMapLine = f / kBitsPerMapLine
  · have hiff : g % kBitsPerMapLine = f % kBitsPerMapLine ↔ g = f := by
      simp only [kBitsPerMapLine] at hline ⊢
      omega
    rw [if_pos hline, getLsbD_setLine _ (hmod f) (hmod g), bit, hline]
    simp only [hiff]
  · rw [if_neg hline, if_neg (fun h => hline (by rw [h])), bit]

theorem setBit_eq_none (m : BitmapMemoryManager) {f : Nat} (hf : kFrameCount ≤ f) (b : Bool) :
    m.setBit f b = none := by
  rw [setBit, if_neg (fun h => absurd ((line_lt_iff f).1 h) (Nat.not_lt.2 hf))]

theorem setBits_spec (m : BitmapMemoryManager) (b : Bool) (start : Nat) :
    ∀ n, start + n ≤ kFrameCount →
      ∃ m', m.setBits b start n = some m' ∧ m'.rangeBegin = m.rangeBegin ∧
        m'.rangeEnd = m.rangeEnd ∧
        ∀ g, m'.bit g = if start ≤ g ∧ g < start + n then b else m.bit g
  | 0, _ => ⟨m, rfl, rfl, rfl, fun g => by rw [if_neg (by omega)]⟩
  | n + 1, hn => by
    obtain ⟨m₁, h₁, hb₁, he₁, hbit₁⟩ := setBits_spec m b start n (by omega)
    obtain ⟨m₂, h₂, hb₂, he₂, hbit₂⟩ := m₁.setBit_spec (f := start + n) (by omega) b
    refine ⟨m₂, by simp [setBits, h₁, h₂], hb₂.trans hb₁, he₂.trans he₁, fun g => ?_⟩
    rw [hbit₂, hbit₁]
    split_ifs <;> first | rfl | omega

theorem markAllocated_spec (m : BitmapMemoryManager) (start : Nat) {n : Nat}
    (h : start + n ≤ kFrameCount) :
    ∃ m', m.markAllocated start n = some m' ∧ m'.rangeBegin = m.rangeBegin ∧
      m'.rangeEnd = m.rangeEnd ∧
      ∀ g, m'.bit g = if start ≤ g ∧ g < start + n then true else m.bit g :=
  m.setBits_spec true start n h

end Moxia.BitmapMemoryManager
