import Mathlib.Tactic.Common
import Mathlib.Algebra.Group.Nat.Defs
import Mathlib.Data.Nat.Init

/-!
# Bytes in a memory

A memory is a function from offsets to bytes. `store` is `memcpy` into it, `loadLE` and `storeLE`
are little-endian integers of `n` bytes.
-/

namespace Moxia.Lib

/-- The `n` bytes from `off` on are those of `src`. -/
def store (mem : Nat → UInt8) (off n : Nat) (src : Nat → UInt8) : Nat → UInt8 := fun o =>
  if off ≤ o ∧ o < off + n then src (o - off) else mem o

def loadLE (mem : Nat → UInt8) (off : Nat) : Nat → Nat
  | 0 => 0
  | n + 1 => (mem off).toNat + 256 * loadLE mem (off + 1) n

def storeLE (mem : Nat → UInt8) (off n x : Nat) : Nat → UInt8 :=
  store mem off n fun i => UInt8.ofNat (x / 256 ^ i)

variable {mem mem' : Nat → UInt8} {off n o : Nat} {src : Nat → UInt8}

theorem store_of_mem (h : off ≤ o ∧ o < off + n) : store mem off n src o = src (o - off) := if_pos h

theorem store_of_not_mem (h : o < off ∨ off + n ≤ o) : store mem off n src o = mem o :=
  if_neg (by omega)

theorem loadLE_congr (h : ∀ o, off ≤ o → o < off + n → mem o = mem' o) :
    loadLE mem off n = loadLE mem' off n := by
  induction n generalizing off with
  | zero => rfl
  | succ n ih =>
    rw [loadLE, loadLE, h off (Nat.le_refl _) (by omega), ih fun o hlo hhi =>
      h o (by omega) (by omega)]

theorem loadLE_lt : loadLE mem off n < 256 ^ n := by
  induction n generalizing off with
  | zero => exact Nat.one_pos
  | succ n ih =>
    have hb := (mem off).toNat_lt
    have : loadLE mem (off + 1) n < 256 ^ n := ih
    rw [loadLE, Nat.pow_succ]
    omega

theorem loadLE_storeLE_self (mem : Nat → UInt8) (off n x : Nat) :
    loadLE (storeLE mem off n x) off n = x % 256 ^ n := by
  have key : ∀ k off', off' = off + k → ∀ n', k + n' = n →
      loadLE (storeLE mem off n x) off' n' = x / 256 ^ k % 256 ^ n' := by
    intro k off' hoff n' hn
    induction n' generalizing k off' with
    | zero => simp [loadLE, Nat.mod_one]
    | succ n' ih =>
      have hbyte : storeLE mem off n x off' = UInt8.ofNat (x / 256 ^ k) := by
        rw [storeLE, store_of_mem (by omega), hoff, Nat.add_sub_cancel_left]
      rw [loadLE, hbyte, UInt8.toNat_ofNat', ih (k + 1) (off' + 1) (by omega) (by omega),
        Nat.pow_succ 256 k,
        ← Nat.div_div_eq_div_mul, Nat.pow_succ 256 n', Nat.mul_comm (256 ^ n'), Nat.mod_mul]
  simpa using key 0 off rfl n (by omega)

theorem loadLE_storeLE_of_disjoint {off' n' x : Nat} (h : off + n ≤ off' ∨ off' + n' ≤ off) :
    loadLE (storeLE mem off' n' x) off n = loadLE mem off n :=
  loadLE_congr fun _ _ _ => store_of_not_mem (by omega)

theorem storeLE_storeLE (mem : Nat → UInt8) (off n x y : Nat) :
    storeLE (storeLE mem off n x) off n y = storeLE mem off n y := by
  funext o
  simp only [storeLE]
  by_cases h : off ≤ o ∧ o < off + n
  · rw [store_of_mem h, store_of_mem h]
  · have h' : o < off ∨ off + n ≤ o := by omega
    rw [store_of_not_mem h', store_of_not_mem h', store_of_not_mem h']

end Moxia.Lib
