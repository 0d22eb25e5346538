import Mathlib.Algebra.Group.Nat.Defs
import Mathlib.Tactic.Common

/-!
# Addresses and page-table entries (`paging.hpp`)

Both are unions of a 64-bit number and bit fields. An address is kept as the number, an entry as its
fields: `data` and `ofData` are the two views of an entry.
-/

namespace Moxia

def kPageDirectoryCount : Nat := 64

/-- `LinearAddress4Level` -/
structure LinearAddress4Level where
  value : Nat
deriving DecidableEq

namespace LinearAddress4Level

/-- The weight of the fields `page`, `dir`, `pdp` and `pml4`. -/
def weight (pageMapLevel : Nat) : Nat := 4096 * 512 ^ (pageMapLevel - 1)

def part (addr : LinearAddress4Level) (pageMapLevel : Nat) : Nat :=
  if pageMapLevel = 0 then addr.value % 4096
  else if pageMapLevel ≤ 4 then addr.value / weight pageMapLevel % 512
  else 0

def setPart (addr : LinearAddress4Level) (pageMapLevel value : Nat) : LinearAddress4Level :=
  if pageMapLevel = 0 then ⟨addr.value - addr.part 0 + value % 4096⟩
  else if pageMapLevel ≤ 4 then
    ⟨addr.value - addr.part pageMapLevel * weight pageMapLevel + value % 512 * weight pageMapLevel⟩
  else addr

/-- `for (int level = pageMapLevel; level >= 1; --level) addr.SetPart(level, 0);` -/
def clearParts (addr : LinearAddress4Level) : Nat → LinearAddress4Level
  | 0 => addr
  | level + 1 => (addr.setPart (level + 1) 0).clearParts level

/-- The number of the page in the address space of the PML4. -/
def pageNumber (addr : LinearAddress4Level) : Nat := addr.value / 4096 % 512 ^ 4

variable {addr : LinearAddress4Level} {l : Nat}

theorem part_succ (hl : l < 4) : addr.part (l + 1) = addr.pageNumber / 512 ^ l % 512 := by
  rw [part, if_neg (Nat.succ_ne_zero l), if_pos (Nat.succ_le_of_lt hl), weight, pageNumber,
    Nat.add_sub_cancel]
  obtain rfl | rfl | rfl | rfl : l = 0 ∨ l = 1 ∨ l = 2 ∨ l = 3 := by omega
  all_goals omega

theorem pageNumber_lt : addr.pageNumber < 512 ^ 4 := Nat.mod_lt _ (by decide)

/-- Setting a part replaces one digit of the page number. -/
theorem pageNumber_setPart (hl : l < 4) {v : Nat} (hv : v < 512) :
    (addr.setPart (l + 1) v).pageNumber =
    addr.pageNumber - addr.pageNumber / 512 ^ l % 512 * 512 ^ l + v * 512 ^ l := by
  rw [setPart, if_neg (Nat.succ_ne_zero l), if_pos (Nat.succ_le_of_lt hl), part_succ hl, weight,
    pageNumber, pageNumber, Nat.add_sub_cancel,
    Nat.mod_eq_of_lt hv]
  dsimp only
  obtain rfl | rfl | rfl | rfl : l = 0 ∨ l = 1 ∨ l = 2 ∨ l = 3 := by omega
  all_goals omega

theorem pageNumber_clearParts : ∀ {l}, l ≤ 4 → ∀ {addr : LinearAddress4Level},
    (addr.clearParts l).pageNumber =
    addr.pageNumber - addr.pageNumber % 512 ^ l
  | 0, _, addr => by rw [clearParts, Nat.pow_zero, Nat.mod_one, Nat.sub_zero]
  | l + 1, hl, addr => by
    rw [clearParts, pageNumber_clearParts (Nat.le_of_succ_le hl), pageNumber_setPart hl (by decide)]
    obtain rfl | rfl | rfl | rfl : l = 0 ∨ l = 1 ∨ l = 2 ∨ l = 3 := by omega
    all_goals omega

/-- What the loop of `SetupPageMap` goes on with: the first page behind the entry. -/
theorem pageNumber_next (hl : l < 4) (hi : addr.part (l + 1) < 511) :
    ((addr.setPart (l + 1) (addr.part (l + 1) + 1)).clearParts l).pageNumber =
      (addr.pageNumber / 512 ^ l + 1) * 512 ^ l := by
  rw [pageNumber_clearParts (Nat.le_of_lt hl), pageNumber_setPart hl (Nat.succ_lt_succ hi),
    part_succ hl]
  rw [part_succ hl] at hi
  have := addr.pageNumber_lt
  obtain rfl | rfl | rfl | rfl : l = 0 ∨ l = 1 ∨ l = 2 ∨ l = 3 := by omega
  all_goals omega

end LinearAddress4Level

/-- `PageMapEntry`; `free` and `unused` are the fields without a name. -/
structure PageMapEntry where
  present : Bool
  writable : Bool
  user : Bool
  writeThrough : Bool
  cacheDisable : Bool
  accessed : Bool
  dirty : Bool
  hugePage : Bool
  global : Bool
  free : Fin 8
  addr : Fin (2 ^ 40)
  unused : Fin (2 ^ 12)
deriving DecidableEq

namespace PageMapEntry

def data (e : PageMapEntry) : Nat :=
  e.present.toNat + 2 * e.writable.toNat + 4 * e.user.toNat + 8 * e.writeThrough.toNat + 16 *
    e.cacheDisable.toNat +
    32 * e.accessed.toNat + 64 * e.dirty.toNat + 128 * e.hugePage.toNat + 256 * e.global.toNat +
      512 * e.free.val +
    2 ^ 12 * e.addr.val + 2 ^ 52 * e.unused.val

def ofData (n : Nat) : PageMapEntry where
  present := n % 2 = 1
  writable := n / 2 % 2 = 1
  user := n / 4 % 2 = 1
  writeThrough := n / 8 % 2 = 1
  cacheDisable := n / 16 % 2 = 1
  accessed := n / 32 % 2 = 1
  dirty := n / 64 % 2 = 1
  hugePage := n / 128 % 2 = 1
  global := n / 256 % 2 = 1
  free := Fin.ofNat 8 (n / 512)
  addr := Fin.ofNat (2 ^ 40) (n / 2 ^ 12)
  unused := Fin.ofNat (2 ^ 12) (n / 2 ^ 52)

theorem ofData_data (e : PageMapEntry) : ofData e.data = e := by
  have hbit (b : Bool) {n : Nat} (hn : n % 2 = b.toNat) : decide (n % 2 = 1) = b := by
    cases b <;> simp [hn]
  have hfield {k n : Nat} [NeZero k] (x : Fin k) (hn : n % k = x.val) : Fin.ofNat k n = x :=
    Fin.ext hn
  obtain ⟨p, w, u, wt, cd, a, d, hp, g, fr, ad, un⟩ := e
  have hp' := p.toNat_lt
  have hw' := w.toNat_lt
  have hu' := u.toNat_lt
  have hwt' := wt.toNat_lt
  have hcd' := cd.toNat_lt
  have ha' := a.toNat_lt
  have hd' := d.toNat_lt
  have hhp' := hp.toNat_lt
  have hg' := g.toNat_lt
  have hfr := fr.isLt
  have had := ad.isLt
  have hun := un.isLt
  simp only [ofData, data, mk.injEq]
  refine ⟨hbit p ?_, hbit w ?_, hbit u ?_, hbit wt ?_, hbit cd ?_, hbit a ?_, hbit d ?_,
    hbit hp ?_, hbit g ?_,
    hfield fr ?_, hfield ad ?_, hfield un ?_⟩
  all_goals omega

theorem data_ofData {n : Nat} (hn : n < 2 ^ 64) : (ofData n).data = n := by
  have hbit (x : Nat) : (decide (x % 2 = 1)).toNat = x % 2 := by
    rcases Nat.mod_two_eq_zero_or_one x with h | h <;> rw [h] <;> rfl
  have hfield (k x : Nat) [NeZero k] : (Fin.ofNat k x).val = x % k := rfl
  simp only [data, ofData, hbit, hfield]
  omega

theorem data_lt (e : PageMapEntry) : e.data < 2 ^ 64 := by
  have hp := e.present.toNat_lt
  have hw := e.writable.toNat_lt
  have hu := e.user.toNat_lt
  have hwt := e.writeThrough.toNat_lt
  have hcd := e.cacheDisable.toNat_lt
  have ha := e.accessed.toNat_lt
  have hd := e.dirty.toNat_lt
  have hhp := e.hugePage.toNat_lt
  have hg := e.global.toNat_lt
  have hfr := e.free.isLt
  have had := e.addr.isLt
  have hun := e.unused.isLt
  rw [data]
  omega

/-- `Pointer()` as a frame number. -/
def pointer (e : PageMapEntry) : Nat := e.addr.val

/-- `SetPointer` of a frame. -/
def setPointer (e : PageMapEntry) (frame : Nat) : PageMapEntry :=
  { e with addr := Fin.ofNat (2 ^ 40) frame }

/-- `bits.present = 1` -/
def setPresent (e : PageMapEntry) : PageMapEntry := { e with present := true }

/-- `bits.writable = 1` and `bits.user = 1` -/
def grant (e : PageMapEntry) : PageMapEntry := { e with writable := true, user := true }

/-- `data = 0` -/
def empty : PageMapEntry := ofData 0

/-- The bits an application needs in each entry on the way to its page. -/
structure Granted (e : PageMapEntry) : Prop where
  present : e.present = true
  writable : e.writable = true
  user : e.user = true

@[simp] theorem empty_present : empty.present = false := rfl
@[simp] theorem empty_hugePage : empty.hugePage = false := rfl
@[simp] theorem setPresent_present (e : PageMapEntry) : e.setPresent.present = true := rfl
@[simp] theorem setPresent_hugePage (e : PageMapEntry) : e.setPresent.hugePage = e.hugePage := rfl
@[simp] theorem setPresent_pointer (e : PageMapEntry) : e.setPresent.pointer = e.pointer := rfl
@[simp] theorem setPointer_hugePage (e : PageMapEntry) (frame : Nat) :
    (e.setPointer frame).hugePage = e.hugePage := rfl
@[simp] theorem grant_present (e : PageMapEntry) : e.grant.present = e.present := rfl
@[simp] theorem grant_hugePage (e : PageMapEntry) : e.grant.hugePage = e.hugePage := rfl
@[simp] theorem grant_pointer (e : PageMapEntry) : e.grant.pointer = e.pointer := rfl

theorem granted_grant {e : PageMapEntry} (hp : e.present = true) : e.grant.Granted := ⟨hp, rfl, rfl⟩

theorem pointer_setPointer (e : PageMapEntry) {frame : Nat} (h : frame < 2 ^ 40) :
    (e.setPointer frame).pointer = frame :=
  Nat.mod_eq_of_lt h

end PageMapEntry

end Moxia
