import Mathlib.Algebra.Group.Nat.Defs
import Mathlib.Logic.Function.Basic
import Mathlib.Tactic.Common

/-!
# Memory seen through address spaces

An address space maps pages of 4096 bytes to frames, so that an address has a place: a frame and an
offset in it. Addresses less than a page apart have different places, in one space or in two
(`place_inj`). `Holds` says which bytes are at an address; what is written is there afterwards, and
nothing else has changed (`writeBytes_spec`).
-/

namespace Moxia.Lib

/-- The frame that a page has in a space. -/
abbrev Frames (σ : Type*) := σ → Nat → Option Nat

abbrev Place := Nat × Nat

namespace Frames

variable {σ : Type*} (frames : Frames σ)

def place (s : σ) (a : UInt64) : Option Place := (frames s (a.toNat / 4096)).map fun f =>
    (f, a.toNat % 4096)

def readBytes (s : σ) (mem : Place → UInt8) : UInt64 → Nat → Option (List UInt8)
  | _, 0 => some []
  | a, n + 1 => (frames.place s a).bind fun x => (readBytes s mem (a + 1) n).map (mem x :: ·)

def writeBytes (s : σ) : UInt64 → List UInt8 → (Place → UInt8) → Option (Place → UInt8)
  | _, [], mem => some mem
  | a, b :: l, mem => (frames.place s a).bind fun x =>
      writeBytes s (a + 1) l (Function.update mem x b)

/-- `n` bytes from `a` on have places. -/
def Mapped (s : σ) (a : UInt64) (n : Nat) : Prop :=
  ∀ k, k < n → ∃ x, frames.place s (a + UInt64.ofNat k) = some x

/-- The bytes from `a` on. -/
def Holds (s : σ) (mem : Place → UInt8) (a : UInt64) (l : List UInt8) : Prop :=
  ∀ k, (hk : k < l.length) → ∃ x, frames.place s (a + UInt64.ofNat k) = some x ∧ mem x = l[k]

/-- The place is that of one of `n` bytes from `a` on. -/
def Within (s : σ) (a : UInt64) (n : Nat) (x : Place) : Prop :=
  ∃ k, k < n ∧ frames.place s (a + UInt64.ofNat k) = some x

variable {frames} {s s' : σ} {a : UInt64} {x : Place} {mem mem' : Place → UInt8} {l l' : List UInt8}
    {i j k n : Nat}

theorem add_ofNat_succ (a : UInt64) (k : Nat) :
    a + UInt64.ofNat (k + 1) = a + 1 + UInt64.ofNat k := by
  rw [UInt64.ofNat_add, UInt64.add_comm (UInt64.ofNat k), ← UInt64.add_assoc]
  rfl

theorem add_ofNat_add (a : UInt64) (j k : Nat) :
    a + UInt64.ofNat (j + k) = a + UInt64.ofNat j + UInt64.ofNat k := by
  rw [UInt64.ofNat_add, ← UInt64.add_assoc]

@[simp] theorem add_ofNat_zero (a : UInt64) : a + UInt64.ofNat 0 = a := UInt64.add_zero a

/-! ## Places -/

theorem place_inj (hk : k < 4096) (hj : j < 4096)
    (hx : frames.place s (a + UInt64.ofNat k) = some x)
    (hy : frames.place s' (a + UInt64.ofNat j) = some x) : k = j := by
  obtain ⟨f, -, hf⟩ := Option.map_eq_some_iff.1 hx
  obtain ⟨g, -, hg⟩ := Option.map_eq_some_iff.1 hy
  have heq : (a + UInt64.ofNat k).toNat % 4096 = (a + UInt64.ofNat j).toNat % 4096 :=
    congrArg Prod.snd (hf.trans hg.symm)
  rw [UInt64.toNat_add, UInt64.toNat_add, UInt64.toNat_ofNat', UInt64.toNat_ofNat'] at heq
  omega

theorem Within.mono (h : frames.Within s (a + UInt64.ofNat i) n x) {m : Nat} (hm : i + n ≤ m) :
    frames.Within s a m x := by
  obtain ⟨k, hk, hx⟩ := h
  exact ⟨i + k, by omega, by rw [add_ofNat_add]; exact hx⟩

theorem Within.disjoint (h : frames.Within s (a + UInt64.ofNat i) n x) {m : Nat} (hi : i + n ≤ 4096)
    (hj : j + m ≤ 4096)
    (hdisj : i + n ≤ j ∨ j + m ≤ i) : ¬ frames.Within s' (a + UInt64.ofNat j) m x := by
  rintro ⟨k', hk', hx'⟩
  obtain ⟨k, hk, hx⟩ := h
  rw [← add_ofNat_add] at hx hx'
  have := place_inj (by omega) (by omega) hx hx'
  omega

/-! ## Bytes -/

theorem Mapped.mono (h : frames.Mapped s a n) {m : Nat} (hm : i + m ≤ n) :
    frames.Mapped s (a + UInt64.ofNat i) m := by
  intro k hk
  rw [← add_ofNat_add]
  exact h (i + k) (by omega)

theorem Holds.mapped (h : frames.Holds s mem a l) : frames.Mapped s a l.length := fun k hk => by
  obtain ⟨x, hx, -⟩ := h k hk
  exact ⟨x, hx⟩

theorem holds_nil : frames.Holds s mem a [] := fun _ hk => absurd hk (Nat.not_lt_zero _)

theorem holds_cons {c : UInt8} : frames.Holds s mem a (c :: l) ↔
    (∃ x, frames.place s a = some x ∧ mem x = c) ∧ frames.Holds s mem (a + 1) l := by
  constructor
  · intro h
    refine ⟨?_, fun k hk => ?_⟩
    · have hzero := h 0 (Nat.succ_pos _)
      rwa [add_ofNat_zero] at hzero
    · rw [← add_ofNat_succ]
      exact h (k + 1) (Nat.succ_lt_succ hk)
  · rintro ⟨hhead, htail⟩ k hk
    cases k with
    | zero => rwa [add_ofNat_zero]
    | succ k =>
      rw [add_ofNat_succ]
      exact htail k (Nat.lt_of_succ_lt_succ hk)

theorem holds_append : frames.Holds s mem a (l ++ l') ↔
    frames.Holds s mem a l ∧ frames.Holds s mem (a + UInt64.ofNat l.length) l' := by
  induction l generalizing a with
  | nil => rw [List.nil_append, List.length_nil, add_ofNat_zero, and_iff_right holds_nil]
  | cons c l ih => rw [List.cons_append, holds_cons, holds_cons, ih, List.length_cons,
      add_ofNat_succ, and_assoc]

theorem Holds.congr (h : frames.Holds s mem a l) (hmem : ∀ x, frames.Within s a l.length x →
    mem' x = mem x) :
    frames.Holds s mem' a l := fun k hk => by
  obtain ⟨x, hx, hb⟩ := h k hk
  exact ⟨x, hx, (hmem x ⟨k, hk, hx⟩).trans hb⟩

theorem Holds.copied {b : UInt64} (h : frames.Holds s mem a l)
    (hmapped : frames.Mapped s b l.length)
    (hcopy : ∀ k, k < l.length → ∀ x y, frames.place s (a + UInt64.ofNat k) = some x →
      frames.place s (b + UInt64.ofNat k) = some y → mem' y = mem x) : frames.Holds s mem' b l := by
  intro k hk
  obtain ⟨x, hx, hbyte⟩ := h k hk
  obtain ⟨y, hy⟩ := hmapped k hk
  exact ⟨y, hy, (hcopy k hk x y hx hy).trans hbyte⟩

theorem readBytes_eq_some : frames.readBytes s mem a n = some l ↔
    l.length = n ∧ frames.Holds s mem a l := by
  induction n generalizing a l with
  | zero =>
    rw [readBytes, Option.some.injEq, eq_comm, List.length_eq_zero_iff]
    exact ⟨fun h => ⟨h, h ▸ holds_nil⟩, And.left⟩
  | succ n ih =>
    rw [readBytes, Option.bind_eq_some_iff]
    constructor
    · rintro ⟨x, hx, hrest⟩
      obtain ⟨l', hl', rfl⟩ := Option.map_eq_some_iff.1 hrest
      obtain ⟨hlen, htail⟩ := ih.1 hl'
      exact ⟨congrArg Nat.succ hlen, holds_cons.2 ⟨⟨x, hx, rfl⟩, htail⟩⟩
    · rintro ⟨hlen, h⟩
      obtain ⟨c, l', rfl⟩ := List.exists_cons_of_length_eq_add_one hlen
      obtain ⟨⟨x, hx, hc⟩, htail⟩ := holds_cons.1 h
      exact ⟨x, hx, Option.map_eq_some_iff.2 ⟨l', ih.2 ⟨Nat.succ.inj hlen, htail⟩, by rw [hc]⟩⟩

theorem Holds.readBytes (h : frames.Holds s mem a l) : frames.readBytes s mem a l.length = some l :=
  readBytes_eq_some.2 ⟨rfl, h⟩

theorem Mapped.readBytes (h : frames.Mapped s a n) : ∃ l, frames.readBytes s mem a n = some l := by
  induction n generalizing a with
  | zero => exact ⟨[], rfl⟩
  | succ n ih =>
    obtain ⟨x, hx⟩ := h 0 (Nat.succ_pos n)
    rw [add_ofNat_zero] at hx
    obtain ⟨l, hl⟩ := ih fun k hk => add_ofNat_succ a k ▸ h (k + 1) (Nat.succ_lt_succ hk)
    exact ⟨mem x :: l, by rw [Frames.readBytes, hx, Option.bind_some, hl, Option.map_some]⟩

theorem writeBytes_mapped (h : frames.writeBytes s a l mem = some mem') :
    frames.Mapped s a l.length := by
  induction l generalizing a mem with
  | nil => exact fun _ hk => absurd hk (Nat.not_lt_zero _)
  | cons c l ih =>
    rw [writeBytes, Option.bind_eq_some_iff] at h
    obtain ⟨x, hx, hrest⟩ := h
    intro k hk
    cases k with
    | zero => exact ⟨x, by rwa [add_ofNat_zero]⟩
    | succ k =>
      rw [add_ofNat_succ]
      exact ih hrest k (Nat.lt_of_succ_lt_succ hk)

theorem writeBytes_spec (mem : Place → UInt8) (hlen : l.length ≤ 4096)
    (hmapped : frames.Mapped s a l.length) :
    ∃ mem', frames.writeBytes s a l mem = some mem' ∧ frames.Holds s mem' a l ∧
      ∀ x, ¬ frames.Within s a l.length x → mem' x = mem x := by
  induction l generalizing a mem with
  | nil => exact ⟨mem, rfl, holds_nil, fun _ _ => rfl⟩
  | cons c l ih =>
    obtain ⟨x, hx⟩ := hmapped 0 (Nat.succ_pos _)
    rw [add_ofNat_zero] at hx
    obtain ⟨mem', hwrite, hholds, hkept⟩ : ∃ mem',
        frames.writeBytes s (a + 1) l (Function.update mem x c) = some mem' ∧
        frames.Holds s mem' (a + 1) l ∧
          ∀ y, ¬ frames.Within s (a + 1) l.length y → mem' y = Function.update mem x c y :=
      ih _ (Nat.le_of_succ_le hlen) fun k hk =>
        add_ofNat_succ a k ▸ hmapped (k + 1) (Nat.succ_lt_succ hk)
    refine ⟨mem', by rw [writeBytes, hx, Option.bind_some, hwrite], holds_cons.2 ⟨⟨x, hx, ?_⟩,
      hholds⟩, fun y hy => ?_⟩
    · -- the bytes behind it are written elsewhere
      rw [hkept x, Function.update_self]
      rintro ⟨k, hk, hxk⟩
      rw [← add_ofNat_succ] at hxk
      have hzero : frames.place s (a + UInt64.ofNat 0) = some x := by rwa [add_ofNat_zero]
      rw [List.length_cons] at hlen
      exact absurd (place_inj (by omega) (by omega) hzero hxk) (Nat.succ_ne_zero k).symm
    · have hne : y ≠ x := fun heq => hy ⟨0, Nat.succ_pos _, by rw [add_ofNat_zero, heq]; exact hx⟩
      rw [hkept y, Function.update_of_ne hne]
      rintro ⟨k, hk, hyk⟩
      exact hy ⟨k + 1, Nat.succ_lt_succ hk, by rw [add_ofNat_succ]; exact hyk⟩

end Frames

/-! ## Words -/

/-- The bytes of a word, the lowest first. -/
def wordBytes (v : UInt64) : List UInt8 := (List.range 8).map fun k =>
    UInt8.ofNat (v.toNat / 256 ^ k)

def ofBytes (l : List UInt8) : UInt64 := UInt64.ofNat (l.foldr (fun b n => b.toNat + 256 * n) 0)

@[simp] theorem length_wordBytes (v : UInt64) :
    (wordBytes v).length = 8 := by rw [wordBytes, List.length_map, List.length_range]

theorem ofBytes_wordBytes (v : UInt64) : ofBytes (wordBytes v) = v := by
  have hlt := v.toNat_lt
  have hval : (wordBytes v).foldr (fun b n => b.toNat + 256 * n) 0 = v.toNat := by
    simp only [wordBytes, List.range, List.range.loop, List.map_cons, List.map_nil, List.foldr_cons,
      List.foldr_nil,
      UInt8.toNat_ofNat']
    omega
  rw [ofBytes, hval, UInt64.ofNat_toNat]

theorem wordBytes_ofBytes {l : List UInt8} (h : l.length = 8) : wordBytes (ofBytes l) = l := by
  match l, h with
  | [a, b, c, d, e, f, g, i], _ =>
    have ha := a.toNat_lt
    have hb := b.toNat_lt
    have hc := c.toNat_lt
    have hd := d.toNat_lt
    have he := e.toNat_lt
    have hf := f.toNat_lt
    have hg := g.toNat_lt
    have hi := i.toNat_lt
    simp only [wordBytes, ofBytes, List.range, List.range.loop, List.map_cons, List.map_nil,
      List.foldr_cons, List.foldr_nil,
      UInt64.toNat_ofNat', List.cons.injEq, and_true, ← UInt8.toNat_inj, UInt8.toNat_ofNat']
    omega

def byte (v : UInt64) (k : Nat) : UInt8 := UInt8.ofNat (v.toNat / 256 ^ k)

theorem getElem_wordBytes {v : UInt64} {k : Nat} (hk : k < (wordBytes v).length) :
    (wordBytes v)[k] = byte v k := by
  simp only [wordBytes, List.getElem_map, List.getElem_range, byte]

/-- The first `n` bytes are a remainder. -/
theorem byte_eq_iff {v w : UInt64} {n : Nat} :
    (∀ k, k < n → byte v k = byte w k) ↔ v.toNat % 256 ^ n = w.toNat % 256 ^ n := by
  induction n with
  | zero => simp only [Nat.not_lt_zero, false_implies, implies_true, Nat.pow_zero, Nat.mod_one]
  | succ n ih =>
    have hbyte : byte v n = byte w n ↔ v.toNat / 256 ^ n % 256 = w.toNat / 256 ^ n % 256 := by
      rw [byte, byte, ← UInt8.toNat_inj, UInt8.toNat_ofNat', UInt8.toNat_ofNat']
    have hpos : 0 < 256 ^ n := Nat.pow_pos (by decide)
    rw [Nat.forall_lt_succ_right, ih, hbyte, Nat.pow_succ, Nat.mod_mul, Nat.mod_mul]
    constructor
    · rintro ⟨hlow, hhigh⟩
      rw [hlow, hhigh]
    · intro h
      have hlow : v.toNat % 256 ^ n = w.toNat % 256 ^ n := by
        have hmod := congrArg (fun x => x % 256 ^ n) h
        simpa only [Nat.add_mul_mod_self_left, Nat.mod_mod] using hmod
      rw [hlow] at h
      exact ⟨hlow, Nat.eq_of_mul_eq_mul_left hpos (Nat.add_left_cancel h)⟩

end Moxia.Lib
