import Mathlib.Algebra.Group.Nat.Defs
import Mathlib.Algebra.Ring.Int.Defs
import Mathlib.Tactic.Common

/-!
# Integer expressions of C

The operands of an operation are converted to the common type of both, and the operation is done
there: modulo a power of two if the type is unsigned, and undefined (`none`) if the type is signed
and the result does not fit. An expression is `Exact` when no conversion and no operation in it
changes a value. For numbers that are not negative, the rules `Computes.add`, `Computes.sub` and
`Computes.mul` ask for one bound each.
-/

namespace Moxia.Lib

structure IntType where
  bits : Nat
  signed : Bool
deriving DecidableEq

namespace IntType

def uint8 : IntType := ⟨8, false⟩
def uint16 : IntType := ⟨16, false⟩
def uint32 : IntType := ⟨32, false⟩
def uint64 : IntType := ⟨64, false⟩
def int : IntType := ⟨32, true⟩

/-- One more than the largest value. -/
def bound (t : IntType) : Nat := if t.signed then 2 ^ (t.bits - 1) else 2 ^ t.bits

def Fits (t : IntType) (x : Int) : Prop :=
  (if t.signed then -(t.bound : Int) else 0) ≤ x ∧ x < t.bound

instance (t : IntType) (x : Int) : Decidable (t.Fits x) := inferInstanceAs (Decidable (_ ∧ _))

def convert (t : IntType) (x : Int) : Int :=
  if t.signed then x.bmod (2 ^ t.bits) else x % (2 ^ t.bits : Nat)

/-- Integer promotion. -/
def promote (t : IntType) : IntType := if t.bits < int.bits then int else t

/-- The usual arithmetic conversions. -/
def common (s t : IntType) : IntType :=
  let s := s.promote
  let t := t.promote
  if s.signed = t.signed then ⟨max s.bits t.bits, s.signed⟩
  else if s.signed then if s.bits ≤ t.bits then t else s
  else if t.bits ≤ s.bits then s else t

variable {t : IntType} {x : Int} {n : Nat}

theorem fits_natCast : t.Fits n ↔ n < t.bound := by
  rw [Fits]
  split <;> omega

theorem lt_uint32 (h : n < 2 ^ 32) : n < uint32.bound := h
theorem lt_uint64 (h : n < 2 ^ 64) : n < uint64.bound := h
theorem lt_int (h : n < 2 ^ 31) : n < int.bound := h

theorem convert_of_fits (ht : 0 < t.bits) (h : t.Fits x) : t.convert x = x := by
  rw [Fits, bound] at h
  rw [convert]
  split
  · rename_i hs
    obtain ⟨k, hk⟩ := Nat.exists_eq_add_of_lt ht
    have hhalf : t.bits - 1 = k := by omega
    rw [if_pos hs, if_pos hs, hhalf] at h
    have hpow : 2 ^ t.bits = 2 ^ k * 2 := by rw [hk, Nat.zero_add, Nat.pow_succ]
    rw [hpow]
    exact Int.bmod_eq_of_le (by omega) (by omega)
  · rename_i hs
    rw [if_neg hs, if_neg hs] at h
    exact Int.emod_eq_of_lt h.1 h.2

end IntType

inductive ArithOp
  | add | sub | mul

def ArithOp.apply : ArithOp → Int → Int → Int
  | add, x, y => x + y
  | sub, x, y => x - y
  | mul, x, y => x * y

inductive Expr
  /-- A variable or a literal with its value. -/
  | val (t : IntType) (x : Int)
  | cast (t : IntType) (e : Expr)
  | op (o : ArithOp) (a b : Expr)

namespace Expr

open IntType

instance : Add Expr := ⟨op .add⟩
instance : Sub Expr := ⟨op .sub⟩
instance : Mul Expr := ⟨op .mul⟩

def ofUInt8 (x : UInt8) : Expr := val uint8 x.toNat
def ofUInt16 (x : UInt16) : Expr := val uint16 x.toNat
def ofUInt32 (x : UInt32) : Expr := val uint32 x.toNat
def ofUInt64 (x : UInt64) : Expr := val uint64 x.toNat

/-- A literal without a suffix. -/
def lit (n : Nat) : Expr := val int n

def type : Expr → IntType
  | val t _ => t
  | cast t _ => t
  | op _ a b => common a.type b.type

def eval : Expr → Option Int
  | val _ x => some x
  | cast t e => e.eval.map t.convert
  | op o a b => do
    let t := common a.type b.type
    let r := o.apply (t.convert (← a.eval)) (t.convert (← b.eval))
    if t.signed ∧ ¬ t.Fits r then none else some (t.convert r)

/-- What the expression is in mathematics. -/
def value : Expr → Int
  | val _ x => x
  | cast _ e => e.value
  | op o a b => o.apply a.value b.value

/-- Each value fits the type in which it is computed. -/
def Exact : Expr → Prop
  | val t x => 0 < t.bits ∧ t.Fits x
  | cast t e => e.Exact ∧ 0 < t.bits ∧ t.Fits e.value
  | op o a b =>
      a.Exact ∧ b.Exact ∧ (common a.type b.type).Fits a.value ∧
      (common a.type b.type).Fits b.value ∧
      (common a.type b.type).Fits (o.apply a.value b.value)

end Expr

namespace IntType

theorem promote_bits_pos (t : IntType) : 0 < t.promote.bits := by
  rw [promote]
  split
  · exact Nat.succ_pos _
  · rename_i h
    exact Nat.lt_of_lt_of_le (Nat.succ_pos _) (Nat.le_of_not_lt h)

theorem common_bits_pos (s t : IntType) : 0 < (common s t).bits := by
  have hs := s.promote_bits_pos
  have ht := t.promote_bits_pos
  rw [common]
  split
  · exact Nat.lt_of_lt_of_le hs (Nat.le_max_left ..)
  · split <;> split <;> assumption

end IntType

namespace Expr

open IntType

variable {a b e : Expr} {x y : Nat} {s t : IntType}

theorem eval_of_exact (h : e.Exact) : e.eval = some e.value := by
  induction e with
  | val t x => rfl
  | cast t e ih =>
    obtain ⟨he, ht, hfits⟩ := h
    rw [eval, ih he, Option.map_some, convert_of_fits ht hfits, value]
  | op o a b iha ihb =>
    obtain ⟨ha, hb, hfa, hfb, hfits⟩ := h
    have ht := common_bits_pos a.type b.type
    simp only [eval, iha ha, ihb hb, Option.bind_eq_bind, Option.bind_some, convert_of_fits ht hfa,
      convert_of_fits ht hfb,
      convert_of_fits ht hfits, value]
    exact if_neg fun hno => hno.2 hfits

/-- The expression comes to `x` in the type `t`, and nothing in it overflows. -/
structure Computes (e : Expr) (t : IntType) (x : Nat) : Prop where
  type_eq : e.type = t
  exact : e.Exact
  eval_eq : e.eval = some (x : Int)

namespace Computes

theorem value_eq (h : Computes e t x) : e.value = x :=
  Option.some.inj ((eval_of_exact h.exact).symm.trans h.eval_eq)

theorem of_value (ht : e.type = t) (h : e.Exact) (hx : e.value = x) : Computes e t x :=
  ⟨ht, h, hx ▸ eval_of_exact h⟩

theorem val (ht : 0 < t.bits) (h : x < t.bound) : Computes (.val t x) t x :=
  .of_value rfl ⟨ht, fits_natCast.2 h⟩ rfl

theorem ofUInt8 (x : UInt8) : Computes (ofUInt8 x) uint8 x.toNat := val (Nat.succ_pos _) x.toNat_lt
theorem ofUInt16 (x : UInt16) : Computes (ofUInt16 x) uint16 x.toNat :=
  val (Nat.succ_pos _) x.toNat_lt
theorem ofUInt32 (x : UInt32) : Computes (ofUInt32 x) uint32 x.toNat :=
  val (Nat.succ_pos _) x.toNat_lt
theorem ofUInt64 (x : UInt64) : Computes (ofUInt64 x) uint64 x.toNat :=
  val (Nat.succ_pos _) x.toNat_lt

theorem lit (h : x < int.bound) : Computes (lit x) int x := val (Nat.succ_pos _) h

theorem cast (ht : 0 < t.bits) (he : Computes e s x) (h : x < t.bound) : Computes (.cast t e) t x :=
  .of_value rfl ⟨he.exact, ht, he.value_eq ▸ fits_natCast.2 h⟩ he.value_eq

theorem op {o : ArithOp} {z : Nat} (ha : Computes a s x) (hb : Computes b t y)
    (hx : x < (common s t).bound)
    (hy : y < (common s t).bound) (hz : z < (common s t).bound) (hvalue : o.apply x y = z) :
    Computes (.op o a b) (common s t) z := by
  obtain ⟨rfl, hexacta, -⟩ := id ha
  obtain ⟨rfl, hexactb, -⟩ := id hb
  rw [← ha.value_eq, ← hb.value_eq] at hvalue
  refine .of_value rfl ⟨hexacta, hexactb, ?_, ?_, ?_⟩ hvalue
  · exact ha.value_eq ▸ fits_natCast.2 hx
  · exact hb.value_eq ▸ fits_natCast.2 hy
  · exact hvalue ▸ fits_natCast.2 hz

theorem add (ha : Computes a s x) (hb : Computes b t y) (h : x + y < (common s t).bound) :
    Computes (a + b) (common s t) (x + y) :=
  .op ha hb (Nat.lt_of_le_of_lt (Nat.le_add_right ..) h) (Nat.lt_of_le_of_lt (Nat.le_add_left ..) h)
    h
    (Int.natCast_add x y).symm

theorem sub (ha : Computes a s x) (hb : Computes b t y) (hle : y ≤ x) (h : x < (common s t).bound) :
    Computes (a - b) (common s t) (x - y) :=
  .op ha hb h (Nat.lt_of_le_of_lt hle h) (Nat.lt_of_le_of_lt (Nat.sub_le ..) h)
    (Int.ofNat_sub hle).symm

theorem mul (ha : Computes a s x) (hb : Computes b t y) (hx : x < (common s t).bound)
    (hy : y < (common s t).bound)
    (h : x * y < (common s t).bound) : Computes (a * b) (common s t) (x * y) :=
  .op ha hb hx hy h (Int.natCast_mul x y).symm

end Computes

end Expr

end Moxia.Lib
