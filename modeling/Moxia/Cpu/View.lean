import Moxia.Cpu.Items
import Mathlib.Data.List.GetD

/-!
# Views

The routines that save and restore contexts use two pieces of memory only: the stack, of which they
know the top, and a block to which a register points. A `View` has both as lists, without addresses.
Where a view's step goes through, the processor's does, and memory is again as the view says
(`Shows.step`, `Shows.run`). Views run by computation.
-/

namespace Moxia

open Lib Item

structure View extends Arch where
  /-- How many bytes may still be pushed. -/
  room : Nat
  stack : List Item
  block : List Item
  /-- The register that points to the block. -/
  ptr : Option Reg
  /-- `rbp` points to the last items of the stack, so many of them. -/
  frame : Option Nat
  /-- Whether `rsp` is a multiple of 16 or 8 more, where that is known. -/
  spAligned : Option Bool
  /-- Whether the block's address is known to be a multiple of 16. -/
  blockAligned : Bool

namespace View

variable (p : Platform)

/-- Any register but `rsp`. -/
def setReg (v : View) (r : Reg) (x : UInt64) : View :=
  { v with
    gpr := assign v.gpr r x
    ptr := v.ptr.filter (· ≠ r)
    frame := if r = .rbp then none else v.frame }

/-- `rbp` is set to the stack pointer. -/
def setFrame (v : View) : View :=
  { v with
    gpr := assign v.gpr .rbp (v.gpr .rsp)
    ptr := v.ptr.filter (· ≠ .rbp)
    frame := some v.stack.length }

def setFlags (v : View) (result : UInt64) : View :=
  { v with rflags := (v.rflags &&& ~~~arithmeticFlags) ||| (p.flags result &&& arithmeticFlags) }

/-- What is at `[base + off]`. -/
def item (v : View) (base : Reg) (off : Nat) : Option Item :=
  if v.ptr = some base then itemAt v.block off
  else if base = .rsp then itemAt v.stack off
  else if base = .rbp then v.frame.bind fun n => itemAt (v.stack.drop (v.stack.length - n)) off
  else none

def word (v : View) (base : Reg) (off : Nat) : Option UInt64 :=
  match v.item base off with
  | some (.word x) => some x
  | _ => none

/-- Only the block and the top of the stack are written. -/
def setItem (v : View) (base : Reg) (off : Nat) (i : Item) : Option View :=
  if v.ptr = some base then (setAt v.block off i).map fun l => { v with block := l }
  else if base = .rsp then (setAt v.stack off i).map fun l => { v with stack := l }
  else none

/-- `spAligned` when `rsp` moves by `n`. -/
def moved (a : Option Bool) (n : Nat) : Option Bool :=
  if n % 16 = 0 then a else if n % 16 = 8 then a.map not else none

def push (v : View) (x : UInt64) : Option View :=
  if v.room < 8 then none
  else some { v with
    gpr := assign v.gpr .rsp (v.gpr .rsp - 8)
    room := v.room - 8
    stack := .word x :: v.stack
    spAligned := moved v.spAligned 8 }

def pushAll : List UInt64 → View → Option View
  | [], v => some v
  | x :: xs, v => (v.push x).bind (pushAll xs)

/-- `rsp` has gone up by `n`, and `l` is left. -/
def dropped (v : View) (n : Nat) (l : List Item) : View :=
  { v with
    gpr := assign v.gpr .rsp (v.gpr .rsp + UInt64.ofNat n)
    room := v.room + n
    stack := l
    frame := v.frame.filter fun k => k ≤ l.length
    spAligned := moved v.spAligned n }

def drop (v : View) (n : Nat) : Option View := (dropBytes v.stack n).map (v.dropped n)

def pop (v : View) : Option (UInt64 × View) :=
  match v.stack with
  | .word x :: l => some (x, v.dropped 8 l)
  | _ => none

/-- Whether `fxsave` may use the address. -/
def aligned (v : View) (base : Reg) (off : Nat) : Bool :=
  if v.ptr = some base then v.blockAligned && off % 16 == 0
  else base == .rsp && v.spAligned == some true && off % 16 == 0

def area (v : View) (base : Reg) (off : Nat) : Option (Vector UInt8 512) :=
  match v.item base off with
  | some (.area b) => some b
  | _ => none

def step (v : View) : Instr → Option View
  | .mov dst src =>
    if dst = .rsp then
      if src = .rbp then v.frame.bind fun n =>
        if n ≤ v.stack.length then
          some { v with
            gpr := assign v.gpr .rsp (v.gpr .rbp)
            room := v.room + sizes (v.stack.take (v.stack.length - n))
            stack := v.stack.drop (v.stack.length - n)
            spAligned := none }
        else none
      else none
    else if dst = .rbp ∧ src = .rsp then some v.setFrame
    else some (v.setReg dst (v.gpr src))
  | .mov32 dst src => if dst = .rsp then none else some (v.setReg dst (lowHalf (v.gpr src)))
  | .lea dst base off =>
      if dst = .rsp then none else some (v.setReg dst (v.gpr base + UInt64.ofNat off))
  | .load dst base off => if dst = .rsp then none else (v.word base off).map fun x => v.setReg dst x
  | .store base off src => v.setItem base off (.word (v.gpr src))
  | .push src => v.push (v.gpr src)
  | .pushMem base off => (v.word base off).bind fun x => v.push x
  | .pop dst => if dst = .rsp then none else v.pop.map fun r => r.2.setReg dst r.1
  | .popMem base off => v.pop.bind fun r => r.2.setItem base off (.word r.1)
  | .pushfq => v.push v.rflags
  | .add dst n =>
    if dst = .rsp then (v.drop n).map fun w => w.setFlags p (v.gpr .rsp + UInt64.ofNat n)
    else some ((v.setReg dst (v.gpr dst + UInt64.ofNat n)).setFlags p (v.gpr dst + UInt64.ofNat n))
  | .sub dst n =>
    if dst = .rsp ∧ n ≤ v.room then
      let x := v.gpr .rsp - UInt64.ofNat n
      some (setFlags p
        { v with
          gpr := assign v.gpr .rsp x
          room := v.room - n
          stack := .gap n :: v.stack
          spAligned := moved v.spAligned n } x)
    else none
  | .movFromCR3 dst => if dst = .rsp then none else some (v.setReg dst v.cr3)
  | .movFromSeg dst src =>
    if dst = .rsp then none else
      some (v.setReg dst ((v.gpr dst &&& ~~~0xffff) ||| (v.seg src).toUInt64))
  | .movToSeg dst src => some { v with seg := assign v.seg dst (v.gpr src).toUInt16 }
  | .fxsave base off => if v.aligned base off then v.setItem base off (.area v.fx) else none
  | .fxrstor base off => if v.aligned base off then (v.area base off).map fun b =>
      { v with fx := b } else none
  | .ret => v.pop.map fun r => { r.2 with rip := r.1 }
  | _ => none

def run : List Instr → View → Option View
  | [], v => some v
  | i :: code, v => (v.step p i).bind (run code)

end View

/-- Memory is as the view says: the stack ends `size` bytes behind `lo`, the block is at `base`. -/
structure Shows (p : Platform) (lo : UInt64) (size : Nat) (base : UInt64) (len : Nat) (v : View)
    (mem : Place → UInt8) : Prop where
  rsp : v.gpr .rsp = lo + UInt64.ofNat v.room
  size_eq : v.room + sizes v.stack = size
  size_le : size ≤ 4096
  len_eq : sizes v.block = len
  len_le : len ≤ 4096
  room : p.frames.Mapped v.cr3 lo size
  stack : Block p.frames v.cr3 mem (lo + UInt64.ofNat v.room) v.stack
  block : Block p.frames v.cr3 mem base v.block
  apart : ∀ x, p.frames.Within v.cr3 lo size x → ¬ p.frames.Within v.cr3 base len x
  ptr : ∀ r, v.ptr = some r → r ≠ .rsp ∧ v.gpr r = base
  frame : ∀ n, v.frame = some n → n ≤ v.stack.length ∧
    v.gpr .rbp = lo + UInt64.ofNat (v.room + sizes (v.stack.take (v.stack.length - n)))
  spAligned : ∀ b, v.spAligned = some b → (v.gpr .rsp).toNat % 16 = if b then 0 else 8
  blockAligned : v.blockAligned = true → base.toNat % 16 = 0

/-- Only the stack and the block have changed. -/
def Kept (p : Platform) (lo : UInt64) (size : Nat) (base : UInt64) (len : Nat) (s : UInt64)
    (mem mem' : Place → UInt8) : Prop :=
  ∀ x, ¬ p.frames.Within s lo size x → ¬ p.frames.Within s base len x → mem' x = mem x

namespace Shows

variable {p : Platform} {lo base : UInt64} {size len : Nat} {v v' : View} {mem : Place → UInt8}
  {r : Reg} {off n : Nat} {x : UInt64}
  {i : Item}

/-! ## Reading -/

theorem item (h : Shows p lo size base len v mem) (hi : v.item r off = some i) :
    i.At p.frames v.cr3 mem (v.gpr r + UInt64.ofNat off) := by
  rw [View.item] at hi
  split at hi
  · rename_i hptr
    rw [(h.ptr r hptr).2]
    exact h.block.itemAt hi
  split at hi
  · rename_i hrsp
    rw [hrsp, h.rsp]
    exact h.stack.itemAt hi
  split at hi
  · rename_i hrbp
    obtain ⟨n, hn, hat⟩ := Option.bind_eq_some_iff.1 hi
    obtain ⟨-, hframe⟩ := h.frame n hn
    have hstack := h.stack
    rw [← List.take_append_drop (v.stack.length - n) v.stack, block_append, ← Frames.add_ofNat_add]
      at hstack
    rw [hrbp, hframe]
    exact hstack.2.itemAt hat
  · cases hi

theorem word (h : Shows p lo size base len v mem) (hx : v.word r off = some x) :
    (Cpu.mk v.toArch mem).word p (v.gpr r + UInt64.ofNat off) = some x := by
  have hi : v.item r off = some (.word x) := by
    rw [View.word] at hx
    split at hx
    · cases hx
      assumption
    · cases hx
  have hread := (show p.frames.Holds v.cr3 mem _ (wordBytes x) from h.item hi).readBytes
  rw [length_wordBytes] at hread
  rw [Cpu.word, Cpu.read, hread, Option.map_some, ofBytes_wordBytes]

theorem area (h : Shows p lo size base len v mem) {b : Vector UInt8 512}
    (hb : v.area r off = some b) :
    (Cpu.mk v.toArch mem).read p (v.gpr r + UInt64.ofNat off) 512 = some b.toList := by
  have hi : v.item r off = some (.area b) := by
    rw [View.area] at hb
    split at hb
    · cases hb
      assumption
    · cases hb
  have hread := (show p.frames.Holds v.cr3 mem _ b.toList from h.item hi).readBytes
  rwa [b.length_toList] at hread

/-! ## Registers -/

theorem setReg (h : Shows p lo size base len v mem) (hr : r ≠ .rsp) :
    Shows p lo size base len (v.setReg r x) mem where
  rsp := (assign_of_ne hr.symm).trans h.rsp
  size_eq := h.size_eq
  size_le := h.size_le
  len_eq := h.len_eq
  len_le := h.len_le
  room := h.room
  stack := h.stack
  block := h.block
  apart := h.apart
  ptr q hq := by
    obtain ⟨hold, hne⟩ := Option.filter_eq_some_iff.1 hq
    obtain ⟨hrsp, hbase⟩ := h.ptr q hold
    exact ⟨hrsp, (assign_of_ne (of_decide_eq_true hne)).trans hbase⟩
  frame n hn := by
    rw [View.setReg] at hn
    dsimp only at hn
    split at hn
    · cases hn
    · rename_i hne
      obtain ⟨hle, hrbp⟩ := h.frame n hn
      exact ⟨hle, (assign_of_ne fun heq => hne heq.symm).trans hrbp⟩
  spAligned b hb := by
    have hrsp : (v.setReg r x).gpr .rsp = v.gpr .rsp := assign_of_ne hr.symm
    rw [hrsp]
    exact h.spAligned b hb
  blockAligned := h.blockAligned

theorem setFrame (h : Shows p lo size base len v mem) :
    Shows p lo size base len v.setFrame mem where
  rsp := h.rsp
  size_eq := h.size_eq
  size_le := h.size_le
  len_eq := h.len_eq
  len_le := h.len_le
  room := h.room
  stack := h.stack
  block := h.block
  apart := h.apart
  ptr := (h.setReg (show Reg.rbp ≠ .rsp by decide)).ptr
  frame n hn := by
    cases hn
    have hrbp : v.setFrame.gpr .rbp = v.gpr .rsp := assign_self v.gpr .rbp _
    have hnil : sizes (v.setFrame.stack.take (v.setFrame.stack.length - v.stack.length)) = 0 := by
      rw [View.setFrame, Nat.sub_self, List.take_zero, sizes]
    rw [hrbp, hnil]
    exact ⟨Nat.le_refl _, h.rsp⟩
  spAligned := h.spAligned
  blockAligned := h.blockAligned

theorem setArch (h : Shows p lo size base len v mem) {c : Arch}
    (hgpr : ∀ r, r = .rsp ∨ r = .rbp ∨ v.ptr = some r → c.gpr r = v.gpr r) (hcr3 : c.cr3 = v.cr3) :
    Shows p lo size base len { v with toArch := c } mem := by
  obtain ⟨hrsp, hsize, hsize_le, hlen, hlen_le, hroom, hstack, hblock, hapart, hptr, hframe,
    hsa, hba⟩ := h
  rw [← hcr3] at hroom hstack hblock hapart
  refine ⟨(hgpr _ (.inl rfl)).trans hrsp, hsize, hsize_le, hlen, hlen_le, hroom, hstack, hblock,
    hapart, fun r hr => ?_,
    fun n hn => ?_, fun b hb => ?_, hba⟩
  · exact ⟨(hptr r hr).1, (hgpr r (.inr (.inr hr))).trans (hptr r hr).2⟩
  · exact ⟨(hframe n hn).1, (hgpr _ (.inr (.inl rfl))).trans (hframe n hn).2⟩
  · have hsp : c.gpr .rsp = v.gpr .rsp := hgpr _ (.inl rfl)
    exact (congrArg (fun x : UInt64 => x.toNat % 16) hsp).trans (hsa b hb)

theorem congr (h : Shows p lo size base len v mem) {mem' : Place → UInt8}
    (hmem : ∀ x, p.frames.Within v.cr3 lo size x ∨ p.frames.Within v.cr3 base len x →
    mem' x = mem x) :
    Shows p lo size base len v mem' :=
  { h with
    stack := h.stack.congr fun x hx => hmem x (.inl (hx.mono (Nat.le_of_eq h.size_eq)))
    block := h.block.congr fun x hx => hmem x (.inr (h.len_eq ▸ hx)) }

/-! ## The stack -/

/-- `rsp` moves to `lo + room`, and the last `n` items stay. -/
theorem moveStack (h : Shows p lo size base len v mem) {mem' : Place → UInt8} {room : Nat}
    {stack : List Item} {frame : Option Nat}
    {spAligned : Option Bool}
    (hx : x = lo + UInt64.ofNat room) (hsize : room + sizes stack = size)
    (hstack : Block p.frames v.cr3 mem' (lo + UInt64.ofNat room) stack)
    (hblock : Block p.frames v.cr3 mem' base v.block)
    (hframe : ∀ n, frame = some n → v.frame = some n ∧ n ≤ stack.length ∧
      room + sizes (stack.take (stack.length - n)) =
        v.room + sizes (v.stack.take (v.stack.length - n)))
    (halign : ∀ b, spAligned = some b → x.toNat % 16 = if b then 0 else 8) :
    Shows p lo size base len
      { v with gpr := assign v.gpr .rsp x, room := room, stack := stack, frame := frame,
               spAligned := spAligned } mem' where
  rsp := (assign_self v.gpr .rsp x).trans hx
  size_eq := hsize
  size_le := h.size_le
  len_eq := h.len_eq
  len_le := h.len_le
  room := h.room
  stack := hstack
  block := hblock
  apart := h.apart
  ptr q hq := by
    obtain ⟨hrsp, hbase⟩ := h.ptr q hq
    exact ⟨hrsp, (assign_of_ne hrsp).trans hbase⟩
  frame n hn := by
    obtain ⟨hold, hle, hsame⟩ := hframe n hn
    obtain ⟨-, hrbp⟩ := h.frame n hold
    have hrbp' : assign v.gpr .rsp x .rbp = v.gpr .rbp := assign_of_ne (by decide)
    exact ⟨hle, hrbp'.trans (hsame ▸ hrbp)⟩
  spAligned b hb := by
    dsimp only
    rw [assign_self]
    exact halign b hb
  blockAligned := h.blockAligned

theorem rsp_sub (h : Shows p lo size base len v mem) (hn : n ≤ v.room) :
    v.gpr .rsp - UInt64.ofNat n = lo + UInt64.ofNat (v.room - n) := by
  have hsum : lo + UInt64.ofNat v.room = lo + UInt64.ofNat (v.room - n) + UInt64.ofNat n := by
    rw [← Frames.add_ofNat_add, Nat.sub_add_cancel hn]
  rw [h.rsp, hsum, UInt64.add_sub_cancel]

/-- What is below the frame pointer grows by an item. -/
theorem frame_cons (h : Shows p lo size base len v mem) {room : Nat}
    (hroom : room + i.size = v.room) (hn : v.frame = some n) :
    v.frame = some n ∧ n ≤ (i :: v.stack).length ∧
      room + sizes ((i :: v.stack).take ((i :: v.stack).length - n)) =
        v.room + sizes (v.stack.take (v.stack.length - n)) := by
  obtain ⟨hle, -⟩ := h.frame n hn
  have hsub : (i :: v.stack).length - n = v.stack.length - n + 1 := by
    rw [List.length_cons]
    omega
  rw [hsub, List.take_succ_cons, sizes, List.length_cons]
  exact ⟨hn, by omega, by omega⟩

theorem moved_up (h : Shows p lo size base len v mem) {b : Bool}
    (hb : View.moved v.spAligned n = some b) :
    (v.gpr .rsp + UInt64.ofNat n).toNat % 16 = if b then 0 else 8 := by
  rw [UInt64.toNat_add, UInt64.toNat_ofNat']
  rw [View.moved] at hb
  split at hb
  · have := h.spAligned b hb
    cases b <;> simp at this ⊢ <;> omega
  split at hb
  · obtain ⟨c, hc, rfl⟩ := Option.map_eq_some_iff.1 hb
    have := h.spAligned c hc
    cases c <;> simp at this ⊢ <;> omega
  · cases hb

theorem moved_down (h : Shows p lo size base len v mem) {b : Bool}
    (hb : View.moved v.spAligned n = some b) :
    (v.gpr .rsp - UInt64.ofNat n).toNat % 16 = if b then 0 else 8 := by
  rw [UInt64.toNat_sub, UInt64.toNat_ofNat']
  rw [View.moved] at hb
  split at hb
  · have := h.spAligned b hb
    cases b <;> simp at this ⊢ <;> omega
  split at hb
  · obtain ⟨c, hc, rfl⟩ := Option.map_eq_some_iff.1 hb
    have := h.spAligned c hc
    cases c <;> simp at this ⊢ <;> omega
  · cases hb

theorem sub (h : Shows p lo size base len v mem) (hn : n ≤ v.room) : Shows p lo size base len
    { v with
      gpr := assign v.gpr .rsp (v.gpr .rsp - UInt64.ofNat n)
      room := v.room - n
      stack := .gap n :: v.stack
      spAligned := View.moved v.spAligned n } mem := by
  have hsize := h.size_eq
  refine h.moveStack (h.rsp_sub hn) ?_ ⟨h.room.mono ?_, ?_⟩ h.block (fun k hk => h.frame_cons ?_ hk)
    fun b hb => h.moved_down hb
  · rw [sizes, Item.size]
    omega
  · omega
  · rw [← Frames.add_ofNat_add, Item.size, Nat.sub_add_cancel hn]
    exact h.stack
  · exact Nat.sub_add_cancel hn

theorem push (h : Shows p lo size base len v mem) (hv : v.push x = some v') :
    ∃ mem', (Cpu.mk v.toArch mem).push p x = some (Cpu.mk v'.toArch mem') ∧
      Shows p lo size base len v' mem' ∧
      Kept p lo size base len v.cr3 mem mem' := by
  rw [View.push] at hv
  split at hv
  · cases hv
  rename_i hroom
  cases hv
  have hn : 8 ≤ v.room := Nat.le_of_not_lt hroom
  have hsize := h.size_eq
  have hsize_le := h.size_le
  have hrsp := h.rsp_sub hn
  have hmapped : p.frames.Mapped v.cr3 (lo + UInt64.ofNat (v.room - 8)) (wordBytes x).length := by
    rw [length_wordBytes]
    exact h.room.mono (by omega)
  obtain ⟨mem', hwrite, hholds, hkept⟩ :=
    Frames.writeBytes_spec (l := wordBytes x) mem (by rw [length_wordBytes]; omega) hmapped
  rw [length_wordBytes] at hkept
  have hin : ∀ y, p.frames.Within v.cr3 (lo + UInt64.ofNat (v.room - 8)) 8 y →
    p.frames.Within v.cr3 lo size y :=
    fun y hy => hy.mono (by omega)
  refine ⟨mem', ?_, h.moveStack hrsp ?_ ⟨hholds, ?_⟩ ?_ (fun k hk => h.frame_cons ?_ hk) fun b hb =>
    h.moved_down hb,
    fun y hy _ => hkept y fun hw => hy (hin y hw)⟩
  · have hw : p.frames.writeBytes v.cr3 (v.gpr .rsp - 8) (wordBytes x) mem = some mem' :=
      (congrArg (fun a =>
      p.frames.writeBytes v.cr3 a (wordBytes x) mem) hrsp).trans hwrite
    rw [Cpu.push, Cpu.write]
    dsimp only
    rw [hw, Option.map_some, Option.map_some]
    rfl
  · rw [sizes, Item.size]
    omega
  · rw [← Frames.add_ofNat_add, Item.size, Nat.sub_add_cancel hn]
    refine h.stack.congr fun y hy => hkept y fun hw => ?_
    exact hw.disjoint (by omega) (by omega) (.inl (by omega)) hy
  · refine h.block.congr fun y hy => hkept y fun hw => h.apart y (hin y hw) ?_
    rwa [← h.len_eq]
  · exact Nat.sub_add_cancel hn

theorem dropped (h : Shows p lo size base len v mem) {before l : List Item}
    (hstack : v.stack = before ++ l)
    (hbefore : sizes before = n) : Shows p lo size base len (v.dropped n l) mem := by
  have hsize := h.size_eq
  have hblock := h.stack
  rw [hstack, sizes_append, hbefore] at hsize
  rw [hstack, block_append, hbefore, ← Frames.add_ofNat_add] at hblock
  refine h.moveStack ?_ (by omega) hblock.2 h.block (fun k hk => ?_) fun b hb => h.moved_up hb
  · rw [h.rsp, Frames.add_ofNat_add]
  · obtain ⟨hframe, hle⟩ := Option.filter_eq_some_iff.1 hk
    have hle' : k ≤ l.length := of_decide_eq_true hle
    have hsub : v.stack.length - k = before.length + (l.length - k) := by
      rw [hstack, List.length_append]
      omega
    refine ⟨hframe, hle', ?_⟩
    rw [hsub, hstack, List.take_length_add_append, sizes_append, hbefore, Nat.add_assoc]

theorem pop (h : Shows p lo size base len v mem) (hv : v.pop = some (x, v')) :
    (Cpu.mk v.toArch mem).pop p = some (x, Cpu.mk v'.toArch mem) ∧
      Shows p lo size base len v' mem := by
  rw [View.pop] at hv
  split at hv
  · rename_i y l hstack
    cases hv
    refine ⟨?_, h.dropped (show v.stack = [.word x] ++ l from hstack) rfl⟩
    have hword : (Cpu.mk v.toArch mem).word p (v.gpr .rsp) = some x := by
      have hblock := h.stack
      rw [hstack, ← h.rsp] at hblock
      exact Cpu.word_eq_some.2 hblock.1
    rw [Cpu.pop]
    dsimp only
    rw [hword]
    rfl
  · cases hv

theorem leave (h : Shows p lo size base len v mem) (hn : v.frame = some n) :
    Shows p lo size base len
    { v with
      gpr := assign v.gpr .rsp (v.gpr .rbp)
      room := v.room + sizes (v.stack.take (v.stack.length - n))
      stack := v.stack.drop (v.stack.length - n)
      spAligned := none } mem := by
  obtain ⟨hle, hrbp⟩ := h.frame n hn
  have hsize := h.size_eq
  have hblock := h.stack
  rw [← List.take_append_drop (v.stack.length - n) v.stack, sizes_append] at hsize
  rw [← List.take_append_drop (v.stack.length - n) v.stack, block_append, ← Frames.add_ofNat_add]
    at hblock
  refine h.moveStack hrbp (by omega) hblock.2 h.block (fun k hk => ?_) fun b hb => by cases hb
  cases hn.symm.trans hk
  have hlen : (v.stack.drop (v.stack.length - n)).length = n := by
    rw [List.length_drop]
    omega
  refine ⟨hn, Nat.le_of_eq hlen.symm, ?_⟩
  rw [hlen, Nat.sub_self, List.take_zero, sizes, Nat.add_zero]

/-! ## Writing -/

theorem setItem (h : Shows p lo size base len v mem) (hv : v.setItem r off i = some v')
    {l : List UInt8}
    (hlen : l.length = i.size) (hl : ∀ mem a, p.frames.Holds v.cr3 mem a l →
    i.At p.frames v.cr3 mem a) :
    ∃ mem', (Cpu.mk v.toArch mem).write p (v.gpr r + UInt64.ofNat off) l =
      some (Cpu.mk v'.toArch mem') ∧
      Shows p lo size base len v' mem' ∧ Kept p lo size base len v.cr3 mem mem' := by
  have hsize := h.size_eq
  have hsize_le := h.size_le
  have hlen_le := h.len_le
  rw [View.setItem] at hv
  split at hv
  · rename_i hptr
    obtain ⟨block, hset, rfl⟩ := Option.map_eq_some_iff.1 hv
    obtain ⟨hsizes, hend⟩ := sizes_setAt hset
    rw [h.len_eq] at hsizes hend
    have hmapped : p.frames.Mapped v.cr3 (base + UInt64.ofNat off) l.length := by
      rw [hlen]
      exact h.block.mapped.mono (by rw [h.len_eq]; exact hend)
    obtain ⟨mem', hwrite, hholds, hkept⟩ := Frames.writeBytes_spec mem (by omega) hmapped
    rw [hlen] at hkept
    have hin : ∀ y, p.frames.Within v.cr3 (base + UInt64.ofNat off) i.size y →
      p.frames.Within v.cr3 base len y :=
      fun y hy => hy.mono hend
    refine ⟨mem', ?_, { h with
      len_eq := hsizes, block := ?_, stack := ?_ }, fun y _ hy => hkept y fun hw => hy (hin y hw)⟩
    · rw [(h.ptr r hptr).2, Cpu.write]
      dsimp only
      rw [hwrite, Option.map_some]
    · refine h.stack.congr fun y hy => hkept y fun hw => h.apart y (hy.mono (by omega)) (hin y hw)
    · exact h.block.setAt hset (h.len_eq ▸ hlen_le) (hl mem' _ hholds) hkept
  split at hv
  · rename_i hrsp
    obtain ⟨stack, hset, rfl⟩ := Option.map_eq_some_iff.1 hv
    obtain ⟨hsizes, hend⟩ := sizes_setAt hset
    obtain ⟨hlength, htake⟩ := take_setAt hset
    have haddr : v.gpr r + UInt64.ofNat off = lo + UInt64.ofNat v.room + UInt64.ofNat off := by
      rw [hrsp, h.rsp]
    have hmapped : p.frames.Mapped v.cr3 (lo + UInt64.ofNat v.room + UInt64.ofNat off)
      l.length := by
      rw [hlen, ← Frames.add_ofNat_add]
      exact h.room.mono (by omega)
    obtain ⟨mem', hwrite, hholds, hkept⟩ := Frames.writeBytes_spec mem (by omega) hmapped
    rw [hlen] at hkept
    have hin : ∀ y, p.frames.Within v.cr3 (lo + UInt64.ofNat v.room + UInt64.ofNat off) i.size y →
        p.frames.Within v.cr3 lo size y := fun y hy => by
      rw [← Frames.add_ofNat_add] at hy
      exact hy.mono (by omega)
    refine ⟨mem', ?_, { h with size_eq := ?_, stack := ?_, block := ?_, frame := fun n hn => ?_ },
      fun y hy _ => hkept y fun hw => hy (hin y hw)⟩
    · rw [haddr, Cpu.write]
      dsimp only
      rw [hwrite, Option.map_some]
    · dsimp only
      rw [hsizes]
      exact hsize
    · exact h.stack.setAt hset (by omega) (hl mem' _ hholds) hkept
    · refine h.block.congr fun y hy => hkept y fun hw => h.apart y (hin y hw) ?_
      rwa [← h.len_eq]
    · dsimp only
      rw [hlength, htake]
      exact h.frame n hn
  · cases hv

/-- Where `fxsave` and `fxrstor` may be used, the address is a multiple of 16. -/
theorem aligned (h : Shows p lo size base len v mem) (ha : v.aligned r off = true) :
    ¬ (v.gpr r + UInt64.ofNat off).toNat % 16 ≠ 0 := by
  have hmod : ∀ a : UInt64, ∀ n : Nat, a.toNat % 16 = 0 → n % 16 = 0 →
    (a + UInt64.ofNat n).toNat % 16 = 0 := by
    intro a n ha hn
    rw [UInt64.toNat_add, UInt64.toNat_ofNat']
    omega
  rw [View.aligned] at ha
  rw [not_not]
  split at ha
  · rename_i hptr
    simp only [Bool.and_eq_true, beq_iff_eq] at ha
    rw [(h.ptr r hptr).2]
    exact hmod base off (h.blockAligned ha.1) ha.2
  · simp only [Bool.and_eq_true, beq_iff_eq] at ha
    obtain ⟨⟨rfl, hsp⟩, hoff⟩ := ha
    exact hmod _ off (h.spAligned true hsp) hoff

/-! ## Steps -/

theorem kept_refl {s : UInt64} : Kept p lo size base len s mem mem := fun _ _ _ => rfl

theorem kept_trans {s : UInt64} {mem' mem'' : Place → UInt8}
    (h : Kept p lo size base len s mem mem')
    (h' : Kept p lo size base len s mem' mem'') : Kept p lo size base len s mem mem'' :=
    fun x hx hy =>
  (h' x hx hy).trans (h x hx hy)

theorem push_cr3 (h : v.push x = some v') : v'.cr3 = v.cr3 := by
  rw [View.push] at h
  split at h
  · cases h
  · cases h
    rfl

theorem pop_cr3 (h : v.pop = some (x, v')) : v'.cr3 = v.cr3 := by
  rw [View.pop] at h
  split at h
  · cases h
    rfl
  · cases h

theorem setItem_cr3 (h : v.setItem r off i = some v') : v'.cr3 = v.cr3 := by
  rw [View.setItem] at h
  split at h
  · obtain ⟨l, -, rfl⟩ := Option.map_eq_some_iff.1 h
    rfl
  split at h
  · obtain ⟨l, -, rfl⟩ := Option.map_eq_some_iff.1 h
    rfl
  · cases h

/-- The processor does what the view does. -/
theorem step (h : Shows p lo size base len v mem) {c : Instr} (hv : v.step p c = some v') :
    ∃ mem', (Cpu.mk v.toArch mem).step p c = some (Cpu.mk v'.toArch mem') ∧
      Shows p lo size base len v' mem' ∧
      Kept p lo size base len v.cr3 mem mem' ∧ v'.cr3 = v.cr3 := by
  cases c with
  | mov dst src =>
    rw [View.step] at hv
    split at hv
    · rename_i hdst
      split at hv
      · rename_i hsrc
        obtain ⟨n, hn, hv⟩ := Option.bind_eq_some_iff.1 hv
        split at hv
        · cases hv
          exact ⟨mem, by rw [hdst, hsrc]; rfl, h.leave hn, kept_refl, rfl⟩
        · cases hv
      · cases hv
    rename_i hdst
    split at hv
    · rename_i hframe
      cases hv
      exact ⟨mem, by rw [hframe.1, hframe.2]; rfl, h.setFrame, kept_refl, rfl⟩
    · cases hv
      exact ⟨mem, rfl, h.setReg hdst, kept_refl, rfl⟩
  | mov32 dst src =>
    rw [View.step] at hv
    split at hv
    · cases hv
    · rename_i hdst
      cases hv
      exact ⟨mem, rfl, h.setReg hdst, kept_refl, rfl⟩
  | lea dst base off =>
    rw [View.step] at hv
    split at hv
    · cases hv
    · rename_i hdst
      cases hv
      exact ⟨mem, rfl, h.setReg hdst, kept_refl, rfl⟩
  | load dst base off =>
    rw [View.step] at hv
    split at hv
    · cases hv
    · rename_i hdst
      obtain ⟨x, hx, rfl⟩ := Option.map_eq_some_iff.1 hv
      refine ⟨mem, ?_, h.setReg hdst, kept_refl, rfl⟩
      rw [Cpu.step]
      dsimp only
      rw [h.word hx]
      rfl
  | store base off src =>
    obtain ⟨mem', hrun, hshows, hkept⟩ := h.setItem hv (length_wordBytes _) fun _ _ hl => hl
    exact ⟨mem', hrun, hshows, hkept, setItem_cr3 hv⟩
  | push src =>
    obtain ⟨mem', hrun, hshows, hkept⟩ := h.push hv
    exact ⟨mem', hrun, hshows, hkept, push_cr3 hv⟩
  | pushMem base off =>
    obtain ⟨x, hx, hpush⟩ := Option.bind_eq_some_iff.1 hv
    obtain ⟨mem', hrun, hshows, hkept⟩ := h.push hpush
    refine ⟨mem', ?_, hshows, hkept, push_cr3 hpush⟩
    rw [Cpu.step]
    dsimp only
    rw [h.word hx]
    exact hrun
  | pop dst =>
    rw [View.step] at hv
    split at hv
    · cases hv
    · rename_i hdst
      obtain ⟨⟨x, w⟩, hpop, rfl⟩ := Option.map_eq_some_iff.1 hv
      obtain ⟨hrun, hshows⟩ := h.pop hpop
      have hcr3 : w.cr3 = v.cr3 := pop_cr3 hpop
      refine ⟨mem, ?_, hshows.setReg hdst, kept_refl, hcr3⟩
      rw [Cpu.step, hrun]
      rfl
  | popMem base off =>
    obtain ⟨⟨x, w⟩, hpop, hset⟩ := Option.bind_eq_some_iff.1 hv
    obtain ⟨hrun, hshows⟩ := h.pop hpop
    obtain ⟨mem', hwrite, hshows', hkept⟩ := hshows.setItem hset (length_wordBytes _) fun _ _ hl =>
      hl
    have hcr3 : w.cr3 = v.cr3 := pop_cr3 hpop
    refine ⟨mem', ?_, hshows', hcr3 ▸ hkept, (setItem_cr3 hset).trans hcr3⟩
    rw [Cpu.step, hrun]
    exact hwrite
  | pushfq =>
    obtain ⟨mem', hrun, hshows, hkept⟩ := h.push hv
    exact ⟨mem', hrun, hshows, hkept, push_cr3 hv⟩
  | add dst n =>
    rw [View.step] at hv
    split at hv
    · rename_i hdst
      obtain ⟨w, hw, rfl⟩ := Option.map_eq_some_iff.1 hv
      obtain ⟨l, hl, rfl⟩ := Option.map_eq_some_iff.1 hw
      obtain ⟨before, hstack, hbefore⟩ := dropBytes_eq_some hl
      exact ⟨mem, by rw [hdst]; rfl, (h.dropped hstack hbefore).setArch (fun _ _ =>
        rfl) rfl, kept_refl, rfl⟩
    · rename_i hdst
      cases hv
      exact ⟨mem, rfl, (h.setReg hdst).setArch (fun _ _ => rfl) rfl, kept_refl, rfl⟩
  | sub dst n =>
    rw [View.step] at hv
    split at hv
    · rename_i hdst
      cases hv
      exact ⟨mem, by rw [hdst.1]; rfl, (h.sub hdst.2).setArch (fun _ _ => rfl) rfl, kept_refl, rfl⟩
    · cases hv
  | movFromCR3 dst =>
    rw [View.step] at hv
    split at hv
    · cases hv
    · rename_i hdst
      cases hv
      exact ⟨mem, rfl, h.setReg hdst, kept_refl, rfl⟩
  | movFromSeg dst src =>
    rw [View.step] at hv
    split at hv
    · cases hv
    · rename_i hdst
      cases hv
      exact ⟨mem, rfl, h.setReg hdst, kept_refl, rfl⟩
  | movToSeg dst src =>
    cases hv
    exact ⟨mem, rfl, h.setArch (fun _ _ => rfl) rfl, kept_refl, rfl⟩
  | fxsave base off =>
    rw [View.step] at hv
    split at hv
    · rename_i halign
      obtain ⟨mem', hrun, hshows, hkept⟩ := h.setItem hv v.fx.length_toList fun _ _ hl => hl
      refine ⟨mem', ?_, hshows, hkept, setItem_cr3 hv⟩
      rw [Cpu.step, Cpu.fxsave]
      exact (if_neg (h.aligned halign)).trans hrun
    · cases hv
  | fxrstor base off =>
    rw [View.step] at hv
    split at hv
    · rename_i halign
      obtain ⟨b, hb, rfl⟩ := Option.map_eq_some_iff.1 hv
      refine ⟨mem, ?_, h.setArch (fun _ _ => rfl) rfl, kept_refl, rfl⟩
      have hvector : (Vector.ofFn fun k : Fin 512 => b.toList.getD k 0) = b := by
        refine Vector.ext fun k hk => ?_
        rw [Vector.getElem_ofFn, List.getD_eq_getElem _ _ (by rwa [b.length_toList])]
        rfl
      rw [Cpu.step, Cpu.fxrstor]
      refine (if_neg (h.aligned halign)).trans ?_
      rw [h.area hb, Option.map_some, hvector]
    · cases hv
  | ret =>
    obtain ⟨⟨x, w⟩, hpop, rfl⟩ := Option.map_eq_some_iff.1 hv
    obtain ⟨hrun, hshows⟩ := h.pop hpop
    have hcr3 : w.cr3 = v.cr3 := pop_cr3 hpop
    refine ⟨mem, ?_, hshows.setArch (fun _ _ => rfl) rfl, kept_refl, hcr3⟩
    rw [Cpu.step, Cpu.ret, hrun]
    rfl
  | _ => cases hv

theorem run (h : Shows p lo size base len v mem) {code : List Instr} (hv : v.run p code = some v') :
    ∃ mem', (Cpu.mk v.toArch mem).run p code = some (Cpu.mk v'.toArch mem') ∧
      Shows p lo size base len v' mem' ∧
      Kept p lo size base len v.cr3 mem mem' ∧ v'.cr3 = v.cr3 := by
  induction code generalizing v mem with
  | nil =>
    cases hv
    exact ⟨mem, rfl, h, kept_refl, rfl⟩
  | cons c code ih =>
    obtain ⟨w, hw, hrest⟩ := Option.bind_eq_some_iff.1 hv
    obtain ⟨mem', hstep, hshows, hkept, hcr3⟩ := h.step hw
    obtain ⟨mem'', hrun, hshows', hkept', hcr3'⟩ := ih hshows hrest
    refine ⟨mem'', ?_, hshows', kept_trans hkept (hcr3 ▸ hkept'), hcr3'.trans hcr3⟩
    rw [Cpu.run, hstep]
    exact hrun

theorem pushAll (h : Shows p lo size base len v mem) {xs : List UInt64}
    (hv : View.pushAll xs v = some v') :
    ∃ mem', Cpu.pushAll p xs (Cpu.mk v.toArch mem) = some (Cpu.mk v'.toArch mem') ∧
      Shows p lo size base len v' mem' ∧
      Kept p lo size base len v.cr3 mem mem' ∧ v'.cr3 = v.cr3 := by
  induction xs generalizing v mem with
  | nil =>
    cases hv
    exact ⟨mem, rfl, h, kept_refl, rfl⟩
  | cons x xs ih =>
    obtain ⟨w, hw, hrest⟩ := Option.bind_eq_some_iff.1 hv
    obtain ⟨mem', hpush, hshows, hkept⟩ := h.push hw
    have hcr3 : w.cr3 = v.cr3 := push_cr3 hw
    obtain ⟨mem'', hrun, hshows', hkept', hcr3'⟩ := ih hshows hrest
    refine ⟨mem'', ?_, hshows', kept_trans hkept (hcr3 ▸ hkept'), hcr3'.trans hcr3⟩
    rw [Cpu.pushAll, hpush]
    exact hrun

end Shows

end Moxia
