import Moxia.Lib.Spaces

/-!
# The processor

The instructions that `asmfunc.asm` uses, in 64-bit mode. An instruction that faults is `none`.
Every value that is loaded into `rip`, `cr3` or a segment register here has been on a processor
before, so that the checks of such values are left out; so are the descriptors. Page tables do not
change meanwhile.
-/

namespace Moxia

open Lib

inductive Reg
  | rax | rbx | rcx | rdx | rsi | rdi | rbp | rsp | r8 | r9 | r10 | r11 | r12 | r13 | r14 | r15
deriving DecidableEq

inductive Seg
  | cs | ss | fs | gs
deriving DecidableEq

/-- What a task can see of the processor. The state of `fxsave` is what it stores. -/
structure Arch where
  gpr : Reg → UInt64
  rip : UInt64
  rflags : UInt64
  cr3 : UInt64
  seg : Seg → UInt16
  fx : Vector UInt8 512

structure Cpu extends Arch where
  mem : Place → UInt8

structure Platform where
  /-- The pages that may be read and written, by `cr3`. -/
  frames : Frames UInt64
  /-- The arithmetic flags of a result. -/
  flags : UInt64 → UInt64

inductive Instr
  | mov (dst src : Reg)
  /-- `mov` between the lower halves. -/
  | mov32 (dst src : Reg)
  | lea (dst base : Reg) (off : Nat)
  /-- `mov dst, [base + off]` -/
  | load (dst base : Reg) (off : Nat)
  /-- `mov [base + off], src` -/
  | store (base : Reg) (off : Nat) (src : Reg)
  | push (src : Reg)
  | pushMem (base : Reg) (off : Nat)
  | pop (dst : Reg)
  | popMem (base : Reg) (off : Nat)
  | pushfq
  | add (dst : Reg) (n : Nat)
  | sub (dst : Reg) (n : Nat)
  | and (dst : Reg) (imm : UInt64)
  /-- `and` with the lower half. -/
  | and32 (dst : Reg) (imm : UInt64)
  | movFromCR3 (dst : Reg)
  | movToCR3 (src : Reg)
  /-- `mov` to the lowest 16 bits. -/
  | movFromSeg (dst : Reg) (src : Seg)
  | movToSeg (dst : Seg) (src : Reg)
  | fxsave (base : Reg) (off : Nat)
  | fxrstor (base : Reg) (off : Nat)
  | ret
  | retf
  | iret

/-- One value of a function is replaced. -/
def assign {α β : Type} [DecidableEq α] (f : α → β) (a : α) (b : β) : α → β :=
  fun x => if x = a then b else f x

@[simp] theorem assign_self {α β : Type} [DecidableEq α] (f : α → β) (a : α) (b : β) :
    assign f a b a = b := if_pos rfl

theorem assign_of_ne {α β : Type} [DecidableEq α] {f : α → β} {a x : α} {b : β} (h : x ≠ a) :
    assign f a b x = f x := if_neg h

def lowHalf (v : UInt64) : UInt64 := v &&& 0xffffffff

/-- CF, PF, AF, ZF, SF and OF. -/
def arithmeticFlags : UInt64 := 0x8d5

def nestedTaskFlag : UInt64 := 0x4000

namespace Cpu

variable (p : Platform)

def setReg (m : Cpu) (r : Reg) (v : UInt64) : Cpu := { m with gpr := assign m.gpr r v }

def setFlags (m : Cpu) (result : UInt64) : Cpu :=
  { m with rflags := (m.rflags &&& ~~~arithmeticFlags) ||| (p.flags result &&& arithmeticFlags) }

def read (m : Cpu) (a : UInt64) (n : Nat) : Option (List UInt8) :=
  p.frames.readBytes m.cr3 m.mem a n

def word (m : Cpu) (a : UInt64) : Option UInt64 := (m.read p a 8).map ofBytes

def write (m : Cpu) (a : UInt64) (l : List UInt8) : Option Cpu :=
  (p.frames.writeBytes m.cr3 a l m.mem).map fun mem => { m with mem := mem }

def push (m : Cpu) (v : UInt64) : Option Cpu :=
  (m.write p (m.gpr .rsp - 8) (wordBytes v)).map fun m => m.setReg .rsp (m.gpr .rsp - 8)

def pop (m : Cpu) : Option (UInt64 × Cpu) :=
  (m.word p (m.gpr .rsp)).map fun v => (v, m.setReg .rsp (m.gpr .rsp + 8))

/-- Alignment is checked. -/
def fxsave (m : Cpu) (a : UInt64) : Option Cpu :=
  if a.toNat % 16 ≠ 0 then none else m.write p a m.fx.toList

def fxrstor (m : Cpu) (a : UInt64) : Option Cpu :=
  if a.toNat % 16 ≠ 0 then none
  else (m.read p a 512).map fun l => { m with fx := Vector.ofFn fun i => l.getD i 0 }

def ret (m : Cpu) : Option Cpu := (m.pop p).map fun r => { r.2 with rip := r.1 }

/-- The stack is switched with the privilege level, which cannot rise. -/
def retf (m : Cpu) : Option Cpu := do
  let (rip, m) ← m.pop p
  let (cs, m) ← m.pop p
  let level := (m.seg .cs &&& 3).toNat
  let seg := assign m.seg .cs cs.toUInt16
  if (cs.toUInt16 &&& 3).toNat < level then none
  else if (cs.toUInt16 &&& 3).toNat = level then some { m with rip := rip, seg := seg }
  else do
    let (rsp, m) ← m.pop p
    let (ss, m) ← m.pop p
    some { m with rip := rip, seg := assign seg .ss ss.toUInt16, gpr := assign m.gpr .rsp rsp }

/-- In 64-bit mode nested tasks are refused. -/
def iret (m : Cpu) : Option Cpu :=
  if m.rflags &&& nestedTaskFlag ≠ 0 then none
  else do
    let (rip, m) ← m.pop p
    let (cs, m) ← m.pop p
    let (rflags, m) ← m.pop p
    let (rsp, m) ← m.pop p
    let (ss, m) ← m.pop p
    some { m with
      rip := rip, rflags := rflags, seg := assign (assign m.seg .cs cs.toUInt16) .ss ss.toUInt16,
      gpr := assign m.gpr .rsp rsp }

def step (m : Cpu) : Instr → Option Cpu
  | .mov dst src => some (m.setReg dst (m.gpr src))
  | .mov32 dst src => some (m.setReg dst (lowHalf (m.gpr src)))
  | .lea dst base off => some (m.setReg dst (m.gpr base + UInt64.ofNat off))
  | .load dst base off => (m.word p (m.gpr base + UInt64.ofNat off)).map fun v => m.setReg dst v
  | .store base off src => m.write p (m.gpr base + UInt64.ofNat off) (wordBytes (m.gpr src))
  | .push src => m.push p (m.gpr src)
  | .pushMem base off => (m.word p (m.gpr base + UInt64.ofNat off)).bind fun v => m.push p v
  | .pop dst => (m.pop p).map fun r => r.2.setReg dst r.1
  | .popMem base off => (m.pop p).bind fun r =>
      r.2.write p (r.2.gpr base + UInt64.ofNat off) (wordBytes r.1)
  | .pushfq => m.push p m.rflags
  | .add dst n => let v := m.gpr dst + UInt64.ofNat n; some ((m.setReg dst v).setFlags p v)
  | .sub dst n => let v := m.gpr dst - UInt64.ofNat n; some ((m.setReg dst v).setFlags p v)
  | .and dst imm => let v := m.gpr dst &&& imm; some ((m.setReg dst v).setFlags p v)
  | .and32 dst imm => let v := lowHalf (m.gpr dst) &&& imm; some ((m.setReg dst v).setFlags p v)
  | .movFromCR3 dst => some (m.setReg dst m.cr3)
  | .movToCR3 src => some { m with cr3 := m.gpr src }
  | .movFromSeg dst src => some (m.setReg dst ((m.gpr dst &&& ~~~0xffff) ||| (m.seg src).toUInt64))
  | .movToSeg dst src => some { m with seg := assign m.seg dst (m.gpr src).toUInt16 }
  | .fxsave base off => m.fxsave p (m.gpr base + UInt64.ofNat off)
  | .fxrstor base off => m.fxrstor p (m.gpr base + UInt64.ofNat off)
  | .ret => m.ret p
  | .retf => m.retf p
  | .iret => m.iret p

def run : List Instr → Cpu → Option Cpu
  | [], m => some m
  | i :: code, m => (m.step p i).bind (run code)

def pushAll : List UInt64 → Cpu → Option Cpu
  | [], m => some m
  | v :: vs, m => (m.push p v).bind (pushAll vs)

/-- What the processor pushes when it takes an interrupt, in this order. -/
def interruptWords (m : Arch) : List UInt64 :=
  [(m.seg .ss).toUInt64, m.gpr .rsp, m.rflags, (m.seg .cs).toUInt64, m.rip]

/-- IF, TF, NT and RF -/
def interruptMask : UInt64 := 0x14300

/-- The processor takes an interrupt, on the stack that ends at `ist`; `cs` and `ss` are the
handler's. -/
def interrupt (ist : UInt64) (cs ss : UInt16) (m : Cpu) : Option Cpu :=
  (pushAll p (interruptWords m.toArch) (m.setReg .rsp (ist &&& ~~~0xf))).map fun top =>
    { top with rflags := top.rflags &&& ~~~interruptMask,
               seg := assign (assign top.seg .cs cs) .ss ss }

variable {p} {m m' : Cpu}

theorem run_append (code code' : List Instr) :
    m.run p (code ++ code') = (m.run p code).bind (run p code') := by
  induction code generalizing m with
  | nil => rfl
  | cons i code ih =>
    rw [List.cons_append, run, run, Option.bind_assoc]
    exact congrArg _ (funext fun m => ih)

/-! ## Words, `iret` and `retf` -/

theorem word_eq_some {a v : UInt64} : m.word p a = some v ↔
    p.frames.Holds m.cr3 m.mem a (wordBytes v) := by
  rw [word, read, Option.map_eq_some_iff]
  constructor
  · rintro ⟨l, hl, rfl⟩
    obtain ⟨hlen, hholds⟩ := Frames.readBytes_eq_some.1 hl
    rwa [wordBytes_ofBytes hlen]
  · exact fun h => ⟨_, Frames.readBytes_eq_some.2 ⟨length_wordBytes v, h⟩, ofBytes_wordBytes v⟩

theorem exists_word {a : UInt64} (h : p.frames.Mapped m.cr3 a 8) : ∃ v, m.word p a = some v := by
  obtain ⟨l, hl⟩ : ∃ l, p.frames.readBytes m.cr3 m.mem a 8 = some l := h.readBytes
  exact ⟨ofBytes l, by rw [word, read, hl, Option.map_some]⟩

/-- A word can be read, and its first `n` bytes are those of `v`. -/
theorem exists_word_iff {a v : UInt64} {n : Nat} (hn : n ≤ 8) :
    (∃ w, m.word p a = some w ∧ w.toNat % 256 ^ n = v.toNat % 256 ^ n) ↔
      ∀ k, k < 8 → ∃ x, p.frames.place m.cr3 (a + UInt64.ofNat k) = some x ∧
        (k < n → m.mem x = byte v k) := by
  constructor
  · rintro ⟨w, hw, hmod⟩ k hk
    have hk' : k < (wordBytes w).length := by rwa [length_wordBytes]
    obtain ⟨x, hx, hb⟩ := word_eq_some.1 hw k hk'
    rw [getElem_wordBytes hk'] at hb
    exact ⟨x, hx, fun hkn => hb.trans (byte_eq_iff.2 hmod k hkn)⟩
  · intro h
    have hmapped : p.frames.Mapped m.cr3 a 8 := fun k hk => by
      obtain ⟨x, hx, -⟩ := h k hk
      exact ⟨x, hx⟩
    obtain ⟨w, hw⟩ := exists_word hmapped
    refine ⟨w, hw, byte_eq_iff.1 fun k hk => ?_⟩
    have hk' : k < (wordBytes w).length := by
      rw [length_wordBytes]
      omega
    obtain ⟨x, hx, hb⟩ := word_eq_some.1 hw k hk'
    obtain ⟨y, hy, hv⟩ := h k (by omega)
    rw [getElem_wordBytes hk'] at hb
    cases hx.symm.trans hy
    exact hb.symm.trans (hv hk)

/-- What `iret` loads. -/
def loaded (m : Cpu) (rip cs rflags rsp ss : UInt64) : Cpu :=
  { m.setReg .rsp rsp with rip := rip, rflags := rflags,
                           seg := assign (assign m.seg .cs cs.toUInt16) .ss ss.toUInt16 }

theorem pop_bind {β : Type} (f : UInt64 × Cpu → Option β) :
    m.pop p >>= f = (m.word p (m.gpr .rsp)).bind fun v => f (v, m.setReg .rsp (m.gpr .rsp + 8)) :=
      Option.bind_map ..

theorem run_pop {v : UInt64} {r : Reg} {l : List Instr} (hv : m.word p (m.gpr .rsp) = some v) :
    m.run p (.pop r :: l) = ((m.setReg .rsp (m.gpr .rsp + 8)).setReg r v).run p l := by
  rw [run, step, pop, hv]
  rfl

theorem setReg_rsp_setReg (x y : UInt64) : (m.setReg .rsp x).setReg .rsp y = m.setReg .rsp y := by
  have hgpr : assign (assign m.gpr .rsp x) .rsp y = assign m.gpr .rsp y := by
    funext r
    by_cases hr : r = .rsp
    · rw [hr, assign_self, assign_self]
    · rw [assign_of_ne hr, assign_of_ne hr, assign_of_ne hr]
  exact congrArg (fun g => { m with gpr := g }) hgpr

theorem setReg_rsp (x : UInt64) : (m.setReg .rsp x).gpr .rsp = x := assign_self m.gpr .rsp x

theorem setReg_seg (r : Reg) (x : UInt64) : (m.setReg r x).seg = m.seg := rfl

theorem setReg_word (r : Reg) (x a : UInt64) : (m.setReg r x).word p a = m.word p a := rfl

theorem iret_eq (hnt : m.rflags &&& nestedTaskFlag = 0) : m.iret p =
    (m.word p (m.gpr .rsp)).bind fun rip => (m.word p (m.gpr .rsp + 8)).bind fun cs =>
      (m.word p (m.gpr .rsp + 16)).bind fun rflags => (m.word p (m.gpr .rsp + 24)).bind fun rsp =>
        (m.word p (m.gpr .rsp + 32)).map fun ss => m.loaded rip cs rflags rsp ss := by
  have hoff (j k n : UInt64) (h : j + k = n) : m.gpr .rsp + j + k = m.gpr .rsp + n := by
    rw [UInt64.add_assoc, h]
  have hload (x rip cs rflags rsp ss : UInt64) : (m.setReg .rsp x).loaded rip cs rflags rsp ss =
    m.loaded rip cs rflags rsp ss :=
    congrArg (fun u : Cpu => { u with
      rip := rip, rflags := rflags, seg := assign (assign m.seg .cs cs.toUInt16) .ss ss.toUInt16 })
        (setReg_rsp_setReg x rsp)
  rw [iret, if_neg (not_not.2 hnt)]
  simp only [pop_bind, setReg_rsp_setReg, setReg_rsp, setReg_word, hoff 8 8 16 rfl,
    hoff 16 8 24 rfl, hoff 24 8 32 rfl]
  simp only [Option.map_eq_bind, ← hload (m.gpr .rsp + 32 + 8)]
  rfl

theorem retf_spec {rip cs rsp ss : UInt64} (hrip : m.word p (m.gpr .rsp) = some rip)
    (hcs : m.word p (m.gpr .rsp + 8) = some cs)
    (hrsp : m.word p (m.gpr .rsp + 16) = some rsp) (hss : m.word p (m.gpr .rsp + 24) = some ss)
    (hlevel : (m.seg .cs &&& 3).toNat ≤ (cs.toUInt16 &&& 3).toNat) :
    ∃ m', m.retf p = some m' ∧ m'.rip = rip ∧
      m'.seg .cs = cs.toUInt16 ∧ m'.cr3 = m.cr3 ∧ m'.mem = m.mem := by
  have hoff (j k n : UInt64) (h : j + k = n) : m.gpr .rsp + j + k = m.gpr .rsp + n := by
    rw [UInt64.add_assoc, h]
  rw [retf]
  simp only [pop_bind, setReg_rsp_setReg, setReg_rsp, setReg_word, setReg_seg, hoff 8 8 16 rfl,
    hoff 16 8 24 rfl, hrip, hcs,
    hrsp, hss, Option.bind_some]
  rw [if_neg (Nat.not_lt.2 hlevel)]
  split
  · exact ⟨_, rfl, rfl, assign_self m.seg .cs _, rfl, rfl⟩
  · have hseg : assign (assign m.seg .cs cs.toUInt16) .ss ss.toUInt16 .cs = cs.toUInt16 :=
      assign_self m.seg .cs _
    exact ⟨_, rfl, rfl, hseg, rfl, rfl⟩

end Cpu

end Moxia
