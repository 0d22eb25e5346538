import Moxia.Cpu.Asmfunc
import Moxia.Cpu.View

/-!
# Entering and leaving applications

`CallApp` leaves the registers that a function must not change, and its return address, on the
kernel's stack, and stores where they are (`callApp_spec`). `ExitApp` and the label `.exit` of
`SyscallEntry` return from there to the caller of `CallApp` (`exitApp_spec`,
`syscallEntryExit_spec`).
-/

namespace Moxia

open Lib Item Asmfunc

variable {p : Platform} {m e : Cpu} {ret : UInt64}

/-- The return address is on the stack, ten words may be pushed, `r9` points to a word, and the
application is not more privileged. -/
structure CanCallApp (p : Platform) (m : Cpu) (ret : UInt64) : Prop where
  ret : p.frames.Holds m.cr3 m.mem (m.gpr .rsp) (wordBytes ret)
  stack : p.frames.Mapped m.cr3 (m.gpr .rsp - UInt64.ofNat 80) 88
  osStackPointer : p.frames.Mapped m.cr3 (m.gpr .r9) 8
  apart : ∀ x, p.frames.Within m.cr3 (m.gpr .rsp - UInt64.ofNat 80) 88 x →
    ¬ p.frames.Within m.cr3 (m.gpr .r9) 8 x
  level : (m.seg .cs &&& 3).toNat ≤ ((m.gpr .rdx + 8).toUInt16 &&& 3).toNat

/-- The stack pointer that `CallApp` stores. -/
def savedStack (m : Arch) : UInt64 := m.gpr .rsp - UInt64.ofNat 48

/-- What is there. -/
def calleeSavedItems (m : Arch) (ret : UInt64) : List Item := [
  .word (m.gpr .r15), .word (m.gpr .r14), .word (m.gpr .r13), .word (m.gpr .r12),
    .word (m.gpr .rbp), .word (m.gpr .rbx), .word ret]

def callAppView (m : Arch) (ret : UInt64) : View where
  toArch := m
  room := 80
  stack := [.word ret]
  block := [.gap 8]
  ptr := some .r9
  frame := none
  spAligned := none
  blockAligned := false

/-- The words that `retf` loads. -/
def appItems (m : Arch) : List Item := [
  .word (m.gpr .rcx), .word (m.gpr .rdx + 8), .word (m.gpr .r8), .word (m.gpr .rdx)]

set_option maxRecDepth 8000 in
theorem run_callAppView (m : Arch) (ret : UInt64) :
    ∃ v, (callAppView m ret).run p callApp.dropLast = some v ∧
    v.stack = appItems m ++ calleeSavedItems m ret ∧
      v.block = [.word (m.gpr .rsp - 8 - 8 - 8 - 8 - 8 - 8)] ∧ v.room = 0 ∧
    v.seg = m.seg :=
  ⟨_, rfl, rfl, rfl, rfl, rfl⟩

theorem shows_callAppView (h : CanCallApp p m ret) :
    Shows p (m.gpr .rsp - UInt64.ofNat 80) 88 (m.gpr .r9) 8
    (callAppView m.toArch ret) m.mem where
  rsp := (UInt64.sub_add_cancel ..).symm
  size_eq := rfl
  size_le := by decide
  len_eq := rfl
  len_le := by decide
  room := h.stack
  stack := by
    have hrsp : m.gpr .rsp - UInt64.ofNat 80 + UInt64.ofNat 80 = m.gpr .rsp :=
      UInt64.sub_add_cancel ..
    rw [callAppView, hrsp]
    exact ⟨h.ret, trivial⟩
  block := ⟨h.osStackPointer, trivial⟩
  apart := h.apart
  ptr r hr := by
    cases hr
    exact ⟨by decide, rfl⟩
  frame n hn := by cases hn
  spAligned b hb := by cases hb
  blockAligned hf := by cases hf

/-- `CallApp` enters the application, with its return address and the registers in the kernel's
memory. -/
theorem callApp_spec (h : CanCallApp p m ret) :
    ∃ m', m.run p callApp = some m' ∧ m'.rip = m.gpr .rcx ∧
    m'.seg .cs = (m.gpr .rdx + 8).toUInt16 ∧ m'.cr3 = m.cr3 ∧ m'.word p (m.gpr .r9) =
      some (savedStack m.toArch) ∧
    Block p.frames m.cr3 m'.mem (savedStack m.toArch) (calleeSavedItems m.toArch ret) := by
  obtain ⟨v, hview, hstack, hblock, hroom, hseg⟩ := run_callAppView (p := p) m.toArch ret
  obtain ⟨mem', hcpu, hshows, -, hcr3⟩ := (shows_callAppView h).run hview
  have hcpu' : m.run p callApp.dropLast = some (Cpu.mk v.toArch mem') := hcpu
  have hcr3' : v.cr3 = m.cr3 := hcr3
  have hrsp : v.gpr .rsp = m.gpr .rsp - UInt64.ofNat 80 := by
    have hshown := hshows.rsp
    rwa [hroom, Frames.add_ofNat_zero] at hshown
  have hitems : Block p.frames v.cr3 mem' (v.gpr .rsp)
    (appItems m.toArch ++ calleeSavedItems m.toArch ret) := by
    rw [← hstack, hshows.rsp]
    exact hshows.stack
  have hword (off : Nat) (x : UInt64)
      (hitem : itemAt (appItems m.toArch ++ calleeSavedItems m.toArch ret) off = some (.word x)) :
      (Cpu.mk v.toArch mem').word p (v.gpr .rsp + UInt64.ofNat off) = some x :=
    Cpu.word_eq_some.2 (hitems.itemAt hitem)
  have hrip := hword 0 _ rfl
  rw [Frames.add_ofNat_zero] at hrip
  obtain ⟨m', hretf, hrip', hcs, hspace, hmem⟩ :=
    Cpu.retf_spec (m := Cpu.mk v.toArch mem') hrip (hword 8 _ rfl) (hword 16 _ rfl)
    (hword 24 _ rfl) (hseg ▸ h.level)
  have hsaved : Block p.frames m.cr3 mem' (savedStack m.toArch)
    (calleeSavedItems m.toArch ret) := by
    have hbehind := (block_append.1 hitems).2
    have haddr : m.gpr .rsp - UInt64.ofNat 80 + UInt64.ofNat (sizes (appItems m.toArch)) =
      savedStack m.toArch := by
      have hsizes : sizes (appItems m.toArch) = 32 := rfl
      rw [hsizes, savedStack]
      change m.gpr .rsp - 80 + 32 = m.gpr .rsp - 48
      grind
    rwa [hcr3', hrsp, haddr] at hbehind
  have hcode : callApp = callApp.dropLast ++ [.retf] := rfl
  refine ⟨m', ?_, hrip', hcs, hspace.trans hcr3', ?_, hmem ▸ hsaved⟩
  · rw [hcode, Cpu.run_append, hcpu', Option.bind_some, Cpu.run, Cpu.step, hretf]
    rfl
  · have hptr := hshows.block
    rw [hblock] at hptr
    have hsp : m.gpr .rsp - 8 - 8 - 8 - 8 - 8 - 8 = savedStack m.toArch := by
      change m.gpr .rsp - 8 - 8 - 8 - 8 - 8 - 8 = m.gpr .rsp - 48
      grind
    rw [Cpu.word_eq_some, hspace, hmem, ← hsp]
    exact hptr.1

/-! ## Leaving -/

/-- What `ExitApp` and `.exit` find at the stack pointer: what `CallApp` has left in `m`. -/
def popView (a : Arch) (m : Arch) (ret : UInt64) : View where
  toArch := a
  room := 0
  stack := calleeSavedItems m ret
  block := []
  ptr := none
  frame := none
  spAligned := none
  blockAligned := false

/-- A function keeps these. -/
def calleeSaved : List Reg := [.rbx, .rbp, .r12, .r13, .r14, .r15]

set_option maxRecDepth 8000 in
theorem run_popView (a m : Arch) (ret : UInt64) :
    ∃ v, (popView a m ret).run p popCalleeSaved = some v ∧ v.room = 56 ∧
    v.rip = ret ∧ (∀ r, r ∈ calleeSaved → v.gpr r = m.gpr r) ∧ v.gpr .rax = a.gpr .rax := by
  refine ⟨_, rfl, rfl, rfl, fun r hr => ?_, rfl⟩
  simp only [calleeSaved, List.mem_cons, List.not_mem_nil, or_false] at hr
  rcases hr with rfl | rfl | rfl | rfl | rfl | rfl <;> rfl

/-- `CallApp` has returned, with a value. -/
structure Left (m : Arch) (ret value : UInt64) (e : Arch) : Prop where
  rip : e.rip = ret
  rsp : e.gpr .rsp = m.gpr .rsp + 8
  saved : ∀ r, r ∈ calleeSaved → e.gpr r = m.gpr r
  rax : e.gpr .rax = value

theorem popCalleeSaved_spec (hsp : e.gpr .rsp = savedStack m.toArch)
    (hsaved : Block p.frames e.cr3 e.mem (savedStack m.toArch) (calleeSavedItems m.toArch ret)) :
    ∃ e', e.run p popCalleeSaved = some e' ∧ Left m.toArch ret (e.gpr .rax) e'.toArch := by
  obtain ⟨v, hview, hroom, hrip, hregs, hrax⟩ := run_popView (p := p) e.toArch m.toArch ret
  have hshows : Shows p (savedStack m.toArch) 56 0 0 (popView e.toArch m.toArch ret) e.mem :=
    { rsp := hsp.trans (Frames.add_ofNat_zero _).symm
      size_eq := rfl
      size_le := by decide
      len_eq := rfl
      len_le := by decide
      room := hsaved.mapped
      stack := by
        rw [popView, Frames.add_ofNat_zero]
        exact hsaved
      block := trivial
      apart := fun x _ hx => by
        obtain ⟨k, hk, -⟩ := hx
        exact absurd hk (Nat.not_lt_zero _)
      ptr := fun r hr => by cases hr
      frame := fun n hn => by cases hn
      spAligned := fun b hb => by cases hb
      blockAligned := fun hf => by cases hf }
  obtain ⟨mem', hcpu, hshows', -, -⟩ := hshows.run hview
  refine ⟨_, hcpu, hrip, ?_, hregs, hrax⟩
  have hrsp := hshows'.rsp
  rw [hroom] at hrsp
  have haddr : m.gpr .rsp - 48 + 56 = m.gpr .rsp + 8 := by grind
  exact hrsp.trans haddr

/-- `ExitApp`, with the stack pointer that `CallApp` has stored. -/
theorem exitApp_spec (hrdi : e.gpr .rdi = savedStack m.toArch)
    (hsaved : Block p.frames e.cr3 e.mem (savedStack m.toArch) (calleeSavedItems m.toArch ret)) :
    ∃ e', e.run p exitApp = some e' ∧ Left m.toArch ret (lowHalf (e.gpr .rsi)) e'.toArch := by
  obtain ⟨e₁, hrun, hrsp, hrax, hspace, hmem⟩ : ∃ e₁, e.run p [.mov .rsp .rdi, .mov32 .rax .rsi] =
      some e₁ ∧
      e₁.gpr .rsp = e.gpr .rdi ∧ e₁.gpr .rax = lowHalf (e.gpr .rsi) ∧ e₁.cr3 = e.cr3 ∧
        e₁.mem = e.mem :=
    ⟨_, rfl, rfl, rfl, rfl, rfl⟩
  rw [exitApp, Cpu.run_append, hrun, Option.bind_some, ← hrax]
  exact popCalleeSaved_spec (hrsp.trans hrdi) (hspace ▸ hmem ▸ hsaved)

/-- `.exit`, with the stack pointer that `syscall::exit` has returned. -/
theorem syscallEntryExit_spec (hrax : e.gpr .rax = savedStack m.toArch)
    (hsaved : Block p.frames e.cr3 e.mem (savedStack m.toArch) (calleeSavedItems m.toArch ret)) :
    ∃ e', e.run p syscallEntryExit = some e' ∧
      Left m.toArch ret (lowHalf (e.gpr .rdx)) e'.toArch := by
  obtain ⟨e₁, hrun, hrsp, hrax₁, hspace, hmem⟩ : ∃ e₁, e.run p [.mov .rsp .rax, .mov32 .rax .rdx] =
      some e₁ ∧
      e₁.gpr .rsp = e.gpr .rax ∧ e₁.gpr .rax = lowHalf (e.gpr .rdx) ∧ e₁.cr3 = e.cr3 ∧
        e₁.mem = e.mem :=
    ⟨_, rfl, rfl, rfl, rfl, rfl⟩
  rw [syscallEntryExit, Cpu.run_append, hrun, Option.bind_some, ← hrax₁]
  exact popCalleeSaved_spec (hrsp.trans hrax) (hspace ▸ hmem ▸ hsaved)

end Moxia
