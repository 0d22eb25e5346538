import Moxia.Cpu.Machine

/-!
# `asmfunc.asm`

The routines that save and restore contexts, enter and leave applications, and dispatch system
calls. A routine that calls a function is in parts: before the call, and after it.
-/

namespace Moxia.Asmfunc

open Lib

/-- `SwitchContext`, up to where it falls through to `RestoreContext`. -/
def saveContext : List Instr := [
  .store .rsi 0x40 .rax,
  .store .rsi 0x48 .rbx,
  .store .rsi 0x50 .rcx,
  .store .rsi 0x58 .rdx,
  .store .rsi 0x60 .rdi,
  .store .rsi 0x68 .rsi,

  .lea .rax .rsp 8,
  .store .rsi 0x70 .rax,
  .store .rsi 0x78 .rbp,

  .store .rsi 0x80 .r8,
  .store .rsi 0x88 .r9,
  .store .rsi 0x90 .r10,
  .store .rsi 0x98 .r11,
  .store .rsi 0xa0 .r12,
  .store .rsi 0xa8 .r13,
  .store .rsi 0xb0 .r14,
  .store .rsi 0xb8 .r15,

  .movFromCR3 .rax,
  .store .rsi 0x00 .rax,
  .load .rax .rsp 0,
  .store .rsi 0x08 .rax,
  .pushfq,
  .popMem .rsi 0x10,

  .movFromSeg .rax .cs,
  .store .rsi 0x20 .rax,
  .movFromSeg .rbx .ss,
  .store .rsi 0x28 .rbx,
  .movFromSeg .rcx .fs,
  .store .rsi 0x30 .rcx,
  .movFromSeg .rdx .gs,
  .store .rsi 0x38 .rdx,

  .fxsave .rsi 0xc0]

/-- `RestoreContext` up to `mov cr3, rax`. -/
def restoreFrame : List Instr := [
  .pushMem .rdi 0x28,
  .pushMem .rdi 0x70,
  .pushMem .rdi 0x10,
  .pushMem .rdi 0x20,
  .pushMem .rdi 0x08,

  .fxrstor .rdi 0xc0,

  .load .rax .rdi 0x00]

/-- `RestoreContext` from `mov cr3, rax` to `iret`. -/
def restoreRegs : List Instr := [
  .load .rax .rdi 0x30,
  .movToSeg .fs .rax,
  .load .rax .rdi 0x38,
  .movToSeg .gs .rax,

  .load .rax .rdi 0x40,
  .load .rbx .rdi 0x48,
  .load .rcx .rdi 0x50,
  .load .rdx .rdi 0x58,
  .load .rsi .rdi 0x68,
  .load .rbp .rdi 0x78,
  .load .r8 .rdi 0x80,
  .load .r9 .rdi 0x88,
  .load .r10 .rdi 0x90,
  .load .r11 .rdi 0x98,
  .load .r12 .rdi 0xa0,
  .load .r13 .rdi 0xa8,
  .load .r14 .rdi 0xb0,
  .load .r15 .rdi 0xb8,

  .load .rdi .rdi 0x60]

def restoreContext : List Instr := restoreFrame ++ [.movToCR3 .rax] ++ restoreRegs ++ [.iret]

def switchContext : List Instr := saveContext ++ restoreContext

def callApp : List Instr := [
  .push .rbx,
  .push .rbp,
  .push .r12,
  .push .r13,
  .push .r14,
  .push .r15,
  .store .r9 0 .rsp,

  .push .rdx, -- SS
  .push .r8, -- RSP
  .add .rdx 8,
  .push .rdx, -- CS
  .push .rcx, -- RIP
  .retf]

/-- `IntHandlerLAPICTimer` up to `call LAPICTimerOnInterrupt`. -/
def intHandlerLAPICTimerEntry : List Instr := [
  .push .rbp,
  .mov .rbp .rsp,

  .sub .rsp 512,
  .fxsave .rsp 0,
  .push .r15,
  .push .r14,
  .push .r13,
  .push .r12,
  .push .r11,
  .push .r10,
  .push .r9,
  .push .r8,
  .pushMem .rbp 0,
  .pushMem .rbp 0x20,
  .push .rsi,
  .push .rdi,
  .push .rdx,
  .push .rcx,
  .push .rbx,
  .push .rax,

  .movFromSeg .rax .fs,
  .movFromSeg .rbx .gs,
  .movFromCR3 .rcx,

  .push .rbx,
  .push .rax,
  .pushMem .rbp 0x28,
  .pushMem .rbp 0x10,
  .push .rbp,
  .pushMem .rbp 0x18,
  .pushMem .rbp 0x08,
  .push .rcx,

  .mov .rdi .rsp]

/-- `IntHandlerLAPICTimer` after the call. -/
def intHandlerLAPICTimerExit : List Instr := [
  .add .rsp (8 * 8),
  .pop .rax,
  .pop .rbx,
  .pop .rcx,
  .pop .rdx,
  .pop .rdi,
  .pop .rsi,
  .add .rsp 16,
  .pop .r8,
  .pop .r9,
  .pop .r10,
  .pop .r11,
  .pop .r12,
  .pop .r13,
  .pop .r14,
  .pop .r15,
  .fxrstor .rsp 0,

  .mov .rsp .rbp,
  .pop .rbp,
  .iret]

/-- `SyscallEntry` up to `call [syscall_table + 8 * rax]`. -/
def syscallEntryCall : List Instr := [
  .push .rbp,
  .push .rcx, -- original RIP
  .push .r11, -- original RFLAGS

  .push .rax, -- system call number

  .mov .rcx .r10,
  .and32 .rax 0x7fffffff,
  .mov .rbp .rsp,
  .and .rsp 0xfffffffffffffff0]

/-- From there to `cmp esi, 0x80000003`. -/
def syscallEntryReturn : List Instr := [
  .mov .rsp .rbp,

  .pop .rsi]

/-- From there to `o64 sysret`. -/
def syscallEntrySysret : List Instr := [
  .pop .r11,
  .pop .rcx,
  .pop .rbp]

/-- What the label `.exit` and `ExitApp` have in common: the registers that `CallApp` has pushed. -/
def popCalleeSaved : List Instr := [
  .pop .r15,
  .pop .r14,
  .pop .r13,
  .pop .r12,
  .pop .rbp,
  .pop .rbx,

  .ret]

/-- `.exit` -/
def syscallEntryExit : List Instr := [
  .mov .rsp .rax,
  .mov32 .rax .rdx] ++ popCalleeSaved

def exitApp : List Instr := [
  .mov .rsp .rdi,
  .mov32 .rax .rsi] ++ popCalleeSaved

/-- How `SyscallEntry` ends. -/
inductive SyscallEnd
  /-- At `o64 sysret`. -/
  | sysret (m : Cpu)
  /-- At the label `.exit`. -/
  | exit (m : Cpu)

/-- The kernel around `SyscallEntry`: what a function does until it returns. -/
structure Kernel extends Platform where
  syscallTable : UInt64
  returnAddress : UInt64
  callee : UInt64 → Cpu → Cpu

variable (k : Kernel)

/-- `call [syscall_table + 8 * rax]`: the address of the function, and the state in which it
starts. -/
def syscallTarget (m : Cpu) : Option (UInt64 × Cpu) := do
  let target ← m.word k.toPlatform (k.syscallTable + 8 * m.gpr .rax)
  let m ← m.push k.toPlatform k.returnAddress
  some (target, m)

/-- The code behind the call. -/
def syscallReturn (m : Cpu) : Option SyscallEnd := do
  let m ← m.run k.toPlatform syscallEntryReturn
  let number := lowHalf (m.gpr .rsi)
  let m := m.setFlags k.toPlatform (number - 0x80000003)
  if number = 0x80000003 then some (.exit m) else
    (m.run k.toPlatform syscallEntrySysret).map .sysret

def syscallEntry (m : Cpu) : Option SyscallEnd := do
  let m ← m.run k.toPlatform syscallEntryCall
  let (target, m) ← syscallTarget k m
  syscallReturn k (k.callee target m)

end Moxia.Asmfunc
