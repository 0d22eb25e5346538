import Moxia.Cpu.Switching
import Moxia.Cpu.Syscall

/-!
# Applications on the processor

From the call of `CallApp` on, an application computes, is interrupted, makes system calls and
faults, in any order. Whatever it does, the registers and the return address that `CallApp` has left
in memory of the kernel stay there, so that `exit` and `KillApp` return to the caller of `CallApp`
(`applications_return`). The conditions are on what the kernel does for the application:
`SyscallEntry` pushes where the stack pointer of the application is, and a handler writes where the
application says.
-/

namespace Moxia

open Lib Item Asmfunc

/-! ## Privilege levels -/

def kernelCS : UInt16 := (1 : UInt16) <<< 3

def kernelSS : UInt16 := (2 : UInt16) <<< 3

def userSS : UInt16 := (3 : UInt16) <<< 3

def userCS : UInt16 := (4 : UInt16) <<< 3

/-- What `InitializeSyscall` writes to `STAR`. -/
def star : UInt64 := kernelCS.toUInt64 <<< 32 ||| (kernelSS ||| 3).toUInt64 <<< 48

namespace Cpu

/-- `syscall`, in front of the instruction at `next`. `LSTAR` is the address of `SyscallEntry`, and
`FMASK` is 0. -/
def syscall (lstar next : UInt64) (m : Cpu) : Cpu :=
  let cs := (star >>> 32).toUInt16 &&& ~~~3
  { m with
    rip := lstar
    gpr := assign (assign m.gpr .rcx next) .r11 m.rflags
    seg := assign (assign m.seg .cs cs) .ss (cs + 8) }

/-- The 17 highest bits are all alike. -/
def Canonical (address : UInt64) : Prop := address.toNat < 2 ^ 47 ∨ 2 ^ 64 - 2 ^ 47 ≤ address.toNat

instance (address : UInt64) : Decidable (Canonical address) := inferInstanceAs (Decidable (_ ∨ _))

/-- `o64 sysret`. To another address it faults, in the kernel. -/
def sysret (m : Cpu) : Option Cpu :=
  let cs := (star >>> 48).toUInt16
  if Canonical (m.gpr .rcx) then
    some { m with
      rip := m.gpr .rcx
      rflags := m.gpr .r11 &&& 0x3c7fd7 ||| 2
      seg := assign (assign m.seg .cs (cs + 16 ||| 3)) .ss (cs + 8 ||| 3) }
  else none

/-- The processor takes an exception in an application. Some push an error code. -/
def exception (p : Platform) (ist : UInt64) (error : Option UInt64) (m : Cpu) : Option Cpu :=
  (pushAll p (interruptWords m.toArch ++ error.toList) (m.setReg .rsp (stackTop ist))).map
    fun top =>
    { top with rflags := top.rflags &&& ~~~interruptMask,
               seg := assign (assign top.seg .cs kernelCS) .ss 0 }

end Cpu

/-- `cpl` of `KillApp`; `f` is the state in which the handler of the exception starts. -/
def killAppLevel (p : Platform) (error : Option UInt64) (f : Cpu) : Option UInt64 :=
  (f.word p (f.gpr .rsp + UInt64.ofNat (8 * error.toList.length) + 8)).map (· &&& 3)

/-- `128 + SIGSEGV` -/
def killedStatus : UInt64 := 128 + 11

variable {k : Asmfunc.Kernel} {handlers : Fin 4 → UInt64} {user : Place → Prop}
  {m₀ m m' h e f r : Cpu} {ret lstar next ist : UInt64}
  {error : Option UInt64} {i : Fin 4}

namespace Cpu

theorem exists_sysret (h : Canonical (m.gpr .rcx)) : ∃ m', m.sysret = some m' := ⟨_, if_pos h⟩

theorem sysret_spec (hrun : m.sysret = some m') : m'.rip = m.gpr .rcx ∧ m'.gpr = m.gpr ∧
    m'.rflags = m.gpr .r11 &&& 0x3c7fd7 ||| 2 ∧ m'.seg .cs = userCS ||| 3 ∧ m'.seg .ss =
      userSS ||| 3 ∧ m'.cr3 = m.cr3 ∧
    m'.mem = m.mem := by
  rw [sysret] at hrun
  split at hrun
  · cases hrun
    exact ⟨rfl, rfl, rfl, rfl, rfl, rfl, rfl⟩
  · cases hrun

end Cpu

/-! ## What must stay -/

/-- The places that only the kernel may write: what `CallApp` has left when it has been called in
`m₀`, and the table. -/
def Reserved (k : Asmfunc.Kernel) (m₀ : Cpu) (x : Place) : Prop :=
  k.frames.Within m₀.cr3 (savedStack m₀.toArch) 56 x ∨ k.frames.Within m₀.cr3 (m₀.gpr .r9) 8 x ∨
    ∃ i, k.frames.Within m₀.cr3 (tableEntry k i) 8 x

/-- They are as they were. -/
def KeepsReserved (k : Asmfunc.Kernel) (m₀ : Cpu) (mem mem' : Place → UInt8) : Prop :=
  ∀ x, Reserved k m₀ x → mem' x = mem x

/-- An application is running. -/
structure InApp (k : Asmfunc.Kernel) (handlers : Fin 4 → UInt64) (m₀ : Cpu) (ret : UInt64)
    (m : Cpu) : Prop where
  cr3 : m.cr3 = m₀.cr3
  cs : m.seg .cs = userCS ||| 3
  saved : Block k.frames m₀.cr3 m.mem (savedStack m₀.toArch) (calleeSavedItems m₀.toArch ret)
  osStackPointer : k.frames.Holds m₀.cr3 m.mem (m₀.gpr .r9) (wordBytes (savedStack m₀.toArch))
  table : ∀ i, k.frames.Holds m₀.cr3 m.mem (tableEntry k i) (wordBytes (handlers i))

theorem InApp.keep (hm : InApp k handlers m₀ ret m) (hcr3 : m'.cr3 = m.cr3)
    (hcs : m'.seg .cs = userCS ||| 3)
    (hkept : KeepsReserved k m₀ m.mem m'.mem) : InApp k handlers m₀ ret m' where
  cr3 := hcr3.trans hm.cr3
  cs := hcs
  saved := hm.saved.congr fun x hx => hkept x (.inl hx)
  osStackPointer := hm.osStackPointer.congr fun x hx =>
    hkept x (.inr (.inl (length_wordBytes _ ▸ hx)))
  table i := (hm.table i).congr fun x hx => hkept x (.inr (.inr ⟨i, length_wordBytes _ ▸ hx⟩))

/-! ## System calls -/

/-- The handler of a system call that has been made in `u` returns from a call in `h`, as any
function does. What it must not do is write over what is reserved, or over the number of the system
call; `SyscallEntry` must not either. `exit` returns `OSStackPointer`, and its argument. -/
structure HandlerKeeps (k : Asmfunc.Kernel) (handlers : Fin 4 → UInt64) (m₀ u : Cpu) (i : Fin 4)
    (h : Cpu) : Prop where
  stack : ∀ x, k.frames.Within u.cr3 (syscallFrame u.toArch) 32 x ∨
    k.frames.Within u.cr3 (syscallStack u.toArch - 8) 8 x →
    ¬ Reserved k m₀ x
  cr3 : (k.callee (handlers i) h).cr3 = h.cr3
  rbp : (k.callee (handlers i) h).gpr .rbp = h.gpr .rbp
  reserved : KeepsReserved k m₀ h.mem (k.callee (handlers i) h).mem
  number : i ≠ 3 → ∀ n, (k.callee (handlers i) h).word k.toPlatform (syscallFrame u.toArch) =
    some n → lowHalf n ≠ 0x80000003
  exit : i = 3 → (k.callee (handlers 3) h).word k.toPlatform (m₀.gpr .r9) =
    some ((k.callee (handlers 3) h).gpr .rax) ∧
    lowHalf ((k.callee (handlers 3) h).gpr .rdx) = lowHalf (h.gpr .rdi) ∧
    ∀ x, k.frames.Within h.cr3 (h.gpr .rbp) 32 x → (k.callee (handlers 3) h).mem x = h.mem x

theorem push_gpr {v : UInt64} (hpush : m.push k.toPlatform v = some m') :
    m'.gpr = assign m.gpr .rsp (m.gpr .rsp - 8) := by
  obtain ⟨m'', hpush', -, hgpr, -⟩ := push_spec v (push_eq_some hpush).1
  cases hpush.symm.trans hpush'
  exact hgpr

namespace Calls

theorem index (hcall : Calls k m handlers i h) : syscallIndex m.toArch = UInt64.ofNat i.val := by
  obtain ⟨u, hrun, hrax, -⟩ := hcall
  obtain ⟨u', hrun', -, hindex, -⟩ := syscallEntryCall_spec (mapped_of_syscallEntryCall hrun)
  cases hrun.symm.trans hrun'
  exact hindex.symm.trans hrax

theorem index_unique {j : Fin 4} {h' : Cpu} (hcall : Calls k m handlers i h)
    (hcall' : Calls k m handlers j h') : i = j := by
  have hinj : ∀ i j : Fin 4, UInt64.ofNat i.val = UInt64.ofNat j.val → i = j := by decide
  exact hinj i j (hcall.index.symm.trans hcall'.index)

theorem rdi (hcall : Calls k m handlers i h) : h.gpr .rdi = m.gpr .rdi := by
  obtain ⟨u, hrun, -, htarget⟩ := hcall
  obtain ⟨-, hpush⟩ := syscallTarget_eq_some.1 htarget
  have hpushed {a b : Cpu} {v : UInt64} (hab : a.push k.toPlatform v = some b) :
      b.gpr .rdi = a.gpr .rdi :=
    (congrFun (push_gpr hab) .rdi).trans (assign_of_ne (by decide))
  obtain ⟨m₁, hpush₁, hrun⟩ := Option.bind_eq_some_iff.1 hrun
  obtain ⟨m₂, hpush₂, hrun⟩ := Option.bind_eq_some_iff.1 hrun
  obtain ⟨m₃, hpush₃, hrun⟩ := Option.bind_eq_some_iff.1 hrun
  obtain ⟨m₄, hpush₄, hrun⟩ := Option.bind_eq_some_iff.1 hrun
  have hrest : u.gpr .rdi = m₄.gpr .rdi := by
    cases hrun
    rfl
  rw [hpushed hpush, hrest, hpushed hpush₄, hpushed hpush₃, hpushed hpush₂, hpushed hpush₁]

theorem kept (hcall : Calls k m handlers i h) {x : Place}
    (hframe : ¬ k.frames.Within m.cr3 (syscallFrame m.toArch) 32 x)
    (hslot : ¬ k.frames.Within m.cr3 (syscallStack m.toArch - 8) 8 x) : h.mem x = m.mem x := by
  obtain ⟨u, hrun, -, htarget⟩ := hcall
  obtain ⟨u', hrun', hspace, -, -, hrsp, -, hkept⟩ :=
    syscallEntryCall_spec (mapped_of_syscallEntryCall hrun)
  cases hrun.symm.trans hrun'
  obtain ⟨-, hpush⟩ := syscallTarget_eq_some.1 htarget
  obtain ⟨h', hpush', -, -, hkept'⟩ := push_spec k.returnAddress (push_eq_some hpush).1
  cases hpush.symm.trans hpush'
  rw [hspace, hrsp] at hkept'
  exact (hkept' x hslot).trans (hkept x hframe)

end Calls

/-- The processor at the end of `SyscallEntry`. -/
def Asmfunc.SyscallEnd.cpu : SyscallEnd → Cpu
  | .sysret m | .exit m => m

theorem run_pops {l : List Reg} (hrun : m.run k.toPlatform (l.map .pop) = some m') :
    m'.cr3 = m.cr3 ∧ m'.mem = m.mem := by
  induction l generalizing m with
  | nil =>
    cases hrun
    exact ⟨rfl, rfl⟩
  | cons reg l ih =>
    rw [List.map_cons] at hrun
    obtain ⟨u, hu, hrun⟩ := Option.bind_eq_some_iff.1 hrun
    obtain ⟨x, hx, rfl⟩ := Option.map_eq_some_iff.1 hu
    obtain ⟨_, -, rfl⟩ := Option.map_eq_some_iff.1 hx
    have hrest := ih hrun
    exact hrest

theorem syscallReturn_kept {s : SyscallEnd} (hret : syscallReturn k r = some s) :
    s.cpu.cr3 = r.cr3 ∧ s.cpu.mem = r.mem := by
  rw [syscallReturn] at hret
  obtain ⟨u, hu, hret⟩ := Option.bind_eq_some_iff.1 hret
  have hu' : (r.setReg .rsp (r.gpr .rbp)).run k.toPlatform ([.rsi].map .pop) = some u := hu
  obtain ⟨hcr3, hmem⟩ := run_pops hu'
  dsimp only at hret
  split at hret
  · cases hret
    exact ⟨hcr3, hmem⟩
  · obtain ⟨e, he, rfl⟩ := Option.map_eq_some_iff.1 hret
    have he' : (u.setFlags k.toPlatform (lowHalf (u.gpr .rsi) - 0x80000003)).run k.toPlatform
      ([.r11, .rcx, .rbp].map .pop) = some e := he
    obtain ⟨hcr3', hmem'⟩ := run_pops he'
    exact ⟨hcr3'.trans hcr3, hmem'.trans hmem⟩

namespace HandlerKeeps

variable {u : Cpu} {s : SyscallEnd}

theorem handles (hkeeps : HandlerKeeps k handlers m₀ u i h) (hcall : Calls k u handlers i h)
    (htable : ∀ i, k.frames.Holds u.cr3 u.mem (tableEntry k i) (wordBytes (handlers i))) :
    Handles k u handlers where
  table := htable
  rbp j h' hcall' := by
    cases hcall.index_unique hcall'
    cases hcall.unique hcall'
    exact hkeeps.rbp
  cr3 j h' hcall' := by
    cases hcall.index_unique hcall'
    cases hcall.unique hcall'
    exact hkeeps.cr3
  exit h' hcall' := by
    cases hcall.index_unique hcall'
    cases hcall.unique hcall'
    exact (hkeeps.exit rfl).2.2

theorem kept (hkeeps : HandlerKeeps k handlers m₀ u i h) (hcall : Calls k u handlers i h)
    (hend : syscallEntry k u = some s) :
    s.cpu.cr3 = u.cr3 ∧ KeepsReserved k m₀ u.mem s.cpu.mem := by
  obtain ⟨hspace, -, -, hentry⟩ := hcall.spec
  obtain ⟨hcr3, hmem⟩ := syscallReturn_kept (hentry.symm.trans hend)
  refine ⟨hcr3.trans (hkeeps.cr3.trans hspace), fun x hx => ?_⟩
  have hcalled : h.mem x = u.mem x :=
    hcall.kept (fun hin => hkeeps.stack x (.inl hin) hx) fun hin => hkeeps.stack x (.inr hin) hx
  rw [hmem, hkeeps.reserved x hx, hcalled]

theorem exit_of_end (hkeeps : HandlerKeeps k handlers m₀ u i h) (hcall : Calls k u handlers i h)
    (hend : syscallEntry k u = some (.exit e)) : i = 3 := by
  by_contra hi
  obtain ⟨hspace, hbp, hframe, hentry⟩ := hcall.spec
  have hbp' : (k.callee (handlers i) h).gpr .rbp = syscallFrame u.toArch := hkeeps.rbp.trans hbp
  have hstack : k.frames.Mapped (k.callee (handlers i) h).cr3
    ((k.callee (handlers i) h).gpr .rbp) 32 := by
    rw [hkeeps.cr3, hspace, hbp']
    exact hframe.mapped
  obtain ⟨number, _, _, _, hnumber, -, -, -, -, hsysret⟩ := syscallReturn_spec hstack
  rw [hbp'] at hnumber
  obtain ⟨e', he', -⟩ := hsysret (hkeeps.number hi number hnumber)
  cases hend.symm.trans (hentry.trans he')

end HandlerKeeps

/-! ## Exceptions -/

/-- The handler of the exception that has been taken in `m` has called `KillApp`, and that calls
`ExitApp` in `r`. -/
structure CallsExitApp (k : Asmfunc.Kernel) (m₀ m f r : Cpu) : Prop where
  cr3 : r.cr3 = f.cr3
  reserved : KeepsReserved k m₀ m.mem r.mem
  rdi : r.word k.toPlatform (m₀.gpr .r9) = some (r.gpr .rdi)
  rsi : lowHalf (r.gpr .rsi) = killedStatus

theorem run_exceptionView (m : Arch) (ist : UInt64) (error : Option UInt64) : ∃ v,
    View.pushAll (Cpu.interruptWords m ++ error.toList) (timerView m ist) = some v ∧ v.cr3 = m.cr3 ∧
      v.stack = error.toList.map .word ++ interruptFrame m := by
  cases error with
  | none => exact ⟨_, rfl, rfl, rfl⟩
  | some c => exact ⟨_, rfl, rfl, rfl⟩

/-- The handler of an exception finds the privilege level of what has been interrupted. -/
theorem exception_spec (hroom : CanInterrupt k.toPlatform m ist) (error : Option UInt64) : ∃ f,
    m.exception k.toPlatform ist error = some f ∧ f.cr3 = m.cr3 ∧
      killAppLevel k.toPlatform error f = some ((m.seg .cs).toUInt64 &&& 3) := by
  obtain ⟨v, hview, hcr3, hstack⟩ := run_exceptionView m.toArch ist error
  obtain ⟨mem', hpush, hshows, -, -⟩ := (shows_timerView hroom).pushAll hview
  have hstart : m.setReg .rsp (stackTop ist) = Cpu.mk (timerView m.toArch ist).toArch m.mem := rfl
  refine ⟨_, by rw [Cpu.exception, hstart, hpush]; rfl, hcr3, ?_⟩
  have hitems : Block k.frames v.cr3 mem' (v.gpr .rsp)
    (error.toList.map .word ++ interruptFrame m.toArch) := by
    rw [← hstack, hshows.rsp]
    exact hshows.stack
  have hsizes : sizes (error.toList.map .word) = 8 * error.toList.length := by cases error <;> rfl
  have hframe := (block_append.1 hitems).2
  rw [hsizes] at hframe
  have hitem : itemAt (interruptFrame m.toArch) 8 = some (.word (m.seg .cs).toUInt64) := rfl
  have hcs : (Cpu.mk v.toArch mem').word k.toPlatform
      (v.gpr .rsp + UInt64.ofNat (8 * error.toList.length) + 8) =
      some (m.seg .cs).toUInt64 := Cpu.word_eq_some.2 (hframe.itemAt hitem)
  rw [killAppLevel]
  exact (congrArg (Option.map (· &&& 3)) hcs).trans rfl

/-! ## Steps of an application -/

inductive AppState
  | running (m : Cpu)
  /-- `CallApp` has returned. -/
  | returned (e : Cpu) (status : UInt64)

/-- What happens to an application that `CallApp` has entered from `m₀`. It may write what `user`
says. -/
inductive UserStep (k : Asmfunc.Kernel) (handlers : Fin 4 → UInt64) (user : Place → Prop)
  (m₀ : Cpu) : AppState → AppState → Prop
  /-- Its instructions can change neither the address space nor the privilege level. -/
  | compute {m m' : Cpu} (hcr3 : m'.cr3 = m.cr3) (hcs : m'.seg .cs = m.seg .cs)
    (huser : ∀ x, ¬ user x → m'.mem x = m.mem x) :
    UserStep k handlers user m₀ (.running m) (.running m')
  /-- By the timer or the keyboard, until it goes on. -/
  | interrupted {m m' : Cpu} (harch : m'.toArch = m.toArch)
    (hkept : KeepsReserved k m₀ m.mem m'.mem) :
    UserStep k handlers user m₀ (.running m) (.running m')
  | sysret {m h e e' : Cpu} {lstar next : UInt64} {i : Fin 4}
      (hcall : Calls k (m.syscall lstar next) handlers i h)
      (hkeeps : HandlerKeeps k handlers m₀ (m.syscall lstar next) i h)
      (hend : syscallEntry k (m.syscall lstar next) = some (.sysret e))
      (hrun : e.sysret = some e') :
    UserStep k handlers user m₀ (.running m) (.running e')
  | exit {m h e e' : Cpu} {lstar next : UInt64} {i : Fin 4}
      (hcall : Calls k (m.syscall lstar next) handlers i h)
      (hkeeps : HandlerKeeps k handlers m₀ (m.syscall lstar next) i h)
      (hend : syscallEntry k (m.syscall lstar next) = some (.exit e))
      (hrun : e.run k.toPlatform syscallEntryExit = some e') :
    UserStep k handlers user m₀ (.running m) (.returned e' (lowHalf (m.gpr .rdi)))
  | killed {m f r e' : Cpu} {ist : UInt64} {error : Option UInt64}
      (hroom : CanInterrupt k.toPlatform m ist)
      (hfault : m.exception k.toPlatform ist error = some f)
      (hlevel : killAppLevel k.toPlatform error f = some 3)
      (hcalls : CallsExitApp k m₀ m f r) (hrun : r.run k.toPlatform exitApp = some e') :
    UserStep k handlers user m₀ (.running m) (.returned e' killedStatus)

/-- The application goes on behind `syscall`, with the result of the handler. -/
structure Resumed (m : Cpu) (next : UInt64) (r e : Cpu) : Prop where
  rip : e.rip = next
  rsp : e.gpr .rsp = m.gpr .rsp
  rbp : e.gpr .rbp = m.gpr .rbp
  value : e.gpr .rax = r.gpr .rax
  error : e.gpr .rdx = r.gpr .rdx
  rflags : e.rflags = m.rflags &&& 0x3c7fd7 ||| 2
  cs : e.seg .cs = userCS ||| 3
  ss : e.seg .ss = userSS ||| 3

/-- What the kernel does for the application comes to its end: `exit` and exceptions at the caller
of `CallApp`, and the other system calls in the application. -/
structure Contained (k : Asmfunc.Kernel) (handlers : Fin 4 → UInt64) (m₀ : Cpu) (ret : UInt64)
    (m : Cpu) : Prop where
  exit : ∀ {lstar next h}, Calls k (m.syscall lstar next) handlers 3 h →
    HandlerKeeps k handlers m₀ (m.syscall lstar next) 3 h →
    lowHalf (m.gpr .rax) = 0x80000003 → ∃ e e', syscallEntry k (m.syscall lstar next) =
      some (.exit e) ∧
      e.run k.toPlatform syscallEntryExit = some e' ∧
        Left m₀.toArch ret (lowHalf (m.gpr .rdi)) e'.toArch
  resume : ∀ {lstar next i h}, i ≠ 3 → Calls k (m.syscall lstar next) handlers i h →
    HandlerKeeps k handlers m₀ (m.syscall lstar next) i h →
      LeavesFrame k (m.syscall lstar next) (k.callee (handlers i) h) →
      Cpu.Canonical next → ∃ e e', syscallEntry k (m.syscall lstar next) = some (.sysret e) ∧
        e.sysret = some e' ∧
        Resumed m next (k.callee (handlers i) h) e'
  killed : ∀ {ist error}, CanInterrupt k.toPlatform m ist →
    ∃ f, m.exception k.toPlatform ist error = some f ∧
    killAppLevel k.toPlatform error f = some 3 ∧ ∀ r, CallsExitApp k m₀ m f r →
      ∃ e', r.run k.toPlatform exitApp = some e' ∧ Left m₀.toArch ret killedStatus e'.toArch

namespace InApp

theorem exit (hm : InApp k handlers m₀ ret m) (hcall : Calls k (m.syscall lstar next) handlers 3 h)
    (hkeeps : HandlerKeeps k handlers m₀ (m.syscall lstar next) 3 h)
    (hend : syscallEntry k (m.syscall lstar next) = some (.exit e)) :
    ∃ e', e.run k.toPlatform syscallEntryExit = some e' ∧
      Left m₀.toArch ret (lowHalf (m.gpr .rdi)) e'.toArch := by
  have hhandles : Handles k (m.syscall lstar next) handlers := hkeeps.handles hcall fun i => by
    have htable := hm.table i
    rwa [← hm.cr3] at htable
  obtain ⟨hptr, hstatus, -⟩ := hkeeps.exit rfl
  obtain ⟨hcr3, hkept⟩ := hkeeps.kept hcall hend
  have hspace : e.cr3 = m₀.cr3 := hcr3.trans hm.cr3
  -- the number must have been that of `exit`, since nothing has been written over it
  have hresult : e.gpr .rax = (k.callee (handlers 3) h).gpr .rax ∧ e.gpr .rdx =
    (k.callee (handlers 3) h).gpr .rdx := by
    obtain ⟨-, -, -, hentry⟩ := hcall.spec
    obtain ⟨hstack, -⟩ := hhandles.stack hcall
    obtain ⟨number, _, _, _, -, -, -, -, hexit, hsysret⟩ := syscallReturn_spec hstack
    by_cases hnumber : lowHalf number = 0x80000003
    · obtain ⟨e', he', hrax, hrdx⟩ := hexit hnumber
      cases hend.symm.trans (hentry.trans he')
      exact ⟨hrax, hrdx⟩
    · obtain ⟨e', he', -⟩ := hsysret hnumber
      cases hend.symm.trans (hentry.trans he')
  have hsaved : Block k.frames e.cr3 e.mem (savedStack m₀.toArch)
    (calleeSavedItems m₀.toArch ret) := by
    rw [hspace]
    exact hm.saved.congr fun x hx => hkept x (.inl hx)
  have hrax : e.gpr .rax = savedStack m₀.toArch := by
    have hword : (k.callee (handlers 3) h).word k.toPlatform (m₀.gpr .r9) =
      some (savedStack m₀.toArch) := by
      obtain ⟨-, -, -, hentry⟩ := hcall.spec
      obtain ⟨hcr3', hmem⟩ := syscallReturn_kept (hentry.symm.trans hend)
      rw [Cpu.word_eq_some, ← hcr3', ← hmem]
      show k.frames.Holds e.cr3 e.mem _ _
      rw [hspace]
      exact hm.osStackPointer.congr fun x hx => hkept x (.inr (.inl (length_wordBytes _ ▸ hx)))
    exact hresult.1.trans (Option.some.inj (hptr.symm.trans hword))
  obtain ⟨e', hrun, hleft⟩ := syscallEntryExit_spec hrax hsaved
  have hrdi : lowHalf (e.gpr .rdx) = lowHalf (m.gpr .rdi) := by
    rw [hresult.2, hstatus, hcall.rdi]
    rfl
  exact ⟨e', hrun, hrdi ▸ hleft⟩

theorem killed (hm : InApp k handlers m₀ ret m) (hroom : CanInterrupt k.toPlatform m ist)
    (hfault : m.exception k.toPlatform ist error = some f) (hcalls : CallsExitApp k m₀ m f r) :
    ∃ e', r.run k.toPlatform exitApp = some e' ∧ Left m₀.toArch ret killedStatus e'.toArch := by
  obtain ⟨f', hfault', hcr3, -⟩ := exception_spec hroom error
  cases hfault.symm.trans hfault'
  have hspace : r.cr3 = m₀.cr3 := hcalls.cr3.trans (hcr3.trans hm.cr3)
  have hword : r.word k.toPlatform (m₀.gpr .r9) = some (savedStack m₀.toArch) := by
    rw [Cpu.word_eq_some, hspace]
    exact hm.osStackPointer.congr fun x hx =>
      hcalls.reserved x (.inr (.inl (length_wordBytes _ ▸ hx)))
  rw [← hcalls.rsi]
  refine exitApp_spec (Option.some.inj (hcalls.rdi.symm.trans hword)) ?_
  rw [hspace]
  exact hm.saved.congr fun x hx => hcalls.reserved x (.inl hx)

theorem contained (hm : InApp k handlers m₀ ret m) : Contained k handlers m₀ ret m where
  exit hcall hkeeps hnumber := by
    have hhandles := hkeeps.handles hcall fun i => by
      have htable := hm.table i
      rwa [← hm.cr3] at htable
    obtain ⟨e, hend, -⟩ := (hhandles.exit_iff hcall).2 hnumber
    obtain ⟨e', hrun, hleft⟩ := hm.exit hcall hkeeps hend
    exact ⟨e, e', hend, hrun, hleft⟩
  resume hi hcall hkeeps hleaves hnext := by
    have hhandles := hkeeps.handles hcall fun i => by
      have htable := hm.table i
      rwa [← hm.cr3] at htable
    obtain ⟨e, hend, hrax, hrdx, hrsp, hrbp, hrcx, hr11⟩ := (hhandles.sysret_iff hcall).2 hleaves
    obtain ⟨e', hrun⟩ := Cpu.exists_sysret (m := e) (by rw [hrcx]; exact hnext)
    obtain ⟨hrip, hgpr, hflags, hcs, hss, -⟩ := Cpu.sysret_spec hrun
    refine ⟨e, e', hend, hrun, hrip.trans hrcx, ?_, ?_, ?_, ?_, ?_, hcs, hss⟩
    · rw [hgpr, hrsp]
      rfl
    · rw [hgpr, hrbp]
      rfl
    · rw [hgpr, hrax]
    · rw [hgpr, hrdx]
    · rw [hflags, hr11]
      rfl
  killed {ist error} hroom := by
    obtain ⟨f, hfault, -, hlevel⟩ := exception_spec hroom error
    rw [hm.cs] at hlevel
    exact ⟨f, hfault, hlevel, fun r hcalls => hm.killed hroom hfault hcalls⟩

end InApp

/-- An application runs, or `CallApp` has returned with its status. -/
def AppState.Safe (k : Asmfunc.Kernel) (handlers : Fin 4 → UInt64) (m₀ : Cpu)
    (ret : UInt64) : AppState → Prop
  | .running m => InApp k handlers m₀ ret m
  | .returned e status => Left m₀.toArch ret status e.toArch

theorem UserStep.safe {s s' : AppState} (huser : ∀ x, user x → ¬ Reserved k m₀ x)
    (hs : s.Safe k handlers m₀ ret)
    (hstep : UserStep k handlers user m₀ s s') : s'.Safe k handlers m₀ ret := by
  cases hstep with
  | compute hcr3 hcs hkept =>
    exact hs.keep hcr3 (hcs.trans hs.cs) fun x hx => hkept x fun hux => huser x hux hx
  | interrupted harch hkept =>
    exact hs.keep (congrArg Arch.cr3 harch)
      ((congrArg (fun a : Arch => a.seg .cs) harch).trans hs.cs) hkept
  | sysret hcall hkeeps hend hrun =>
    obtain ⟨hcr3, hkept⟩ := hkeeps.kept hcall hend
    obtain ⟨-, -, -, hcs, -, hspace, hmem⟩ := Cpu.sysret_spec hrun
    exact hs.keep (hspace.trans hcr3) hcs (hmem ▸ hkept)
  | exit hcall hkeeps hend hrun =>
    cases hkeeps.exit_of_end hcall hend
    obtain ⟨e', hrun', hleft⟩ := hs.exit hcall hkeeps hend
    cases hrun.symm.trans hrun'
    exact hleft
  | killed hroom hfault _ hcalls hrun =>
    obtain ⟨e', hrun', hleft⟩ := hs.killed hroom hfault hcalls
    cases hrun.symm.trans hrun'
    exact hleft

/-! ## From `CallApp` on -/

/-- `ExecuteFile` calls `CallApp`, and the table is as it has been initialized. -/
structure CanEnter (k : Asmfunc.Kernel) (handlers : Fin 4 → UInt64) (m₀ : Cpu) (ret : UInt64) : Prop
    extends CanCallApp k.toPlatform m₀ ret where
  ss : (m₀.gpr .rdx).toUInt16 = userSS ||| 3
  table : ∀ i, k.frames.Holds m₀.cr3 m₀.mem (tableEntry k i) (wordBytes (handlers i))
  tableApart : ∀ i x, k.frames.Within m₀.cr3 (tableEntry k i) 8 x →
    ¬ k.frames.Within m₀.cr3 (m₀.gpr .rsp - UInt64.ofNat 80) 88 x ∧
      ¬ k.frames.Within m₀.cr3 (m₀.gpr .r9) 8 x

theorem callApp_kept (hcall : CanCallApp k.toPlatform m₀ ret)
    (hrun : m₀.run k.toPlatform callApp = some m) {x : Place}
    (hstack : ¬ k.frames.Within m₀.cr3 (m₀.gpr .rsp - UInt64.ofNat 80) 88 x)
    (hptr : ¬ k.frames.Within m₀.cr3 (m₀.gpr .r9) 8 x) : m.mem x = m₀.mem x := by
  obtain ⟨v, hview, -⟩ := run_callAppView (p := k.toPlatform) m₀.toArch ret
  obtain ⟨mem', hcpu, -, hkept, -⟩ := (shows_callAppView hcall).run hview
  have hcpu' : m₀.run k.toPlatform callApp.dropLast = some (Cpu.mk v.toArch mem') := hcpu
  have hcode : callApp = callApp.dropLast ++ [.retf] := rfl
  rw [hcode, Cpu.run_append, hcpu', Option.bind_some] at hrun
  have hmem : m.mem = mem' := run_mem rfl hrun
  rw [hmem]
  exact hkept x hstack hptr

theorem CanEnter.inApp (henter : CanEnter k handlers m₀ ret)
    (hrun : m₀.run k.toPlatform callApp = some m) :
    InApp k handlers m₀ ret m := by
  obtain ⟨m', hrun', -, hcs, hcr3, hword, hsaved⟩ := callApp_spec henter.toCanCallApp
  cases hrun.symm.trans hrun'
  refine ⟨hcr3, hcs.trans ?_, hsaved, ?_, fun i => (henter.table i).congr fun x hx => ?_⟩
  · rw [UInt64.toUInt16_add, henter.ss]
    rfl
  · rw [Cpu.word_eq_some, hcr3] at hword
    exact hword
  · rw [length_wordBytes] at hx
    obtain ⟨hstack, hptr⟩ := henter.tableApart i x hx
    exact callApp_kept henter.toCanCallApp hrun hstack hptr

/-- Whatever an application does after `CallApp` has entered it, `exit` and exceptions return to the
caller of `CallApp`, with the registers and the stack that it has had and the status of the
application, and the other system calls return to the application if the address behind the
instruction is canonical. -/
theorem applications_return {s : AppState} (henter : CanEnter k handlers m₀ ret)
    (huser : ∀ x, user x → ¬ Reserved k m₀ x)
    (hrun : m₀.run k.toPlatform callApp = some m)
    (hsteps : Relation.ReflTransGen (UserStep k handlers user m₀) (.running m) s) :
    s.Safe k handlers m₀ ret ∧ ∀ m', s = .running m' → Contained k handlers m₀ ret m' := by
  have hsafe : s.Safe k handlers m₀ ret := by
    induction hsteps with
    | refl => exact henter.inApp hrun
    | tail _ hstep ih => exact hstep.safe huser ih
  refine ⟨hsafe, ?_⟩
  rintro m' rfl
  exact InApp.contained hsafe

/-! ## An application that exits -/

/-- `OSStackPointer` is 0x37d0. -/
def exitKernel : Asmfunc.Kernel :=
  { smallKernel with
    callee := fun _ m => ((m.setReg .rsp (m.gpr .rsp + 8)).setReg .rax 0x37d0).setReg .rdx
      (lowHalf (m.gpr .rdi)) }

/-- `CallApp` is called with the selector of the stack. -/
def executing : Cpu where
  toArch := { kernelTask with gpr := assign kernelTask.gpr .rdx 0x1b }
  mem := (callWith 0).mem

/-- The application has a page. -/
def fifthPage (x : Place) : Prop := x.1 = 5

/-- `exit(7)` -/
def exiting (m : Cpu) : Cpu :=
  { m with gpr := assign (assign (assign m.gpr .rsp 0x5800) .rax 0x80000003) .rdi 7 }

theorem table_page {s : UInt64} {i : Fin 4} {x : Place}
    (hx : flat.frames.Within s (tableEntry exitKernel i) 8 x) : x.1 = 1 := by
  have hlow : ∀ i, 4096 * 1 ≤ (tableEntry exitKernel i).toNat := by decide
  have hhigh : ∀ i, (tableEntry exitKernel i).toNat + 8 ≤ 4096 * (1 + 1) := by decide
  exact flat_within (hlow i) (hhigh i) (by decide) hx

theorem stack_page {x : Place}
    (hx : flat.frames.Within executing.cr3 (executing.gpr .rsp - UInt64.ofNat 80) 88 x) : x.1 = 3 :=
  flat_within (show 4096 * 3 ≤ (executing.gpr .rsp - UInt64.ofNat 80).toNat by decide)
    (show (executing.gpr .rsp - UInt64.ofNat 80).toNat + 88 ≤ 4096 * (3 + 1) by decide)
      (by decide) hx

theorem osStackPointer_page {x : Place}
    (hx : flat.frames.Within executing.cr3 (executing.gpr .r9) 8 x) : x.1 = 2 :=
  flat_within (show 4096 * 2 ≤ (executing.gpr .r9).toNat by decide)
    (show (executing.gpr .r9).toNat + 8 ≤ 4096 * (2 + 1) by decide) (by decide) hx

theorem not_reserved {x : Place} (hx : x.1 = 5) : ¬ Reserved exitKernel executing x := by
  rintro (hin | hin | ⟨i, hin⟩)
  · have hpage : x.1 = 3 :=
      flat_within (show 4096 * 3 ≤ (savedStack executing.toArch).toNat by decide)
      (show (savedStack executing.toArch).toNat + 56 ≤ 4096 * (3 + 1) by decide) (by decide) hin
    exact absurd (hx.symm.trans hpage) (by decide)
  · exact absurd (hx.symm.trans (osStackPointer_page hin)) (by decide)
  · exact absurd (hx.symm.trans (table_page hin)) (by decide)

theorem canEnter_executing : CanEnter exitKernel smallHandlers executing 0 where
  ret := by
    intro j hj
    have hj' : j < 8 := by rwa [length_wordBytes] at hj
    have haddr : ((0x3800 : UInt64) + UInt64.ofNat j).toNat = 0x3800 + j := by
      rw [UInt64.toNat_add, UInt64.toNat_ofNat']
      change (0x3800 + j % 2 ^ 64) % 2 ^ 64 = 0x3800 + j
      omega
    have hpage : ((0x3800 : UInt64) + UInt64.ofNat j).toNat / 4096 ≠ 1 := by omega
    have hmem : (wordBytes 0)[j] ∈ List.replicate 8 0 :=
      (List.getElem_mem hj : (wordBytes 0)[j] ∈ wordBytes 0)
    exact ⟨_, rfl, (if_neg hpage).trans (List.eq_of_mem_replicate hmem).symm⟩
  stack := flat_mapped _ _ _
  osStackPointer := flat_mapped _ _ _
  apart x hx hin := absurd ((stack_page hx).symm.trans (osStackPointer_page hin)) (by decide)
  level := show (kernelTask.seg .cs &&& 3).toNat ≤ ((0x1b + 8 : UInt64).toUInt16 &&& 3).toNat by
    decide
  ss := rfl
  table := (smallKernel_handles 0).table
  tableApart i x hx :=
    ⟨fun hin => absurd ((table_page hx).symm.trans (stack_page hin)) (by decide),
      fun hin => absurd ((table_page hx).symm.trans (osStackPointer_page hin)) (by decide)⟩

theorem exiting_page {m : Cpu} {x : Place} {s : UInt64}
    (hx : flat.frames.Within s (syscallFrame ((exiting m).syscall 0 0).toArch) 32 x ∨
      flat.frames.Within s (syscallStack ((exiting m).syscall 0 0).toArch - 8) 8 x) : x.1 = 5 := by
  have hrsp : ((exiting m).syscall 0 0).gpr .rsp = 0x5800 := rfl
  rw [syscallStack, syscallFrame, hrsp] at hx
  rcases hx with hx | hx
  · exact flat_within (by decide) (by decide) (by decide) hx
  · exact flat_within (by decide) (by decide) (by decide) hx

theorem handlerKeeps_exiting {m h : Cpu}
    (hm : InApp exitKernel smallHandlers executing 0 (exiting m))
    (hcall : Calls exitKernel ((exiting m).syscall 0 0) smallHandlers 3 h) :
    HandlerKeeps exitKernel smallHandlers executing ((exiting m).syscall 0 0) 3 h where
  stack x hx := not_reserved (exiting_page hx)
  cr3 := rfl
  rbp := rfl
  reserved _ _ := rfl
  number hi := absurd rfl hi
  exit _ := by
    have hlow : lowHalf (lowHalf (h.gpr .rdi)) = lowHalf (h.gpr .rdi) := by
      rw [lowHalf, lowHalf, UInt64.and_assoc, UInt64.and_self]
    refine ⟨?_, hlow, fun _ _ => rfl⟩
    obtain ⟨hspace, -⟩ := hcall.spec
    have hcr3 : h.cr3 = executing.cr3 := hspace.trans hm.cr3
    rw [Cpu.word_eq_some]
    change flat.frames.Holds h.cr3 h.mem _ (wordBytes 0x37d0)
    rw [hcr3]
    refine hm.osStackPointer.congr fun x hx => ?_
    rw [length_wordBytes] at hx
    have hpage : x.1 ≠ 5 := fun heq => absurd (heq.symm.trans (osStackPointer_page hx)) (by decide)
    exact hcall.kept (fun hin => hpage (exiting_page (.inl hin))) fun hin =>
      hpage (exiting_page (.inr hin))

theorem reachesHandler_exiting {m : Cpu} :
    ReachesHandler exitKernel ((exiting m).syscall 0 0) smallHandlers 3 where
  index := by
    have hrax : ((exiting m).syscall 0 0).gpr .rax = 0x80000003 := rfl
    rw [syscallIndex, hrax]
    rfl
  stack := flat_mapped _ _ _
  slot := flat_mapped _ _ _
  entry j hj n hn x hxj hxn := by
    have hpage : x.1 = 5 := exiting_page (.inl ⟨n, hn, hxn⟩)
    exact absurd ((table_page ⟨j, hj, hxj⟩).symm.trans hpage) (by decide)

/-- The application calls `exit(7)`, and `CallApp` returns 7. -/
theorem applications_return_exit : ∃ m e, executing.run exitKernel.toPlatform callApp = some m ∧
    Relation.ReflTransGen (UserStep exitKernel smallHandlers fifthPage executing) (.running m)
      (.returned e (lowHalf 7)) ∧
      Left executing.toArch 0 (lowHalf 7) e.toArch := by
  obtain ⟨m, hrun, -⟩ := callApp_spec canEnter_executing.toCanCallApp
  have huser : ∀ x, fifthPage x → ¬ Reserved exitKernel executing x := fun x hx => not_reserved hx
  have hcompute : UserStep exitKernel smallHandlers fifthPage executing (.running m)
    (.running (exiting m)) :=
    .compute rfl rfl fun _ _ => rfl
  obtain ⟨hsafe, hcontained⟩ := applications_return canEnter_executing huser hrun (.single hcompute)
  have hm : InApp exitKernel smallHandlers executing 0 (exiting m) := hsafe
  have htable : exitKernel.frames.Holds ((exiting m).syscall 0 0).cr3 ((exiting m).syscall 0 0).mem
      (tableEntry exitKernel 3)
      (wordBytes (smallHandlers 3)) := by
    have hcr3 : ((exiting m).syscall 0 0).cr3 = executing.cr3 := hm.cr3
    rw [hcr3]
    exact hm.table 3
  obtain ⟨h, hcall⟩ := (exists_calls_iff htable).2 reachesHandler_exiting
  have hkeeps := handlerKeeps_exiting hm hcall
  have hnumber : lowHalf ((exiting m).gpr .rax) = 0x80000003 := by
    have hrax : (exiting m).gpr .rax = 0x80000003 := rfl
    rw [hrax]
    rfl
  have hrdi : (exiting m).gpr .rdi = 7 := rfl
  obtain ⟨e, e', hend, hexit, hleft⟩ := (hcontained _ rfl).exit hcall hkeeps hnumber
  have hreturn : UserStep exitKernel smallHandlers fifthPage executing (.running (exiting m))
      (.returned e' (lowHalf ((exiting m).gpr .rdi))) := .exit hcall hkeeps hend hexit
  rw [hrdi] at hreturn hleft
  exact ⟨m, e', hrun, .tail (.single hcompute) hreturn, hleft⟩

end Moxia
