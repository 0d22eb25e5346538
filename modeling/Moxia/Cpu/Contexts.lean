import Moxia.Cpu.CallApp
import Moxia.Cpu.RestoreContext

/-!
# Saving and restoring

What is saved in one way is restored in the other: by `RestoreContext`, by the interrupt handler
itself when the timer has not switched tasks (`timerExit_spec`), and by `ExitApp` and `.exit` for
`CallApp`. `contexts_restored` has it all.
-/

namespace Moxia

open Lib Item Asmfunc

variable {p : Platform} {m m₁ m₂ e r : Cpu} {c : TaskContext} {ist rip ret : UInt64}
    {cs ss : UInt16}

/-! ## The handler returns -/

theorem setFlags_nestedTask (f g : UInt64) :
    ((f &&& ~~~arithmeticFlags) ||| (g &&& arithmeticFlags)) &&& nestedTaskFlag =
      f &&& nestedTaskFlag := by
  have hapart : ∀ k, k < 64 → nestedTaskFlag.toBitVec.getLsbD k = true →
    arithmeticFlags.toBitVec.getLsbD k = false := by decide
  refine UInt64.toBitVec_inj.1 (BitVec.eq_of_getLsbD_eq fun k hk => ?_)
  simp only [UInt64.toBitVec_and, UInt64.toBitVec_or, UInt64.toBitVec_not, BitVec.getLsbD_and,
    BitVec.getLsbD_or, BitVec.getLsbD_not]
  cases hnt : nestedTaskFlag.toBitVec.getLsbD k with
  | false => rw [Bool.and_false, Bool.and_false]
  | true => rw [hapart k hk hnt, decide_eq_true hk, Bool.not_false, Bool.and_false, Bool.or_false,
      Bool.and_self, Bool.and_true]

/-- `LAPICTimerOnInterrupt` has returned from a call in `m₁`, like any function: with the stack
above the return address, `rbp` and the address space as they were. It does not use `fs` and
`gs`. -/
structure HandlerReturned (p : Platform) (m₁ m₂ : Cpu) : Prop where
  cr3 : m₂.cr3 = m₁.cr3
  rsp : m₂.gpr .rsp = m₁.gpr .rsp
  rbp : m₂.gpr .rbp = m₁.gpr .rbp
  fs : m₂.seg .fs = m₁.seg .fs
  gs : m₂.seg .gs = m₁.seg .gs
  stack : ∀ x, p.frames.Within m₁.cr3 (m₁.gpr .rsp) timerFrameSize x → m₂.mem x = m₁.mem x
  notNested : m₂.rflags &&& nestedTaskFlag = 0

set_option maxRecDepth 8000 in
theorem run_callView (a m : Arch) (rbp : UInt64) :
    ∃ v, (callView a m rbp).run p intHandlerLAPICTimerExit.dropLast = some v ∧
    v.stack = interruptFrame m ∧ (∀ r, r ≠ .rsp → v.gpr r = m.gpr r) ∧ v.seg = a.seg ∧ v.fx = m.fx ∧
    v.rflags &&& nestedTaskFlag = a.rflags &&& nestedTaskFlag := by
  refine ⟨_, rfl, rfl, fun r hr => ?_, rfl, rfl, ?_⟩
  · cases r with
    | rsp => exact absurd rfl hr
    | _ => rfl
  · exact (setFlags_nestedTask _ _).trans (setFlags_nestedTask _ _)

/-- Without a switch, the handler itself returns to the interrupted state. -/
theorem timerExit_spec (h : CanInterrupt p m ist)
    (hentry : (Cpu.interrupt p ist cs ss m).bind (Cpu.run p intHandlerLAPICTimerEntry) = some m₁)
    (hret : HandlerReturned p m₁ m₂) :
    ∃ m', m₂.run p intHandlerLAPICTimerExit = some m' ∧ m'.toArch = m.toArch := by
  obtain ⟨m₁', rbp, hrun, hcr3, -, hfs, hgs, hshows, -⟩ := timerEntry_shows h cs ss
  cases hentry.symm.trans hrun
  have hstart : Shows p (stackTop ist - UInt64.ofNat timerFrameSize) timerFrameSize 0 0
    (callView m₂.toArch m.toArch rbp) m₂.mem := by
    have hregs (r : Reg) (hr : r = .rsp ∨ r = .rbp ∨
        (callView m₁.toArch m.toArch rbp).ptr = some r) : m₂.gpr r = m₁.gpr r := by
      rcases hr with rfl | rfl | hptr
      · exact hret.rsp
      · exact hret.rbp
      · cases hptr
    refine (hshows.setArch (c := m₂.toArch) hregs hret.cr3).congr fun x hx => ?_
    have hrsp : m₁.gpr .rsp = stackTop ist - UInt64.ofNat timerFrameSize :=
      hshows.rsp.trans (Frames.add_ofNat_zero _)
    rcases hx with hx | ⟨k, hk, -⟩
    · refine hret.stack x ?_
      rw [hrsp, ← hret.cr3]
      exact hx
    · exact absurd hk (Nat.not_lt_zero _)
  obtain ⟨v, hview, hstack, hregs, hseg, hfx, hflags⟩ :=
    run_callView (p := p) m₂.toArch m.toArch rbp
  obtain ⟨mem', hcpu, hshows', -, hcr3'⟩ := hstart.run hview
  have hcode : intHandlerLAPICTimerExit = intHandlerLAPICTimerExit.dropLast ++ [.iret] := rfl
  have hcpu' : m₂.run p intHandlerLAPICTimerExit.dropLast = some (Cpu.mk v.toArch mem') := hcpu
  have hitems : Block p.frames v.cr3 mem' (v.gpr .rsp) (interruptFrame m.toArch) := by
    rw [← hstack, hshows'.rsp]
    exact hshows'.stack
  have hword (off : Nat) (x : UInt64)
      (hitem : itemAt (interruptFrame m.toArch) off = some (.word x)) :
      (Cpu.mk v.toArch mem').word p (v.gpr .rsp + UInt64.ofNat off) = some x :=
    Cpu.word_eq_some.2 (hitems.itemAt hitem)
  have hrip := hword 0 _ rfl
  rw [Frames.add_ofNat_zero] at hrip
  have hnt : (Cpu.mk v.toArch mem').rflags &&& nestedTaskFlag = 0 := hflags.trans hret.notNested
  have hcs : (Cpu.mk v.toArch mem').word p (v.gpr .rsp + 8) = some (m.seg .cs).toUInt64 :=
    hword 8 _ rfl
  have hrflags : (Cpu.mk v.toArch mem').word p (v.gpr .rsp + 16) = some m.rflags := hword 16 _ rfl
  have hrsp : (Cpu.mk v.toArch mem').word p (v.gpr .rsp + 24) = some (m.gpr .rsp) := hword 24 _ rfl
  have hss : (Cpu.mk v.toArch mem').word p (v.gpr .rsp + 32) = some (m.seg .ss).toUInt64 :=
    hword 32 _ rfl
  have harch := archOf_interruptedContext m.toArch
  have hspace : v.cr3 = (interruptedContext m.toArch).cr3 := hcr3'.trans (hret.cr3.trans hcr3)
  have hloaded :=
    (loaded_eq_archOf (u := Cpu.mk v.toArch mem') hspace
      (fun r hr => (hregs r hr).trans (congrArg (·.gpr r) harch.symm))
    ?_ ?_ hfx).2 ⟨rfl, rfl, rfl, rfl, rfl⟩
  refine ⟨_, ?_, hloaded.trans harch⟩
  · rw [hcode, Cpu.run_append, hcpu', Option.bind_some, Cpu.run, Cpu.step, Cpu.iret_eq hnt]
    dsimp only
    rw [hrip, hcs, hrflags, hrsp, hss]
    rfl
  · rw [harch]
    exact (congrFun hseg .fs).trans (hret.fs.trans hfs)
  · rw [harch]
    exact (congrFun hseg .gs).trans (hret.gs.trans hgs)

/-! ## All of it -/

/-- The words that `CallApp` has left at `sp` in `a` are still there in `e`. -/
structure KeepsStack (p : Platform) (a e : Cpu) (sp : UInt64) : Prop where
  place : ∀ k, k < 56 → p.frames.place e.cr3 (sp + UInt64.ofNat k) =
    p.frames.place a.cr3 (sp + UInt64.ofNat k)
  mem : ∀ x, p.frames.Within a.cr3 sp 56 x → e.mem x = a.mem x

/-- The state `m` is interrupted by the timer, `SwitchContext` is called in `w`, and `CallApp` in
`a`. In `r₁` and in `r₂`, `RestoreContext` is called with what has been saved of `m` and of `w`. -/
structure RoundTrip (p : Platform) (m w a r₁ r₂ : Cpu) (ist : UInt64) (cs ss : UInt16)
    (rip ret : UInt64) : Prop where
  timerSaves : ∃ m₁, (Cpu.interrupt p ist cs ss m).bind (Cpu.run p intHandlerLAPICTimerEntry) =
    some m₁ ∧ m₁.cr3 = m.cr3 ∧
    Image p m₁.cr3 m₁.mem (m₁.gpr .rdi) (interruptedContext m.toArch)
  timerRestored : ∃ r, r₁.run p restoreContext = some r ∧ r.toArch = m.toArch
  switchSaves : ∃ w₁, w.run p saveContext = some w₁ ∧ w₁.cr3 = w.cr3 ∧ w₁.gpr .rdi = w.gpr .rdi ∧
    Image p w₁.cr3 w₁.mem (w.gpr .rsi) (savedContext w.toArch rip)
  switchRestored : ∃ r, r₂.run p restoreContext = some r ∧ r.toArch = returned w.toArch rip
  handlerReturns : ∀ m₁ m₂, (Cpu.interrupt p ist cs ss m).bind
      (Cpu.run p intHandlerLAPICTimerEntry) = some m₁ →
    HandlerReturned p m₁ m₂ → ∃ m', m₂.run p intHandlerLAPICTimerExit = some m' ∧
      m'.toArch = m.toArch
  appLeft : ∃ a₁ sp, a.run p callApp = some a₁ ∧ a₁.word p (a.gpr .r9) = some sp ∧ ∀ e,
    KeepsStack p a₁ e sp →
    (e.gpr .rdi = sp → ∃ e', e.run p exitApp = some e' ∧
      Left a.toArch ret (lowHalf (e.gpr .rsi)) e'.toArch) ∧
    (e.gpr .rax = sp → ∃ e', e.run p syscallEntryExit = some e' ∧
      Left a.toArch ret (lowHalf (e.gpr .rdx)) e'.toArch)

variable {w a r₁ r₂ : Cpu}

theorem appLeft_of_canCallApp (h : CanCallApp p a ret) : ∃ a₁ sp, a.run p callApp = some a₁ ∧
    a₁.word p (a.gpr .r9) = some sp ∧
    ∀ e, KeepsStack p a₁ e sp →
      (e.gpr .rdi = sp → ∃ e', e.run p exitApp = some e' ∧
        Left a.toArch ret (lowHalf (e.gpr .rsi)) e'.toArch) ∧
      (e.gpr .rax = sp → ∃ e', e.run p syscallEntryExit = some e' ∧
        Left a.toArch ret (lowHalf (e.gpr .rdx)) e'.toArch) := by
  obtain ⟨a₁, hrun, -, -, hspace, hsp, hsaved⟩ := callApp_spec h
  refine ⟨a₁, _, hrun, hsp, fun e he => ?_⟩
  have hsaved' : Block p.frames e.cr3 e.mem (savedStack a.toArch)
    (calleeSavedItems a.toArch ret) := by
    rw [← hspace] at hsaved
    exact (hsaved.congr he.mem).shared he.place
  exact ⟨fun hrdi => exitApp_spec hrdi hsaved', fun hrax => syscallEntryExit_spec hrax hsaved'⟩

/-- Everything that is saved comes back, if and only if the frames for `iret` stay. -/
theorem contexts_restored (htimer : CanInterrupt p m ist) (hswitch : CanSwitch p w rip)
    (happ : CanCallApp p a ret)
    (hr₁ : Restorable p r₁ (interruptedContext m.toArch))
    (hr₂ : Restorable p r₂ (savedContext w.toArch rip)) :
    RoundTrip p m w a r₁ r₂ ist cs ss rip ret ↔
      FrameStays p r₁ (interruptedContext m.toArch) ∧
        FrameStays p r₂ (savedContext w.toArch rip) := by
  have htimerSpec := restoreContext_spec hr₁
  have hswitchSpec := restoreContext_spec hr₂
  rw [archOf_interruptedContext] at htimerSpec
  rw [archOf_savedContext] at hswitchSpec
  constructor
  · intro h
    exact ⟨htimerSpec.1 h.timerRestored, hswitchSpec.1 h.switchRestored⟩
  · rintro ⟨hframe₁, hframe₂⟩
    obtain ⟨w₁, hsave, himage, hspace, -, hrdi, -, -⟩ := saveContext_spec hswitch
    exact {
      timerSaves := timerEntry_spec htimer cs ss
      timerRestored := htimerSpec.2 hframe₁
      switchSaves := ⟨w₁, hsave, hspace, hrdi, hspace ▸ himage⟩
      switchRestored := hswitchSpec.2 hframe₂
      handlerReturns := fun _ _ hentry hret => timerExit_spec htimer hentry hret
      appLeft := appLeft_of_canCallApp happ }

/-! ## Two machines -/

/-- Every page is mapped, in every address space. -/
def flat : Platform where
  frames _ n := some n
  flags _ := 0

/-- A task of the kernel. -/
def kernelTask : Arch where
  gpr
    | .rsp => 0x3800
    | .rdi => 0x1000
    | .rsi => 0x2000
    | .r9 => 0x2000
    | .rdx => 0x13
    | _ => 0
  rip := 0x100000
  rflags := 0x202
  cr3 := 0x4000
  seg
    | .cs => 0x8
    | .ss => 0x10
    | _ => 0
  fx := Vector.replicate 512 0

/-- The context is at 0x1000, the rest of memory is zero. -/
def memoryOf (c : TaskContext) : Place → UInt8 :=
  fun x => if x.1 = 1 then (bytes (contextItems c)).getD x.2 0 else 0

theorem image_of_page {s a : UInt64} {mem : Place → UInt8} {q : Nat} (ha : a.toNat = 4096 * q)
    (hq : 4096 * (q + 1) ≤ 2 ^ 64)
    (hpage : p.frames s q = some q) (hmem : ∀ k, (hk : k < (bytes (contextItems c)).length) →
      mem (q, k) = (bytes (contextItems c))[k]) : Image p s mem a c := by
  refine Block.of_holds fun k hk => ?_
  have hk' : k < 704 := by rwa [length_bytes, sizes_contextItems] at hk
  have haddr : (a + UInt64.ofNat k).toNat = 4096 * q + k := by
    rw [UInt64.toNat_add, UInt64.toNat_ofNat']
    omega
  have hnumber : (4096 * q + k) / 4096 = q := by omega
  have hoff : (4096 * q + k) % 4096 = k := by omega
  refine ⟨(q, k), ?_, hmem k hk⟩
  rw [Frames.place, haddr, hnumber, hoff, hpage]
  rfl

theorem image_memoryOf {s : UInt64} (hpage : p.frames s 1 = some 1) :
    Image p s (memoryOf c) 0x1000 c :=
  image_of_page rfl (by decide) hpage fun k hk => by
    rw [memoryOf, if_pos rfl, List.getD_eq_getElem _ _ hk]

theorem flat_mapped (s a : UInt64) (n : Nat) : flat.frames.Mapped s a n := fun _ _ => ⟨_, rfl⟩

theorem flat_within {s a : UInt64} {n q : Nat} {x : Place} (hlow : 4096 * q ≤ a.toNat)
    (hhigh : a.toNat + n ≤ 4096 * (q + 1))
    (hq : q < 2 ^ 52) (hx : flat.frames.Within s a n x) : x.1 = q := by
  obtain ⟨k, hk, hplace⟩ := hx
  have haddr : (a + UInt64.ofNat k).toNat = a.toNat + k := by
    rw [UInt64.toNat_add, UInt64.toNat_ofNat']
    omega
  rw [Frames.place, haddr] at hplace
  cases hplace
  change (a.toNat + k) / 4096 = q
  omega

theorem context_page {mem : Place → UInt8} {s : UInt64} {x : Place}
    (hx : flat.frames.Within s ((Cpu.mk kernelTask mem).gpr .rdi) contextSize x) : x.1 = 1 :=
  flat_within (show 4096 * 1 ≤ (kernelTask.gpr .rdi).toNat by decide)
    (show (kernelTask.gpr .rdi).toNat + contextSize ≤ 4096 * (1 + 1) by decide) (by decide) hx

theorem restorable_kernelTask (c : TaskContext) : Restorable flat ⟨kernelTask, memoryOf c⟩ c where
  image := image_memoryOf rfl
  aligned := show (kernelTask.gpr .rdi).toNat % 16 = 0 by decide
  shared _ _ := rfl
  stack := flat_mapped _ _ _
  apart x hx hin := by
    have hlow : 4096 * 3 ≤ (frameTop kernelTask).toNat := by decide
    have hhigh : (frameTop kernelTask).toNat + 40 ≤ 4096 * (3 + 1) := by decide
    have hstack : x.1 = 3 :=
      hx.elim (flat_within hlow hhigh (by decide)) (flat_within hlow hhigh (by decide))
    exact absurd ((context_page hin).symm.trans hstack) (by decide)

theorem frameStays_kernelTask (c : TaskContext) : FrameStays flat ⟨kernelTask, memoryOf c⟩ c :=
  frameStays_of_shared (restorable_kernelTask c) (show kernelTask.rflags &&& nestedTaskFlag = 0 by
    decide) fun _ _ => rfl

theorem holds_zero (s a : UInt64) : flat.frames.Holds s (fun _ => 0) a (wordBytes 0) := by
  intro k hk
  refine ⟨_, rfl, ?_⟩
  have hmem : (wordBytes 0)[k] ∈ List.replicate 8 0 :=
    (List.getElem_mem hk : (wordBytes 0)[k] ∈ wordBytes 0)
  exact (List.eq_of_mem_replicate hmem).symm

theorem canInterrupt_kernelTask : CanInterrupt flat ⟨kernelTask, fun _ => 0⟩ 0x6000 :=
  ⟨flat_mapped _ _ _⟩

theorem canSwitch_kernelTask : CanSwitch flat ⟨kernelTask, fun _ => 0⟩ 0 where
  ret := holds_zero _ _
  stack := flat_mapped _ _ _
  context := flat_mapped _ _ _
  aligned := show (kernelTask.gpr .rsi).toNat % 16 = 0 by decide
  apart x hx hin := by
    have hstack : x.1 = 3 := flat_within (show 4096 * 3 ≤ (kernelTask.gpr .rsp - 8).toNat by decide)
      (show (kernelTask.gpr .rsp - 8).toNat + 16 ≤ 4096 * (3 + 1) by decide) (by decide) hx
    have hcontext : x.1 = 2 := flat_within (show 4096 * 2 ≤ (kernelTask.gpr .rsi).toNat by decide)
      (show (kernelTask.gpr .rsi).toNat + contextSize ≤ 4096 * (2 + 1) by decide) (by decide) hin
    exact absurd (hstack.symm.trans hcontext) (by decide)

theorem canCallApp_kernelTask : CanCallApp flat ⟨kernelTask, fun _ => 0⟩ 0 where
  ret := holds_zero _ _
  stack := flat_mapped _ _ _
  osStackPointer := flat_mapped _ _ _
  apart x hx hin := by
    have hstack : x.1 = 3 :=
      flat_within (show 4096 * 3 ≤ (kernelTask.gpr .rsp - UInt64.ofNat 80).toNat by decide)
      (show (kernelTask.gpr .rsp - UInt64.ofNat 80).toNat + 88 ≤ 4096 * (3 + 1) by decide)
        (by decide) hx
    have hptr : x.1 = 2 := flat_within (show 4096 * 2 ≤ (kernelTask.gpr .r9).toNat by decide)
      (show (kernelTask.gpr .r9).toNat + 8 ≤ 4096 * (2 + 1) by decide) (by decide) hin
    exact absurd (hstack.symm.trans hptr) (by decide)
  level := show (kernelTask.seg .cs &&& 3).toNat ≤
    ((kernelTask.gpr .rdx + 8).toUInt16 &&& 3).toNat by decide

theorem contexts_restored_kernelTask :
    RoundTrip flat ⟨kernelTask, fun _ => 0⟩ ⟨kernelTask, fun _ => 0⟩ ⟨kernelTask, fun _ => 0⟩
    ⟨kernelTask, memoryOf (interruptedContext kernelTask)⟩ ⟨kernelTask,
      memoryOf (savedContext kernelTask 0)⟩ 0x6000 8 0 0 0 :=
  (contexts_restored canInterrupt_kernelTask canSwitch_kernelTask canCallApp_kernelTask
    (restorable_kernelTask _)
    (restorable_kernelTask _)).2 ⟨frameStays_kernelTask _, frameStays_kernelTask _⟩

/-- The kernel's page 1 is in every address space, and page 0xffffffffffffe, an application's stack,
in that of the application. -/
def twoSpaces : Platform where
  frames s n := if n = 1 then some 1 else if s = 0x5000 ∧ n = 0xffffffffffffe then some 2 else none
  flags _ := 0

/-- An application is in a system call that goes to sleep. -/
def sleepingApp : Arch := { kernelTask with
  cr3 := 0x5000
  gpr := assign kernelTask.gpr .rsp 0xffffffffffffef00 }

theorem twoSpaces_place {k : Nat} (hk : k < 40) (s : UInt64) :
    twoSpaces.frames.place s (frameTop sleepingApp + UInt64.ofNat k) =
    if s = 0x5000 then some (2, 0xed8 + k) else none := by
  have haddr : (frameTop sleepingApp + UInt64.ofNat k).toNat = 0xffffffffffffeed8 + k := by
    rw [UInt64.toNat_add, UInt64.toNat_ofNat']
    change (0xffffffffffffeed8 + k % 2 ^ 64) % 2 ^ 64 = 0xffffffffffffeed8 + k
    omega
  have hnumber : (0xffffffffffffeed8 + k) / 4096 = 0xffffffffffffe := by omega
  have hoff : (0xffffffffffffeed8 + k) % 4096 = 0xed8 + k := by omega
  have hframe : twoSpaces.frames s 0xffffffffffffe = if s = 0x5000 then some 2 else none := by
    simp only [twoSpaces, Nat.reduceEqDiff, if_false, and_true]
  rw [Frames.place, haddr, hnumber, hoff, hframe]
  split <;> rfl

theorem twoSpaces_context {k : Nat} (hk : k < contextSize) (s : UInt64) :
    twoSpaces.frames.place s ((0x1000 : UInt64) + UInt64.ofNat k) = some (1, k) := by
  have haddr : ((0x1000 : UInt64) + UInt64.ofNat k).toNat = 4096 + k := by
    rw [UInt64.toNat_add, UInt64.toNat_ofNat']
    change (4096 + k % 2 ^ 64) % 2 ^ 64 = 4096 + k
    have : k < 704 := hk
    omega
  have hk' : k < 704 := hk
  have hnumber : (4096 + k) / 4096 = 1 := by omega
  have hoff : (4096 + k) % 4096 = k := by omega
  rw [Frames.place, haddr, hnumber, hoff]
  rfl

theorem restorable_sleepingApp (c : TaskContext) :
    Restorable twoSpaces ⟨sleepingApp, memoryOf c⟩ c where
  image := image_memoryOf rfl
  aligned := show (sleepingApp.gpr .rdi).toNat % 16 = 0 by decide
  shared k hk := (twoSpaces_context hk _).trans (twoSpaces_context hk _).symm
  stack k hk := ⟨_, (twoSpaces_place hk _).trans (if_pos rfl)⟩
  apart x hx hin := by
    obtain ⟨j, hj, hxj⟩ := hin
    have hcontext : some (1, j) = some x := (twoSpaces_context hj _).symm.trans hxj
    rcases hx with ⟨k, hk, hxk⟩ | ⟨k, hk, hxk⟩
    all_goals
      rw [twoSpaces_place hk, ← hcontext] at hxk
      split at hxk <;> cases hxk

/-- The application's stack is not in the address space of the next task, where `iret` looks for
what has been pushed. -/
theorem not_contexts_restored :
    Restorable twoSpaces ⟨sleepingApp, memoryOf (savedContext kernelTask 0)⟩
    (savedContext kernelTask 0) ∧
    ¬ ∃ r, Cpu.run twoSpaces restoreContext ⟨sleepingApp, memoryOf (savedContext kernelTask 0)⟩ =
      some r ∧
      r.toArch = returned kernelTask 0 := by
  refine ⟨restorable_sleepingApp _, fun h => ?_⟩
  rw [← archOf_savedContext] at h
  have hstays := (restoreContext_spec (restorable_sleepingApp _)).1 h
  obtain ⟨x, hx, -⟩ := hstays.rip 0 (by decide)
  have hnone : twoSpaces.frames.place 0x4000 (frameTop sleepingApp + UInt64.ofNat 0) = none :=
    (twoSpaces_place (by decide) _).trans (if_neg (by decide))
  cases hnone.symm.trans hx

end Moxia
