import Moxia.Cpu.Asmfunc
import Moxia.Cpu.View
import Moxia.Task.Manager

/-!
# Saving contexts

`SwitchContext` and the interrupt handler of the timer both leave an image of a `TaskContext`
(`contextItems`): the one that `RestoreContext` reads. It describes the state in which
`SwitchContext` returns, or which was interrupted (`archOf`).
-/

namespace Moxia

open Lib Item Asmfunc

/-- `struct TaskContext` in memory. Nobody reads `reserved1`. -/
def contextItems (c : TaskContext) : List Item := [
  .word c.cr3, .word c.rip, .word c.rflags, .gap 8,
  .word c.cs, .word c.ss, .word c.fs, .word c.gs,
  .word c.rax, .word c.rbx, .word c.rcx, .word c.rdx, .word c.rdi, .word c.rsi,
    .word c.rsp, .word c.rbp,
  .word c.r8, .word c.r9, .word c.r10, .word c.r11, .word c.r12, .word c.r13,
    .word c.r14, .word c.r15,
  .area c.fxsaveArea]

/-- `sizeof(TaskContext)` -/
def contextSize : Nat := 704

theorem sizes_contextItems (c : TaskContext) : sizes (contextItems c) = contextSize := by
  simp only [contextItems, sizes, size, contextSize]

/-- The state of the processor that a context describes. Selectors have 16 bits. -/
def archOf (c : TaskContext) : Arch where
  gpr
    | .rax => c.rax
    | .rbx => c.rbx
    | .rcx => c.rcx
    | .rdx => c.rdx
    | .rsi => c.rsi
    | .rdi => c.rdi
    | .rbp => c.rbp
    | .rsp => c.rsp
    | .r8 => c.r8
    | .r9 => c.r9
    | .r10 => c.r10
    | .r11 => c.r11
    | .r12 => c.r12
    | .r13 => c.r13
    | .r14 => c.r14
    | .r15 => c.r15
  rip := c.rip
  rflags := c.rflags
  cr3 := c.cr3
  seg
    | .cs => c.cs.toUInt16
    | .ss => c.ss.toUInt16
    | .fs => c.fs.toUInt16
    | .gs => c.gs.toUInt16
  fx := c.fxsaveArea

/-- The image of a context at `a`. -/
def Image (p : Platform) (s : UInt64) (mem : Place → UInt8) (a : UInt64) (c : TaskContext) : Prop :=
  Block p.frames s mem a (contextItems c)

theorem toUInt16_movFromSeg (x : UInt64) (g : UInt16) :
    ((x &&& ~~~0xffff) ||| g.toUInt64).toUInt16 = g := by
  rw [UInt64.toUInt16_or, UInt64.toUInt16_and, UInt16.toUInt16_toUInt64]
  have hmask : (~~~0xffff : UInt64).toUInt16 = 0 := rfl
  rw [hmask, UInt16.and_zero, UInt16.zero_or]

theorem toUInt16_toUInt64 (g : UInt16) : g.toUInt64.toUInt16 = g := UInt16.toUInt16_toUInt64 g

variable {p : Platform} {m : Cpu} {rip ist : UInt64}

/-! ## `SwitchContext` -/

/-- The state in which a routine returns that changes nothing. -/
def returned (m : Arch) (rip : UInt64) : Arch :=
  { m with rip := rip, gpr := assign m.gpr .rsp (m.gpr .rsp + 8) }

/-- The return address is on the stack, a word may be pushed, and `rsi` points to a
`TaskContext`. -/
structure CanSwitch (p : Platform) (m : Cpu) (rip : UInt64) : Prop where
  ret : p.frames.Holds m.cr3 m.mem (m.gpr .rsp) (wordBytes rip)
  stack : p.frames.Mapped m.cr3 (m.gpr .rsp - 8) 16
  context : p.frames.Mapped m.cr3 (m.gpr .rsi) contextSize
  aligned : (m.gpr .rsi).toNat % 16 = 0
  apart : ∀ x, p.frames.Within m.cr3 (m.gpr .rsp - 8) 16 x →
    ¬ p.frames.Within m.cr3 (m.gpr .rsi) contextSize x

def savedContext (m : Arch) (rip : UInt64) : TaskContext where
  cr3 := m.cr3
  rip := rip
  rflags := m.rflags
  cs := (rip &&& ~~~0xffff) ||| (m.seg .cs).toUInt64
  ss := (m.gpr .rbx &&& ~~~0xffff) ||| (m.seg .ss).toUInt64
  fs := (m.gpr .rcx &&& ~~~0xffff) ||| (m.seg .fs).toUInt64
  gs := (m.gpr .rdx &&& ~~~0xffff) ||| (m.seg .gs).toUInt64
  rax := m.gpr .rax
  rbx := m.gpr .rbx
  rcx := m.gpr .rcx
  rdx := m.gpr .rdx
  rdi := m.gpr .rdi
  rsi := m.gpr .rsi
  rsp := m.gpr .rsp + 8
  rbp := m.gpr .rbp
  r8 := m.gpr .r8
  r9 := m.gpr .r9
  r10 := m.gpr .r10
  r11 := m.gpr .r11
  r12 := m.gpr .r12
  r13 := m.gpr .r13
  r14 := m.gpr .r14
  r15 := m.gpr .r15
  fxsaveArea := m.fx

theorem archOf_savedContext (m : Arch) (rip : UInt64) :
    archOf (savedContext m rip) = returned m rip := by
  have hgpr : (archOf (savedContext m rip)).gpr = (returned m rip).gpr := by
    funext r
    cases r <;> rfl
  have hseg : (archOf (savedContext m rip)).seg = m.seg := by
    funext g
    cases g <;> exact toUInt16_movFromSeg ..
  rw [returned] at *
  rw [archOf] at *
  dsimp only at hgpr hseg
  rw [hgpr, hseg]
  rfl

def switchView (m : Arch) (rip : UInt64) : View where
  toArch := m
  room := 8
  stack := [.word rip]
  block := List.replicate 24 (.gap 8) ++ [.gap 512]
  ptr := some .rsi
  frame := none
  spAligned := none
  blockAligned := true

set_option maxRecDepth 8000 in
theorem run_switchView (m : Arch) (rip : UInt64) :
    ∃ v, (switchView m rip).run p saveContext = some v ∧
    v.block = contextItems (savedContext m rip) ∧ v.stack = [.word rip] ∧ v.room = 8 ∧
      v.rflags = m.rflags ∧
    v.gpr .rdi = m.gpr .rdi :=
  ⟨_, rfl, rfl, rfl, rfl, rfl, rfl⟩

theorem block_gaps {frames : Frames UInt64} {s a : UInt64} {mem : Place → UInt8} {l : List Nat}
    (h : frames.Mapped s a (sizes (l.map .gap))) : Block frames s mem a (l.map .gap) := by
  induction l generalizing a with
  | nil => trivial
  | cons n l ih =>
    rw [List.map_cons, sizes, size] at h
    refine ⟨?_, ih (h.mono (Nat.le_refl _))⟩
    have hhead := h.mono (i := 0) (m := n) (by omega)
    rwa [Frames.add_ofNat_zero] at hhead

theorem shows_switchView (h : CanSwitch p m rip) :
    Shows p (m.gpr .rsp - 8) 16 (m.gpr .rsi) contextSize
    (switchView m.toArch rip) m.mem where
  rsp := (UInt64.sub_add_cancel ..).symm
  size_eq := rfl
  size_le := by decide
  len_eq := rfl
  len_le := by decide
  room := h.stack
  stack := by
    have hrsp : m.gpr .rsp - 8 + UInt64.ofNat 8 = m.gpr .rsp := UInt64.sub_add_cancel ..
    rw [switchView, hrsp]
    exact ⟨h.ret, trivial⟩
  block := by
    have hgaps : List.replicate 24 (Item.gap 8) ++ [.gap 512] =
      (List.replicate 24 8 ++ [512]).map .gap := rfl
    rw [switchView, hgaps]
    exact block_gaps h.context
  apart := h.apart
  ptr r hr := by
    cases hr
    exact ⟨by decide, rfl⟩
  frame n hn := by cases hn
  spAligned b hb := by cases hb
  blockAligned _ := h.aligned

/-- `SwitchContext` saves the state in which it returns, before it goes on to `RestoreContext`. -/
theorem saveContext_spec (h : CanSwitch p m rip) : ∃ m', m.run p saveContext = some m' ∧
    Image p m.cr3 m'.mem (m.gpr .rsi) (savedContext m.toArch rip) ∧ m'.cr3 = m.cr3 ∧
      m'.rflags = m.rflags ∧
    m'.gpr .rdi = m.gpr .rdi ∧ m'.gpr .rsp = m.gpr .rsp ∧
    Kept p (m.gpr .rsp - 8) 16 (m.gpr .rsi) contextSize m.cr3 m.mem m'.mem := by
  obtain ⟨v, hrun, hblock, -, hroom, hrflags, hrdi⟩ := run_switchView (p := p) m.toArch rip
  obtain ⟨mem', hcpu, hshows, hkept, hcr3⟩ := (shows_switchView h).run hrun
  refine ⟨_, hcpu, ?_, hcr3, hrflags, hrdi, ?_, hkept⟩
  · rw [Image, ← hblock]
    have hcr3' : v.cr3 = m.cr3 := hcr3
    exact hcr3' ▸ hshows.block
  · have hrsp := hshows.rsp
    rw [hroom] at hrsp
    exact hrsp.trans (UInt64.sub_add_cancel ..)

/-! ## `IntHandlerLAPICTimer` -/

/-- The top of the interrupt stack. -/
def stackTop (ist : UInt64) : UInt64 := ist &&& ~~~0xf

/-- How much of the interrupt stack is in use when `LAPICTimerOnInterrupt` is called. -/
def timerFrameSize : Nat := 752

/-- There is room on the interrupt stack. -/
structure CanInterrupt (p : Platform) (m : Cpu) (ist : UInt64) : Prop where
  stack : p.frames.Mapped m.cr3 (stackTop ist - UInt64.ofNat timerFrameSize) timerFrameSize

/-- What the handler builds for the state that has been interrupted. -/
def interruptedContext (m : Arch) : TaskContext where
  cr3 := m.cr3
  rip := m.rip
  rflags := m.rflags
  cs := (m.seg .cs).toUInt64
  ss := (m.seg .ss).toUInt64
  fs := (m.gpr .rax &&& ~~~0xffff) ||| (m.seg .fs).toUInt64
  gs := (m.gpr .rbx &&& ~~~0xffff) ||| (m.seg .gs).toUInt64
  rax := m.gpr .rax
  rbx := m.gpr .rbx
  rcx := m.gpr .rcx
  rdx := m.gpr .rdx
  rdi := m.gpr .rdi
  rsi := m.gpr .rsi
  rsp := m.gpr .rsp
  rbp := m.gpr .rbp
  r8 := m.gpr .r8
  r9 := m.gpr .r9
  r10 := m.gpr .r10
  r11 := m.gpr .r11
  r12 := m.gpr .r12
  r13 := m.gpr .r13
  r14 := m.gpr .r14
  r15 := m.gpr .r15
  fxsaveArea := m.fx

theorem archOf_interruptedContext (m : Arch) : archOf (interruptedContext m) = m := by
  have hgpr : (archOf (interruptedContext m)).gpr = m.gpr := by
    funext r
    cases r <;> rfl
  have hseg : (archOf (interruptedContext m)).seg = m.seg := by
    funext g
    cases g
    · exact toUInt16_toUInt64 _
    · exact toUInt16_toUInt64 _
    · exact toUInt16_movFromSeg ..
    · exact toUInt16_movFromSeg ..
  rw [archOf] at *
  dsimp only at hgpr hseg
  rw [hgpr, hseg]
  rfl

/-- What the processor pushes. -/
def interruptFrame (m : Arch) : List Item :=
  [.word m.rip, .word (m.seg .cs).toUInt64, .word m.rflags, .word (m.gpr .rsp),
    .word (m.seg .ss).toUInt64]

/-- The empty interrupt stack. -/
def timerView (m : Arch) (ist : UInt64) : View where
  toArch := { m with gpr := assign m.gpr .rsp (stackTop ist) }
  room := timerFrameSize
  stack := []
  block := []
  ptr := none
  frame := none
  spAligned := some true
  blockAligned := false

def View.interrupt (v : View) (m : Arch) (cs ss : UInt16) : Option View :=
  (View.pushAll (Cpu.interruptWords m) v).map fun v =>
    { v with rflags := v.rflags &&& ~~~Cpu.interruptMask,
             seg := assign (assign v.seg .cs cs) .ss ss }

/-- The interrupt stack when `LAPICTimerOnInterrupt` is called: from `rdi` on, a context. -/
def timerItems (m : Arch) (rbp : UInt64) : List Item := [
  .word m.cr3, .word m.rip, .word m.rflags, .word rbp,
  .word (interruptedContext m).cs, .word (interruptedContext m).ss, .word (interruptedContext m).fs,
    .word (interruptedContext m).gs,
  .word (m.gpr .rax), .word (m.gpr .rbx), .word (m.gpr .rcx), .word (m.gpr .rdx),
  .word (m.gpr .rdi), .word (m.gpr .rsi), .word (m.gpr .rsp), .word (m.gpr .rbp),
  .word (m.gpr .r8), .word (m.gpr .r9), .word (m.gpr .r10), .word (m.gpr .r11),
  .word (m.gpr .r12), .word (m.gpr .r13), .word (m.gpr .r14), .word (m.gpr .r15), .area m.fx,
  .word (m.gpr .rbp)] ++ interruptFrame m

set_option maxRecDepth 8000 in
theorem run_timerView (m : Arch) (ist : UInt64) (cs ss : UInt16) : ∃ v,
    ((timerView m ist).interrupt m cs ss).bind (View.run p intHandlerLAPICTimerEntry) = some v ∧
      (∃ rbp, v.stack = timerItems m rbp) ∧ v.room = 0 ∧ v.block = [] ∧ v.ptr = none ∧
        v.frame = some 6 ∧ v.spAligned = some true ∧
      v.gpr .rdi = v.gpr .rsp ∧ v.seg .fs = m.seg .fs ∧ v.seg .gs = m.seg .gs :=
  ⟨_, rfl, ⟨_, rfl⟩, rfl, rfl, rfl, rfl, rfl, rfl, rfl, rfl⟩

theorem stackTop_mod (ist : UInt64) : (stackTop ist).toNat % 16 = 0 := by
  have hmask : (~~~0xf : UInt64).toNat % 2 ^ 4 = 0 := rfl
  have hmod : (ist.toNat &&& (~~~0xf : UInt64).toNat) % 2 ^ 4 = 0 := by
    rw [Nat.and_mod_two_pow, hmask, Nat.and_zero]
  rw [stackTop, UInt64.toNat_and]
  exact hmod

theorem shows_timerView (h : CanInterrupt p m ist) :
    Shows p (stackTop ist - UInt64.ofNat timerFrameSize) timerFrameSize 0 0
    (timerView m.toArch ist) m.mem where
  rsp := (assign_self m.gpr .rsp _).trans (UInt64.sub_add_cancel ..).symm
  size_eq := rfl
  size_le := by decide
  len_eq := rfl
  len_le := by decide
  room := h.stack
  stack := trivial
  block := trivial
  apart _ _ hwithin := by
    obtain ⟨k, hk, -⟩ := hwithin
    exact absurd hk (Nat.not_lt_zero _)
  ptr r hr := by cases hr
  frame n hn := by cases hn
  spAligned b hb := by
    cases hb
    exact stackTop_mod ist
  blockAligned hf := by cases hf

theorem interrupt_of_pushAll {u : View} {mem' : Place → UInt8} {cs ss : UInt16}
    (hpush : Cpu.pushAll p (Cpu.interruptWords m.toArch)
    (Cpu.mk (timerView m.toArch ist).toArch m.mem) =
      some (Cpu.mk u.toArch mem')) :
    Cpu.interrupt p ist cs ss m = some (Cpu.mk { u.toArch with
      rflags := u.rflags &&& ~~~Cpu.interruptMask,
      seg := assign (assign u.seg .cs cs) .ss ss } mem') := by
  have hstart : m.setReg .rsp (ist &&& ~~~0xf) = Cpu.mk (timerView m.toArch ist).toArch m.mem := rfl
  rw [Cpu.interrupt, hstart, hpush, Option.map_some]

/-- At the call of `LAPICTimerOnInterrupt`. -/
def callView (a m : Arch) (rbp : UInt64) : View where
  toArch := a
  room := 0
  stack := timerItems m rbp
  block := []
  ptr := none
  frame := some 6
  spAligned := some true
  blockAligned := false

theorem timerEntry_shows (h : CanInterrupt p m ist) (cs ss : UInt16) : ∃ m₁ rbp,
    (Cpu.interrupt p ist cs ss m).bind (Cpu.run p intHandlerLAPICTimerEntry) = some m₁ ∧
      m₁.cr3 = m.cr3 ∧
      m₁.gpr .rdi = m₁.gpr .rsp ∧ m₁.seg .fs = m.seg .fs ∧ m₁.seg .gs = m.seg .gs ∧
      Shows p (stackTop ist - UInt64.ofNat timerFrameSize) timerFrameSize 0 0
        (callView m₁.toArch m.toArch rbp) m₁.mem ∧
      Kept p (stackTop ist - UInt64.ofNat timerFrameSize) timerFrameSize 0 0 m.cr3
        m.mem m₁.mem := by
  obtain ⟨v, hrun, ⟨rbp, hstack⟩, hroom, hblock, hptr, hframe, hsp, hrdi, hfs, hgs⟩ :=
    run_timerView (p := p) m.toArch ist cs ss
  obtain ⟨w, hw, hrest⟩ := Option.bind_eq_some_iff.1 hrun
  obtain ⟨u, hu, rfl⟩ := Option.map_eq_some_iff.1 hw
  obtain ⟨mem₁, hpush, hshows₁, hkept₁, hcr3₁⟩ := (shows_timerView h).pushAll hu
  have hstart := hshows₁.setArch (c := { u.toArch with
    rflags := u.rflags &&& ~~~Cpu.interruptMask, seg := assign (assign u.seg .cs cs) .ss ss })
      (fun _ _ => rfl) rfl
  obtain ⟨mem₂, hcpu, hshows₂, hkept₂, hcr3₂⟩ := hstart.run hrest
  refine ⟨Cpu.mk v.toArch mem₂, rbp, ?_, hcr3₂.trans hcr3₁, hrdi, hfs, hgs, ?_,
    Shows.kept_trans hkept₁ (hcr3₁ ▸ hkept₂)⟩
  · rw [interrupt_of_pushAll hpush, Option.bind_some]
    exact hcpu
  · obtain ⟨a, room, stack, block, ptr, frame, spAligned, blockAligned⟩ := v
    cases hstack
    cases hroom
    cases hblock
    cases hptr
    cases hframe
    cases hsp
    exact { hshows₂ with blockAligned := fun hf => by cases hf }

/-- When `LAPICTimerOnInterrupt` is called, what it gets is the context of the interrupted state. -/
theorem timerEntry_spec (h : CanInterrupt p m ist) (cs ss : UInt16) : ∃ m₁,
    (Cpu.interrupt p ist cs ss m).bind (Cpu.run p intHandlerLAPICTimerEntry) = some m₁ ∧
      m₁.cr3 = m.cr3 ∧
      Image p m₁.cr3 m₁.mem (m₁.gpr .rdi) (interruptedContext m.toArch) := by
  obtain ⟨m₁, rbp, hrun, hcr3, hrdi, -, -, hshows, -⟩ := timerEntry_shows h cs ss
  refine ⟨m₁, hrun, hcr3, ?_⟩
  have hitems : Block p.frames m₁.cr3 m₁.mem (m₁.gpr .rdi) (timerItems m.toArch rbp) := by
    rw [hrdi]
    exact hshows.rsp ▸ hshows.stack
  -- the copy of `rbp` is where `reserved1` is
  have hsplit : timerItems m.toArch rbp = ((contextItems (interruptedContext m.toArch)).take 3 ++
      .word rbp :: (contextItems (interruptedContext m.toArch)).drop 4) ++
        (.word (m.gpr .rbp) :: interruptFrame m.toArch) := rfl
  rw [hsplit] at hitems
  exact (block_append.1 hitems).1.forget

end Moxia
