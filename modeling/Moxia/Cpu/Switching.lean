import Moxia.Cpu.Contexts
import Moxia.Task.Contexts

/-!
# The task manager on the processor

For the task manager a context is a value: `Sleep`, `SwitchTask` and `Finish` put the one of the
processor into the current task, and give the one with which the processor goes on. In the kernel
all but one are in memory, and `SwitchContext`, the interrupt handler of the timer and
`RestoreContext` move them. `Kernel.Step` has these routines run, and whatever steps the kernel
takes, it is a machine with a private state for each task (`kernel_private`).
-/

namespace Moxia

open Lib Item Asmfunc TaskManager Contexts

/-- The task manager, and the processor with its memory. -/
structure Kernel where
  tm : TaskManager
  cpu : Cpu

variable {p : Platform} {addr : Nat → UInt64} {tm tm' : TaskManager} {m m' m₁ r : Cpu}
  {c : TaskContext} {s s' rip ist : UInt64}
  {cs ss : UInt16} {mem mem' : Place → UInt8} {i j : Nat} {e : Option Nat} {t : Task}
  {k k' : Kernel} {V : Private Arch} {f : Task → Task}

/-! ## Contexts in memory -/

/-- The contexts of the tasks, except for that of `e`, are in memory. -/
def Represents (p : Platform) (addr : Nat → UInt64) (s : UInt64) (mem : Place → UInt8)
    (tm : TaskManager) (e : Option Nat) : Prop :=
  ∀ i t, e ≠ some i → tm.find i = some t → Image p s mem (addr i) t.context

/-- The contexts are aligned, and are in memory of the kernel that is the same in the address space
of a task and in that of another; no two have a byte in common. -/
structure ContextsApart (p : Platform) (addr : Nat → UInt64) (tm : TaskManager) : Prop where
  mapped : ∀ i, tm.Live i → ∀ s, p.frames.Mapped s (addr i) contextSize
  aligned : ∀ i, tm.Live i → (addr i).toNat % 16 = 0
  shared : ∀ i, tm.Live i → ∀ s s' k, k < contextSize →
    p.frames.place s' (addr i + UInt64.ofNat k) = p.frames.place s (addr i + UInt64.ofNat k)
  apart : ∀ i j, tm.Live i → tm.Live j → i ≠ j → ∀ s x, p.frames.Within s (addr i) contextSize x →
    ¬ p.frames.Within s (addr j) contextSize x

/-- A stack of the kernel with `n` bytes from `lo` on. -/
structure KernelStack (p : Platform) (addr : Nat → UInt64) (tm : TaskManager) (lo : UInt64)
    (n : Nat) : Prop where
  mapped : ∀ s, p.frames.Mapped s lo n
  shared : ∀ s s' k, k < n → p.frames.place s' (lo + UInt64.ofNat k) =
    p.frames.place s (lo + UInt64.ofNat k)
  apart : ∀ i, tm.Live i → ∀ s x, p.frames.Within s lo n x →
    ¬ p.frames.Within s (addr i) contextSize x

/-- No context is written, or only that of `e`. -/
def KeepsContexts (p : Platform) (addr : Nat → UInt64) (tm : TaskManager) (e : Option Nat)
    (mem mem' : Place → UInt8) : Prop :=
  ∀ i, tm.Live i → e ≠ some i → ∀ s x, p.frames.Within s (addr i) contextSize x → mem' x = mem x

namespace ContextsApart

theorem mono (h : ContextsApart p addr tm) (hlive : ∀ i, tm'.Live i → tm.Live i) :
    ContextsApart p addr tm' where
  mapped i hi := h.mapped i (hlive i hi)
  aligned i hi := h.aligned i (hlive i hi)
  shared i hi := h.shared i (hlive i hi)
  apart i j hi hj := h.apart i j (hlive i hi) (hlive j hj)

theorem within (h : ContextsApart p addr tm) (hi : tm.Live i) {x : Place}
    (hx : p.frames.Within s (addr i) contextSize x) :
    p.frames.Within s' (addr i) contextSize x := by
  obtain ⟨k, hk, hxk⟩ := hx
  exact ⟨k, hk, (h.shared i hi _ _ k hk).trans hxk⟩

end ContextsApart

namespace KernelStack

variable {lo : UInt64} {n : Nat}

theorem mono (h : KernelStack p addr tm lo n) (hlive : ∀ i, tm'.Live i → tm.Live i) :
    KernelStack p addr tm' lo n :=
  { h with apart := fun i hi => h.apart i (hlive i hi) }

theorem part (h : KernelStack p addr tm lo n) {o l : Nat} (hl : o + l ≤ n) :
    KernelStack p addr tm (lo + UInt64.ofNat o) l where
  mapped s := (h.mapped s).mono hl
  shared s s' k hk := by
    rw [← Frames.add_ofNat_add]
    exact h.shared s s' _ (by omega)
  apart i hi s x hx := h.apart i hi s x (hx.mono hl)

end KernelStack

namespace KeepsContexts

theorem trans {mem'' : Place → UInt8} (h : KeepsContexts p addr tm e mem mem')
    (h' : KeepsContexts p addr tm e mem' mem'') :
    KeepsContexts p addr tm e mem mem'' := fun i hi hne s x hx =>
      (h' i hi hne s x hx).trans (h i hi hne s x hx)

theorem mono (h : KeepsContexts p addr tm none mem mem') : KeepsContexts p addr tm e mem mem' :=
  fun i hi _ => h i hi (Option.some_ne_none i).symm

theorem of_kept {lo : UInt64} {n : Nat} (ha : ContextsApart p addr tm)
    (hs : KernelStack p addr tm lo n)
    (hkept : Kept p lo n 0 0 s mem mem') : KeepsContexts p addr tm none mem mem' := by
  intro i hi _ s' x hx
  refine hkept x (fun hin => hs.apart i hi _ x hin (ha.within hi hx)) ?_
  rintro ⟨_, hk, -⟩
  exact absurd hk (Nat.not_lt_zero _)

end KeepsContexts

namespace Represents

theorem mono (h : Represents p addr s mem tm none) : Represents p addr s mem tm e :=
  fun i t _ ht => h i t (Option.some_ne_none i).symm ht

theorem keep (h : Represents p addr s mem tm e) (hkeep : KeepsContexts p addr tm e mem mem') :
    Represents p addr s mem' tm e := by
  intro i t hne ht
  refine (h i t hne ht).congr fun x hx => hkeep i ⟨t, ht⟩ hne s x ?_
  rwa [sizes_contextItems] at hx

theorem shared (h : Represents p addr s mem tm e) (ha : ContextsApart p addr tm) :
    Represents p addr s' mem tm e := by
  intro i t hne ht
  refine (h i t hne ht).shared fun k hk => ha.shared i ⟨t, ht⟩ s s' k ?_
  rwa [sizes_contextItems] at hk

theorem touch (h : Represents p addr s mem tm e) (ht : Touches tm tm' i f)
    (hf : ∀ t, (f t).context = t.context) : Represents p addr s mem tm' e := by
  intro j t hne hj
  rw [ht.find] at hj
  split at hj
  · obtain ⟨u, hu, rfl⟩ := Option.map_eq_some_iff.1 hj
    rw [hf]
    exact h j u hne hu
  · exact h j t hne hj

/-- The context that was missing is put in its place. -/
theorem save (h : Represents p addr s mem tm (some i)) (ht : Touches tm tm' i f)
    (hf : ∀ t, (f t).context = c)
    (himage : Image p s mem (addr i) c) : Represents p addr s mem tm' none := by
  intro j t _ hj
  rw [ht.find] at hj
  split at hj
  · rename_i hji
    obtain ⟨u, hu, rfl⟩ := Option.map_eq_some_iff.1 hj
    rw [hf, hji]
    exact himage
  · rename_i hji
    exact h j t (fun heq => hji (Option.some.inj heq).symm) hj

end Represents

/-! ## The routines -/

/-- `SwitchContext` is called on a stack of the kernel, to save for task `i` and to go on with
`j`. -/
structure CallsSwitch (p : Platform) (addr : Nat → UInt64) (tm : TaskManager) (m : Cpu) (i j : Nat)
    (rip : UInt64) : Prop where
  rdi : m.gpr .rdi = addr j
  rsi : m.gpr .rsi = addr i
  ret : p.frames.Holds m.cr3 m.mem (m.gpr .rsp) (wordBytes rip)
  stack : KernelStack p addr tm (frameTop m.toArch) 48
  notNested : m.rflags &&& nestedTaskFlag = 0

/-- `RestoreContext` is called on a stack of the kernel, to go on with task `j`. -/
structure CallsRestore (p : Platform) (addr : Nat → UInt64) (tm : TaskManager) (m : Cpu)
    (j : Nat) : Prop where
  rdi : m.gpr .rdi = addr j
  stack : KernelStack p addr tm (frameTop m.toArch) 40
  notNested : m.rflags &&& nestedTaskFlag = 0

/-- `LAPICTimerOnInterrupt` has been called in `m₁`, and `SwitchTask` has copied the context to that
of task `i` since. -/
structure CopiesContext (p : Platform) (addr : Nat → UInt64) (tm : TaskManager) (m₁ r : Cpu)
    (i : Nat) : Prop where
  cr3 : r.cr3 = m₁.cr3
  copied : ∀ k, k < contextSize → ∀ x y,
    p.frames.place m₁.cr3 (m₁.gpr .rdi + UInt64.ofNat k) = some x →
    p.frames.place m₁.cr3 (addr i + UInt64.ofNat k) = some y → r.mem y = m₁.mem x
  kept : KeepsContexts p addr tm (some i) m₁.mem r.mem

/-- The interrupt handler has called `LAPICTimerOnInterrupt`. -/
def TimerEntered (p : Platform) (ist : UInt64) (cs ss : UInt16) (m m₁ : Cpu) : Prop :=
  (Cpu.interrupt p ist cs ss m).bind (Cpu.run p intHandlerLAPICTimerEntry) = some m₁

theorem iret_mem {u : Cpu} (h : u.iret p = some m') : m'.mem = u.mem := by
  by_cases hnt : u.rflags &&& nestedTaskFlag = 0
  · rw [Cpu.iret_eq hnt] at h
    obtain ⟨_, -, h⟩ := Option.bind_eq_some_iff.1 h
    obtain ⟨_, -, h⟩ := Option.bind_eq_some_iff.1 h
    obtain ⟨_, -, h⟩ := Option.bind_eq_some_iff.1 h
    obtain ⟨_, -, h⟩ := Option.bind_eq_some_iff.1 h
    obtain ⟨_, -, rfl⟩ := Option.map_eq_some_iff.1 h
    rfl
  · rw [Cpu.iret, if_pos hnt] at h
    cases h

/-- `RestoreContext` goes on with the task whose context `rdi` points to, and changes no context. -/
theorem restoreContext_represents (h : Represents p addr r.cr3 r.mem tm none)
    (ha : ContextsApart p addr tm)
    (hcall : CallsRestore p addr tm r j) (ht : tm.find j = some t) :
    ∃ m', r.run p restoreContext = some m' ∧ m'.toArch = archOf t.context ∧
      Represents p addr m'.cr3 m'.mem tm none := by
  have hlive : tm.Live j := ⟨t, ht⟩
  have hr : Restorable p r t.context :=
    { image := hcall.rdi ▸ h j t (Option.some_ne_none j).symm ht
      aligned := hcall.rdi ▸ ha.aligned j hlive
      shared := fun k hk => hcall.rdi ▸ ha.shared j hlive _ _ k hk
      stack := hcall.stack.mapped _
      apart := fun x hx => by
        rw [hcall.rdi]
        rcases hx with hx | ⟨k, hk, hxk⟩
        · exact hcall.stack.apart j hlive _ x hx
        · exact hcall.stack.apart j hlive _ x ⟨k, hk, (hcall.stack.shared _ _ k hk).trans hxk⟩ }
  have hstays := frameStays_of_shared hr hcall.notNested fun k hk => hcall.stack.shared _ _ k hk
  obtain ⟨m', hrun, harch⟩ := (restoreContext_spec hr).2 hstays
  obtain ⟨u, hrun', -, -, -, -, -, -, -, -, -, himage, hkept⟩ := run_restoreContext hr
  have hmem : m'.mem = u.mem := iret_mem (hrun'.symm.trans hrun)
  refine ⟨m', hrun, harch, ?_⟩
  have hspace : m'.cr3 = t.context.cr3 := congrArg Arch.cr3 harch
  rw [hspace, hmem]
  -- besides the stack, it is the context itself that has been written
  intro i t' hne hi
  by_cases hij : i = j
  · subst hij
    cases ht.symm.trans hi
    exact hcall.rdi ▸ himage
  · refine ((h.shared ha) i t' hne hi).congr fun x hx => ?_
    rw [sizes_contextItems] at hx
    refine hkept x (fun hin => hcall.stack.apart i ⟨t', hi⟩ _ x hin (ha.within ⟨t', hi⟩ hx))
      fun hin => ?_
    rw [hcall.rdi] at hin
    exact ha.apart j i hlive ⟨t', hi⟩ (Ne.symm hij) _ x hin (ha.within ⟨t', hi⟩ hx)

theorem switchStack (m : Arch) : frameTop m + UInt64.ofNat 32 = m.gpr .rsp - 8 := by
  change m.gpr .rsp - 40 + 32 = m.gpr .rsp - 8
  grind

/-- `SwitchContext` saves for task `i` the state in which it returns, and goes on with task `j`. -/
theorem switchContext_represents (h : Represents p addr m.cr3 m.mem tm (some i))
    (ha : ContextsApart p addr tm)
    (hcall : CallsSwitch p addr tm m i j rip) (hlive : tm.Live i) (htouch : Touches tm tm' i f)
    (hf : ∀ t, (f t).context = savedContext m.toArch rip) (ht : tm'.find j = some t) :
    ∃ m', m.run p switchContext = some m' ∧ m'.toArch = archOf t.context ∧
      Represents p addr m'.cr3 m'.mem tm' none := by
  have hstack : KernelStack p addr tm (m.gpr .rsp - 8) 16 := by
    have hpart := hcall.stack.part (o := 32) (l := 16) (by decide)
    rwa [switchStack] at hpart
  have hcan : CanSwitch p m rip :=
    { ret := hcall.ret
      stack := hstack.mapped _
      context := hcall.rsi ▸ ha.mapped i hlive _
      aligned := hcall.rsi ▸ ha.aligned i hlive
      apart := fun x hx => hcall.rsi ▸ hstack.apart i hlive _ x hx }
  obtain ⟨r, hsave, himage, hspace, hrflags, hrdi, hrsp, hkept⟩ := saveContext_spec hcan
  have hkeep : KeepsContexts p addr tm (some i) m.mem r.mem := by
    intro j' hj hne s x hx
    refine hkept x (fun hin => hstack.apart j' hj _ x hin (ha.within hj hx)) fun hin => ?_
    rw [hcall.rsi] at hin
    exact ha.apart i j' hlive hj (fun heq => hne (congrArg some heq)) _ x hin (ha.within hj hx)
  rw [hcall.rsi] at himage
  have hsaved : Represents p addr r.cr3 r.mem tm' none := by
    rw [hspace]
    exact (h.keep hkeep).save htouch hf himage
  have hlive' : ∀ i, tm'.Live i → tm.Live i := fun i => htouch.live_iff.1
  have htop : frameTop r.toArch = frameTop m.toArch := by rw [frameTop, frameTop, hrsp]
  have hrestore : CallsRestore p addr tm' r j :=
    { rdi := hrdi.trans hcall.rdi
      stack := by
        have hpart := (hcall.stack.mono hlive').part (o := 0) (l := 40) (by decide)
        rwa [Frames.add_ofNat_zero, ← htop] at hpart
      notNested := hrflags ▸ hcall.notNested }
  obtain ⟨m', hrun, harch, hrep⟩ := restoreContext_represents hsaved (ha.mono hlive') hrestore ht
  refine ⟨m', ?_, harch, hrep⟩
  rw [switchContext, Cpu.run_append, hsave, Option.bind_some, hrun]

/-- What the timer's interrupt handler hands to `LAPICTimerOnInterrupt` is in the context of the
current task after the copy. -/
theorem copiesContext_represents (h : Represents p addr m.cr3 m.mem tm (some i))
    (ha : ContextsApart p addr tm)
    (hcan : CanInterrupt p m ist)
    (hs : KernelStack p addr tm (stackTop ist - UInt64.ofNat timerFrameSize) timerFrameSize)
    (hentry : TimerEntered p ist cs ss m m₁) (hcopy : CopiesContext p addr tm m₁ r i)
    (hlive : tm.Live i)
    (htouch : Touches tm tm' i f) (hf : ∀ t, (f t).context = interruptedContext m.toArch) :
    Represents p addr r.cr3 r.mem tm' none := by
  obtain ⟨m₁', hentry', hspace, himage⟩ := timerEntry_spec hcan cs ss
  cases hentry.symm.trans hentry'
  obtain ⟨m₁', -, hentry', -, -, -, -, -, hkept⟩ := timerEntry_shows hcan cs ss
  cases hentry.symm.trans hentry'
  have hbefore : Represents p addr r.cr3 r.mem tm (some i) := by
    rw [hcopy.cr3, hspace]
    exact (h.keep (KeepsContexts.of_kept ha hs hkept).mono).keep hcopy.kept
  refine hbefore.save htouch hf ?_
  rw [hcopy.cr3]
  exact Block.copied himage (by rw [sizes_contextItems]; exact ha.mapped i hlive _) fun k hk => by
    rw [sizes_contextItems] at hk
    exact hcopy.copied k hk

/-- The instructions that write to memory. -/
def Instr.writes : Instr → Bool
  | .store .. | .push _ | .pushMem .. | .popMem .. | .pushfq | .fxsave .. => true
  | _ => false

theorem pop_mem {x : UInt64 × Cpu} (h : m.pop p = some x) : x.2.mem = m.mem := by
  obtain ⟨_, -, rfl⟩ := Option.map_eq_some_iff.1 h
  rfl

theorem retf_mem (h : m.retf p = some m') : m'.mem = m.mem := by
  obtain ⟨x, hx, h⟩ := Option.bind_eq_some_iff.1 h
  obtain ⟨y, hy, h⟩ := Option.bind_eq_some_iff.1 h
  have hmem := (pop_mem hy).trans (pop_mem hx)
  dsimp only at h
  split at h
  · cases h
  split at h
  · cases h
    exact hmem
  · obtain ⟨z, hz, h⟩ := Option.bind_eq_some_iff.1 h
    obtain ⟨w, hw, h⟩ := Option.bind_eq_some_iff.1 h
    cases h
    exact (pop_mem hw).trans ((pop_mem hz).trans hmem)

theorem step_mem {c : Instr} (hc : c.writes = false)
    (h : m.step p c = some m') : m'.mem = m.mem := by
  cases c with
  | mov | mov32 | lea | add | sub | and | and32 | movFromCR3 | movToCR3 | movFromSeg | movToSeg =>
    cases h
    rfl
  | load =>
    obtain ⟨_, -, rfl⟩ := Option.map_eq_some_iff.1 h
    rfl
  | pop =>
    obtain ⟨_, hx, rfl⟩ := Option.map_eq_some_iff.1 h
    exact pop_mem hx
  | ret =>
    obtain ⟨_, hx, rfl⟩ := Option.map_eq_some_iff.1 h
    exact pop_mem hx
  | fxrstor =>
    rw [Cpu.step, Cpu.fxrstor] at h
    split at h
    · cases h
    · obtain ⟨_, -, rfl⟩ := Option.map_eq_some_iff.1 h
      rfl
  | retf => exact retf_mem h
  | iret => exact iret_mem h
  | store | push | pushMem | popMem | pushfq | fxsave => cases hc

theorem run_mem {code : List Instr} (hcode : code.all (! ·.writes) = true)
    (h : m.run p code = some m') : m'.mem = m.mem := by
  induction code generalizing m with
  | nil =>
    cases h
    rfl
  | cons c code ih =>
    rw [List.all_cons, Bool.and_eq_true, Bool.not_eq_true'] at hcode
    obtain ⟨u, hu, h⟩ := Option.bind_eq_some_iff.1 h
    exact (ih hcode.2 h).trans (step_mem hcode.1 hu)

/-! ## Private states -/

namespace Private

/-- What a step does with the states of the tasks. -/
inductive Event (α : Type*)
  /-- Task `i` computes, up to the state `x`. -/
  | progress (i : Nat) (x : α)
  /-- Task `i` makes the task `j`, which is to start with `x`, and goes on with `y`. -/
  | create (i j : Nat) (x y : α)
  /-- Task `i` is switched out with `x`, and task `j` goes on. -/
  | switch (i : Nat) (x : α) (j : Nat)
  /-- Task `i` ends, and task `j` goes on. -/
  | exit (i j : Nat)
  /-- All states stay as they are. -/
  | stay

variable {α : Type*} {V W : Private α} {e e₁ e₂ : Event α} {es es₁ es₂ : List (Event α)}
    {j : Nat} {x : α}

namespace Event

/-- The task that executes. -/
def actor : Event α → Option Nat
  | progress i _ | create i _ _ _ | switch i _ _ | exit i _ => some i
  | stay => none

/-- The task that goes on in its place. -/
def next : Event α → Option Nat
  | switch _ _ j | exit _ j => some j
  | _ => none

/-- Task `j` is switched out with the state `x`, or is made with it. -/
def Leaves (j : Nat) (x : α) : Event α → Prop
  | switch i y _ | create _ i y _ => i = j ∧ y = x
  | _ => False

end Event

/-- The machine's steps. A task goes on in the place of another one by `switch` and `exit` only, and
with the state it has. -/
inductive LStep : Private α → Event α → Private α → Prop
  | progress (V : Private α) (x : α) :
    LStep V (.progress V.executing x)
      { V with context := Function.update V.context V.executing (some x) }
  | create (V : Private α) {j : Nat} (x y : α) (h : V.context j = none) (hne : V.executing ≠ j) :
    LStep V (.create V.executing j x y)
      { V with context :=
          Function.update (Function.update V.context j (some x)) V.executing (some y) }
  | switch (V : Private α) (x : α) {j : Nat}
    (h : Function.update V.context V.executing (some x) j ≠ none) :
    LStep V (.switch V.executing x j) { executing := j,
                                        context := Function.update V.context V.executing (some x) }
  | exit (V : Private α) {j : Nat} (h : V.context j ≠ none) (hne : j ≠ V.executing) :
    LStep V (.exit V.executing j) { executing := j,
                                    context := Function.update V.context V.executing none }
  | stay (V : Private α) : LStep V .stay V

namespace LStep

theorem leaves (h : LStep V e W) (he : e.Leaves j x) : W.context j = some x := by
  cases h with
  | create _ y _ hne =>
    obtain ⟨rfl, rfl⟩ := he
    exact (Function.update_of_ne (Ne.symm hne) ..).trans (Function.update_self ..)
  | switch =>
    obtain ⟨rfl, rfl⟩ := he
    exact Function.update_self ..
  | progress | exit | stay => exact he.elim

/-- Only the task that executes changes the state that it has. -/
theorem keeps (h : LStep V e W) (hne : e.actor ≠ some j) (hx : V.context j = some x) :
    W.context j = some x := by
  have hof : ∀ {i : Nat}, some i ≠ some j → j ≠ i := fun hi heq => hi (congrArg some heq.symm)
  cases h with
  | progress => exact (Function.update_of_ne (hof hne) ..).trans hx
  | @create i _ _ hnone =>
    have hji : j ≠ i := by
      rintro rfl
      cases hnone.symm.trans hx
    exact (Function.update_of_ne (hof hne) ..).trans ((Function.update_of_ne hji ..).trans hx)
  | switch => exact (Function.update_of_ne (hof hne) ..).trans hx
  | exit => exact (Function.update_of_ne (hof hne) ..).trans hx
  | stay => exact hx

theorem executing (h : LStep V e W) (he : e.next = some j) : W.executing = j := by
  cases h with
  | switch | exit => exact Option.some.inj he
  | progress | create | stay => cases he

end LStep

theorem keeps_run (hrun : Run LStep V es W) (hne : ∀ e ∈ es, e.actor ≠ some j)
    (hx : V.context j = some x) :
    W.context j = some x := by
  induction hrun with
  | nil => exact hx
  | cons hstep _ ih =>
    obtain ⟨hfirst, hrest⟩ := List.forall_mem_cons.1 hne
    exact ih hrest (hstep.keeps hfirst hx)

/-- The task `j` goes on in the last step of a run, and has executed nothing since it left with the
state `x`. -/
structure GoesOn (es : List (Event α)) (j : Nat) (x : α) : Prop where
  split : ∃ es₁ e₁ es₂ e₂, es = es₁ ++ e₁ :: (es₂ ++ [e₂]) ∧ e₁.Leaves j x ∧
    (∀ e ∈ es₂ ++ [e₂], e.actor ≠ some j) ∧
    e₂.next = some j

theorem GoesOn.context (h : GoesOn es j x) (hrun : Run LStep V es W) :
    W.executing = j ∧ W.context j = some x := by
  obtain ⟨es₁, e₁, es₂, e₂, rfl, hleaves, hne, hnext⟩ := h.split
  obtain ⟨V₁, -, hrun⟩ := hrun.of_append
  cases hrun with
  | cons hstep hrun =>
    refine ⟨?_, keeps_run hrun hne (hstep.leaves hleaves)⟩
    obtain ⟨V₂, -, hlast⟩ := hrun.of_append
    cases hlast with
    | cons hstep hnil =>
      cases hnil
      exact hstep.executing hnext

end Private

/-! ## Steps of the kernel -/

/-- The kernel's steps. The processor executes one task; the task manager is changed by calls of
that task and by the timer. `addr` is where the contexts of the tasks are. The event says what
happens to the states of the tasks. -/
inductive Kernel.Step (p : Platform) (addr : Nat → UInt64) :
  Kernel → Private.Event Arch → Kernel → Prop
  /-- What the task does by itself. -/
  | compute {k : Kernel} {m : Cpu} {i : Nat} (hi : k.tm.currentTask = some i)
    (hkept : KeepsContexts p addr k.tm (some i) k.cpu.mem m.mem) :
    Kernel.Step p addr k (.progress i m.toArch) { k with cpu := m }
  | newTask {k : Kernel} {tm : TaskManager} {m : Cpu} {t : Task} {i : Nat}
    {cr3 stackEnd f data : UInt64}
    (hi : k.tm.currentTask = some i)
    (htm : tm = k.tm.newTask.modify (k.tm.latestId + 1) (·.initContext cr3 stackEnd f data))
    (ht : tm.find (k.tm.latestId + 1) = some t)
    (himage : Image p m.cr3 m.mem (addr (k.tm.latestId + 1)) t.context)
    (hkept : KeepsContexts p addr k.tm none k.cpu.mem m.mem) (hapart : ContextsApart p addr tm) :
    Kernel.Step p addr k (.create i (k.tm.latestId + 1) (archOf t.context) m.toArch) ⟨tm, m⟩
  | wakeup {k : Kernel} {tm : TaskManager} {e : Error} {task : Nat} {level : Int}
    (hlevel : level ≤ kMaxLevel)
    (h : k.tm.wakeupById task level = some (e, tm)) : Kernel.Step p addr k .stay { k with tm := tm }
  | sendMessage {k : Kernel} {tm : TaskManager} {e : Error} {task : Nat} {msg : Message}
    (h : k.tm.sendMessage task msg = some (e, tm)) : Kernel.Step p addr k .stay { k with tm := tm }
  /-- `Sleep` of a task that does not execute. -/
  | sleepOther {k : Kernel} {tm : TaskManager} {e : Error} {task : Nat} {c cpu : TaskContext}
    (hne : k.tm.currentTask ≠ some task) (hidle : task ≠ idleId)
    (h : k.tm.sleepById task c = some (e, tm, cpu)) :
    Kernel.Step p addr k .stay { k with tm := tm }
  /-- `WaitFinish` before it goes to sleep. -/
  | wait {k : Kernel} {i task : Nat} (hi : k.tm.currentTask = some i) :
    Kernel.Step p addr k .stay
      { k with tm := { k.tm with finishWaiter := Function.update k.tm.finishWaiter task (some i) } }
  /-- `WaitFinish` when the task has finished. -/
  | takeExitCode {k : Kernel} {task : Nat} :
    Kernel.Step p addr k .stay
      { k with tm := { k.tm with finishTasks := Function.update k.tm.finishTasks task none } }
  /-- The task is switched out where `SwitchContext` returns. -/
  | sleep {k : Kernel} {tm : TaskManager} {m : Cpu} {i j : Nat} {rip : UInt64} {cpu : TaskContext}
    (hi : k.tm.currentTask = some i) (hidle : i ≠ idleId)
    (h : k.tm.sleep i (savedContext k.cpu.toArch rip) = some (tm, cpu))
    (hj : tm.currentTask = some j)
    (hcall : CallsSwitch p addr k.tm k.cpu i j rip) (hrun : k.cpu.run p switchContext = some m) :
    Kernel.Step p addr k (.switch i (returned k.cpu.toArch rip) j) ⟨tm, m⟩
  /-- The timer, where `SwitchTask` finds another task. -/
  | switchTask {k : Kernel} {tm : TaskManager} {m₁ r m : Cpu} {i j : Nat} {ist : UInt64}
    {cs ss : UInt16} {cpu : TaskContext}
    (hi : k.tm.currentTask = some i)
    (hstack : KernelStack p addr k.tm (stackTop ist - UInt64.ofNat timerFrameSize) timerFrameSize)
    (hentry : TimerEntered p ist cs ss k.cpu m₁)
    (h : k.tm.switchTask (interruptedContext k.cpu.toArch) = some (tm, cpu))
    (hj : tm.currentTask = some j) (hne : j ≠ i)
    (hcopy : CopiesContext p addr k.tm m₁ r i) (hcall : CallsRestore p addr k.tm r j)
    (hrun : r.run p restoreContext = some m) :
    Kernel.Step p addr k (.switch i k.cpu.toArch j) ⟨tm, m⟩
  /-- The timer, where `SwitchTask` finds no other task. -/
  | switchSame {k : Kernel} {tm : TaskManager} {m₁ r m : Cpu} {i : Nat} {ist : UInt64}
    {cs ss : UInt16} {cpu : TaskContext}
    (hi : k.tm.currentTask = some i)
    (hstack : KernelStack p addr k.tm (stackTop ist - UInt64.ofNat timerFrameSize) timerFrameSize)
    (hentry : TimerEntered p ist cs ss k.cpu m₁)
    (h : k.tm.switchTask (interruptedContext k.cpu.toArch) = some (tm, cpu))
    (hj : tm.currentTask = some i)
    (hcopy : CopiesContext p addr k.tm m₁ r i) (hret : HandlerReturned p m₁ r)
    (hrun : r.run p intHandlerLAPICTimerExit = some m) : Kernel.Step p addr k .stay ⟨tm, m⟩
  | finish {k : Kernel} {tm : TaskManager} {r m : Cpu} {i j : Nat} {exitCode : Int}
    {cpu : TaskContext}
    (hi : k.tm.currentTask = some i) (hidle : i ≠ idleId)
    (hwaiter : ∀ w, k.tm.finishWaiter i = some w → k.tm.Live w ∧ w ≠ i)
    (h : k.tm.finish exitCode = some (tm, cpu)) (hj : tm.currentTask = some j)
    (hkept : KeepsContexts p addr k.tm (some i) k.cpu.mem r.mem)
    (hcall : CallsRestore p addr k.tm r j)
    (hrun : r.run p restoreContext = some m) : Kernel.Step p addr k (.exit i j) ⟨tm, m⟩

/-- The private states: that of the executing task is on the processor, the others are in memory, as
their contexts. -/
structure Kernel.Shows (p : Platform) (addr : Nat → UInt64) (k : Kernel)
    (V : Private Arch) : Prop where
  sched : SchedInv k.tm
  apart : ContextsApart p addr k.tm
  current : k.tm.currentTask = some V.executing
  executing : V.context V.executing = some k.cpu.toArch
  others : ∀ i, i ≠ V.executing → V.context i = (k.tm.find i).map fun t => archOf t.context
  memory : Represents p addr k.cpu.cr3 k.cpu.mem k.tm (some V.executing)

namespace Kernel.Shows

/-- The task manager has been called, but neither a task nor a context is another one. -/
theorem manage (h : k.Shows p addr V) (hs : SchedInv tm')
    (hcur : tm'.currentTask = k.tm.currentTask)
    (ht : Touches k.tm tm' i f) (hf : ∀ t, (f t).context = t.context) :
    Kernel.Shows p addr { k with tm := tm' } V where
  sched := hs
  apart := h.apart.mono fun j => ht.live_iff.1
  current := hcur.trans h.current
  executing := h.executing
  others j hj := by
    rw [h.others j hj]
    show _ = (tm'.find j).map _
    rw [ht.find]
    split
    · rw [Option.map_map]
      congr 1
      funext t
      exact congrArg archOf (hf t).symm
    · rfl
  memory := h.memory.touch ht hf

/-- All contexts are in memory, and the processor goes on with that of the task `j`. -/
theorem resume {W : Private Arch} (hs : SchedInv tm') (ha : ContextsApart p addr tm')
    (hcur : tm'.currentTask = some j)
    (ht : tm'.find j = some t)
    (hctx : ∀ i, W.context i = (tm'.find i).map fun t => archOf t.context)
    (harch : m'.toArch = archOf t.context) (hrep : Represents p addr m'.cr3 m'.mem tm' none) :
    Kernel.Shows p addr ⟨tm', m'⟩ { W with executing := j } ∧ W.context j ≠ none := by
  have hj : W.context j = some m'.toArch := by rw [hctx, ht, Option.map_some, harch]
  exact ⟨⟨hs, ha, hcur, hj, fun i _ => hctx i, hrep.mono⟩, hj ▸ Option.some_ne_none _⟩

theorem saved (h : k.Shows p addr V) (ht : Touches k.tm tm' V.executing f)
    (hlive : k.tm.Live V.executing)
    (hf : ∀ t, (f t).context = c) (i : Nat) :
    Function.update V.context V.executing (some (archOf c)) i = (tm'.find i).map fun t =>
      archOf t.context := by
  by_cases hi : i = V.executing
  · obtain ⟨t, hlive⟩ := hlive
    rw [hi, Function.update_self, ht.self hlive, Option.map_some, hf]
  · rw [Function.update_of_ne hi, ht.of_ne hi, h.others i hi]

theorem live (h : k.Shows p addr V) : ∃ t, k.tm.find V.executing = some t ∧ t.running = true := by
  obtain ⟨c, -, t, -, hc, ht, hr, -⟩ := h.sched.exists_current
  cases h.current.symm.trans hc
  exact ⟨t, ht, hr⟩

theorem sleep {cpu : TaskContext} (h : k.Shows p addr V) (hidle : V.executing ≠ idleId)
    (hsleep : k.tm.sleep V.executing (savedContext k.cpu.toArch rip) = some (tm', cpu))
    (hj : tm'.currentTask = some j)
    (hcall : CallsSwitch p addr k.tm k.cpu V.executing j rip) :
    ∃ m', k.cpu.run p switchContext = some m' ∧ Kernel.Shows p addr ⟨tm', m'⟩
      { executing := j,
        context := Function.update V.context V.executing (some (returned k.cpu.toArch rip)) } ∧
      Function.update V.context V.executing (some (returned k.cpu.toArch rip)) j ≠ none := by
  obtain ⟨t, ht, hr⟩ := h.live
  obtain ⟨tm₁, cpu₁, hsleep₁, hs, -⟩ := h.sched.sleep ht hidle (savedContext k.cpu.toArch rip)
  cases hsleep.symm.trans hsleep₁
  obtain ⟨t', ht', ⟨hr', -⟩ | ⟨-, htouch, -⟩ | ⟨hne, -⟩⟩ := touches_sleep hsleep
  · cases ht.symm.trans ht'
    rw [hr] at hr'
    cases hr'
  · have ha := h.apart.mono fun i => (htouch.live_iff (j := i)).1
    obtain ⟨_, -, next, -, hc, hnext, -⟩ := hs.exists_current
    cases hj.symm.trans hc
    obtain ⟨m', hrun, harch, hrep⟩ :=
      switchContext_represents h.memory h.apart hcall ⟨t, ht⟩ htouch (fun _ => rfl) hnext
    have hctx := h.saved (c := savedContext k.cpu.toArch rip) htouch ⟨t, ht⟩ fun _ => rfl
    rw [archOf_savedContext] at hctx
    exact ⟨m', hrun, resume (W := { V with context := _ }) hs ha hj hnext hctx harch hrep⟩
  · exact absurd h.current hne

theorem switchTask {cpu : TaskContext} (h : k.Shows p addr V)
    (hswitch : k.tm.switchTask (interruptedContext k.cpu.toArch) = some (tm', cpu)) :
    SchedInv tm' ∧ Touches k.tm tm' V.executing (·.setContext (interruptedContext k.cpu.toArch)) ∧
      ∀ i, V.context i = (tm'.find i).map fun t => archOf t.context := by
  obtain ⟨t, ht, -⟩ := h.live
  obtain ⟨_, _, hswitch₁, hs, -⟩ := h.sched.switchTask (interruptedContext k.cpu.toArch)
  cases hswitch.symm.trans hswitch₁
  obtain ⟨i, j', hi, htouch, -⟩ := touches_switchTask hswitch
  cases h.current.symm.trans hi
  refine ⟨hs, htouch, fun i => ?_⟩
  have hctx := h.saved (c := interruptedContext k.cpu.toArch) htouch ⟨t, ht⟩ (fun _ => rfl) i
  rwa [archOf_interruptedContext, ← h.executing, Function.update_eq_self] at hctx

theorem timer {cpu : TaskContext} (h : k.Shows p addr V)
    (hstack : KernelStack p addr k.tm (stackTop ist - UInt64.ofNat timerFrameSize) timerFrameSize)
    (hentry : TimerEntered p ist cs ss k.cpu m₁)
    (hswitch : k.tm.switchTask (interruptedContext k.cpu.toArch) = some (tm', cpu))
    (hj : tm'.currentTask = some j)
    (hcopy : CopiesContext p addr k.tm m₁ r V.executing) :
    (CallsRestore p addr k.tm r j → ∃ m', r.run p restoreContext = some m' ∧
      Kernel.Shows p addr ⟨tm', m'⟩ { V with executing := j } ∧ V.context j ≠ none) ∧
    (j = V.executing → HandlerReturned p m₁ r → ∃ m', r.run p intHandlerLAPICTimerExit = some m' ∧
      Kernel.Shows p addr ⟨tm', m'⟩ V) := by
  obtain ⟨t, ht, -⟩ := h.live
  obtain ⟨hs, htouch, hctx⟩ := h.switchTask hswitch
  have hlive : ∀ i, tm'.Live i → k.tm.Live i := fun i => htouch.live_iff.1
  have ha := h.apart.mono hlive
  have hcan : CanInterrupt p k.cpu ist := ⟨hstack.mapped _⟩
  have hrep :=
    copiesContext_represents h.memory h.apart hcan hstack hentry hcopy ⟨t, ht⟩ htouch fun _ => rfl
  obtain ⟨_, -, next, -, hc, hnext, -⟩ := hs.exists_current
  cases hj.symm.trans hc
  constructor
  · intro hcall
    obtain ⟨m', hrun, harch, hrep'⟩ :=
      restoreContext_represents hrep ha { hcall with stack := hcall.stack.mono hlive } hnext
    exact ⟨m', hrun, resume hs ha hj hnext hctx harch hrep'⟩
  · rintro rfl hret
    obtain ⟨m', hrun, harch⟩ := timerExit_spec hcan hentry hret
    have hself : tm'.find V.executing = some (t.setContext (interruptedContext k.cpu.toArch)) :=
      htouch.self ht
    have harch' : m'.toArch = archOf (interruptedContext k.cpu.toArch) :=
      harch.trans (archOf_interruptedContext _).symm
    obtain ⟨m₁', hentry', hspace, -⟩ := timerEntry_spec hcan cs ss
    cases hentry.symm.trans hentry'
    have hmem : m'.mem = r.mem := run_mem (by decide) hrun
    have hcr3 : m'.cr3 = r.cr3 := (congrArg Arch.cr3 harch).trans (hspace.symm.trans hcopy.cr3.symm)
    rw [← hmem, ← hcr3] at hrep
    exact ⟨m', hrun, (resume hs ha hj hself hctx harch' hrep).1⟩

theorem finish {cpu : TaskContext} {exitCode : Int} (h : k.Shows p addr V)
    (hidle : V.executing ≠ idleId)
    (hwaiter : ∀ w, k.tm.finishWaiter V.executing = some w → k.tm.Live w ∧ w ≠ V.executing)
    (hfinish : k.tm.finish exitCode = some (tm', cpu)) (hj : tm'.currentTask = some j)
    (hkept : KeepsContexts p addr k.tm (some V.executing) k.cpu.mem r.mem)
    (hcall : CallsRestore p addr k.tm r j) :
    ∃ m', r.run p restoreContext = some m' ∧ Kernel.Shows p addr ⟨tm', m'⟩
      { executing := j, context := Function.update V.context V.executing none } ∧ V.context j ≠
        none ∧ j ≠ V.executing := by
  have hcur : k.tm.currentTask ≠ some idleId :=
    fun heq => hidle (Option.some.inj (h.current.symm.trans heq))
  obtain ⟨tm₁, cpu₁, hfinish₁, hs⟩ := h.sched.finish hcur (fun c w hc hw => by
    cases h.current.symm.trans hc
    exact hwaiter w hw) exitCode
  cases hfinish.symm.trans hfinish₁
  obtain ⟨i, lv, hi, hfind, -⟩ := finish_effect hfinish
  cases h.current.symm.trans hi
  have hcontext : ∀ i, (tm'.find i).map (fun t => t.context) =
      if i = V.executing then none else (k.tm.find i).map fun t => t.context := by
    intro i
    rw [hfind]
    split
    · rfl
    split
    · rw [Option.map_map]
      rfl
    · rfl
  have hlive : ∀ i, tm'.Live i → k.tm.Live i := by
    rintro i ⟨t, ht⟩
    have hthis := hcontext i
    rw [ht, Option.map_some] at hthis
    split at hthis
    · cases hthis
    · obtain ⟨u, hu, -⟩ := Option.map_eq_some_iff.1 hthis.symm
      exact ⟨u, hu⟩
  have hrep : Represents p addr r.cr3 r.mem tm' none := by
    intro i t _ ht
    have hthis := hcontext i
    rw [ht, Option.map_some] at hthis
    split at hthis
    · cases hthis
    · rename_i hne
      obtain ⟨u, hu, hctx⟩ := Option.map_eq_some_iff.1 hthis.symm
      rw [← hctx]
      exact ((h.memory.keep hkept).shared h.apart) i u (fun heq => hne (Option.some.inj heq).symm)
        hu
  have hctx : ∀ i, Function.update V.context V.executing none i = (tm'.find i).map fun t =>
    archOf t.context := by
    intro i
    have hthis : (tm'.find i).map (fun t => archOf t.context) =
      ((tm'.find i).map fun t => t.context).map archOf := by
      rw [Option.map_map]
      rfl
    rw [hthis, hcontext]
    by_cases hi : i = V.executing
    · rw [if_pos hi, hi, Function.update_self, Option.map_none]
    · rw [if_neg hi, Function.update_of_ne hi, h.others i hi, Option.map_map]
      rfl
  have ha := h.apart.mono hlive
  obtain ⟨_, -, next, -, hc, hnext, -⟩ := hs.exists_current
  cases hj.symm.trans hc
  obtain ⟨m', hrun, harch, hrep'⟩ :=
    restoreContext_represents hrep ha { hcall with stack := hcall.stack.mono hlive } hnext
  obtain ⟨hshows, hsome⟩ := resume (W := { V with context := _ }) hs ha hj hnext hctx harch hrep'
  have hsome : Function.update V.context V.executing none j ≠ none := hsome
  have hne : j ≠ V.executing := by
    rintro rfl
    exact hsome (Function.update_self ..)
  refine ⟨m', hrun, hshows, ?_, hne⟩
  rwa [Function.update_of_ne hne] at hsome

theorem newTask {cr3 stackEnd g data : UInt64} (h : k.Shows p addr V)
    (htm : tm' = k.tm.newTask.modify (k.tm.latestId + 1) (·.initContext cr3 stackEnd g data))
    (ht' : tm'.find (k.tm.latestId + 1) = some t)
    (himage : Image p m.cr3 m.mem (addr (k.tm.latestId + 1)) t.context)
    (hkept : KeepsContexts p addr k.tm none k.cpu.mem m.mem) (ha : ContextsApart p addr tm') :
    V.context (k.tm.latestId + 1) = none ∧ V.executing ≠ k.tm.latestId + 1 ∧
      Kernel.Shows p addr ⟨tm', m⟩
      { V with context :=
        Function.update (Function.update V.context (k.tm.latestId + 1) (some (archOf t.context)))
                            V.executing (some m.toArch) } := by
  have hfresh := h.sched.find_fresh
  have hne : V.executing ≠ k.tm.latestId + 1 := by
    obtain ⟨u, hu, -⟩ := h.live
    intro heq
    rw [heq, hfresh] at hu
    cases hu
  have hmod : Touches k.tm.newTask tm' (k.tm.latestId + 1) (·.initContext cr3 stackEnd g data) :=
    htm ▸ .modify fun _ => rfl
  have hold : ∀ i, i ≠ k.tm.latestId + 1 → tm'.find i = k.tm.find i := fun i hi => by
    rw [hmod.of_ne hi, find_newTask_of_ne hi]
  have hnew := h.sched.newTask
  refine ⟨by rw [h.others _ (Ne.symm hne), hfresh,
    Option.map_none], hne, ?_, ha, ?_, ?_, fun i hi => ?_, ?_⟩
  · rw [htm]
    exact { toQueueInv := hnew.toQueueInv.modify (fun _ => rfl) (fun _ => rfl) (fun _ => rfl)
            current := hnew.current
            highest := hnew.highest }
  · rw [htm]
    exact h.current
  · exact Function.update_self ..
  · show Function.update _ V.executing _ i = _
    rw [Function.update_of_ne hi]
    by_cases hin : i = k.tm.latestId + 1
    · rw [hin, Function.update_self, ht', Option.map_some]
    · rw [Function.update_of_ne hin, hold i hin, h.others i hi]
  · intro i u hi hfind
    by_cases hin : i = k.tm.latestId + 1
    · subst hin
      cases ht'.symm.trans hfind
      exact himage
    · rw [hold i hin] at hfind
      exact ((h.memory.keep hkept.mono).shared h.apart) i u hi hfind

theorem maps (h : k.Shows p addr V) (codes : Nat → Option Int) (waiters : Nat → Option Nat) :
    Kernel.Shows p addr { k with tm := { k.tm with finishTasks := codes, finishWaiter := waiters } }
      V where
  sched := h.sched.maps codes waiters
  apart := h.apart.mono fun _ hi => hi
  current := h.current
  executing := h.executing
  others := h.others
  memory := h.memory

theorem compute (h : k.Shows p addr V)
    (hkept : KeepsContexts p addr k.tm (some V.executing) k.cpu.mem m.mem) :
    Kernel.Shows p addr { k with cpu := m }
      { V with context := Function.update V.context V.executing (some m.toArch) } where
  sched := h.sched
  apart := h.apart
  current := h.current
  executing := Function.update_self ..
  others i hi := (Function.update_of_ne hi ..).trans (h.others i hi)
  memory := (h.memory.keep hkept).shared h.apart

theorem sleepOther {e : Error} {task : Nat} {c cpu : TaskContext} (h : k.Shows p addr V)
    (hne : k.tm.currentTask ≠ some task)
    (hidle : task ≠ idleId) (hsleep : k.tm.sleepById task c = some (e, tm', cpu)) :
    Kernel.Shows p addr { k with tm := tm' } V := by
  rw [sleepById] at hsleep
  split at hsleep
  · cases hsleep
    exact h
  · rename_i t ht
    obtain ⟨⟨tm₁, cpu₁⟩, hrun, heq⟩ := Option.map_eq_some_iff.1 hsleep
    cases heq
    obtain ⟨_, _, hrun', hs, hcur⟩ := h.sched.sleep ht hidle c
    cases hrun.symm.trans hrun'
    obtain ⟨-, -, ⟨-, rfl, -⟩ | ⟨heq, -⟩ | ⟨-, htouch, -⟩⟩ := touches_sleep hrun
    · exact h
    · exact absurd heq hne
    · exact h.manage hs (hcur hne) htouch fun _ => rfl

/-- Each step of the kernel is the step of a machine with a private state for each task that has the
same label. -/
theorem step {e : Private.Event Arch} (h : k.Shows p addr V) (hstep : k.Step p addr e k') :
    ∃ W, Private.LStep V e W ∧ k'.Shows p addr W := by
  have hexec {i : Nat} (hi : k.tm.currentTask = some i) : V.executing = i :=
    Option.some.inj (h.current.symm.trans hi)
  cases hstep with
  | compute hi hkept =>
    cases hexec hi
    exact ⟨_, .progress V _, h.compute hkept⟩
  | newTask hi htm ht himage hkept ha =>
    cases hexec hi
    obtain ⟨hnone, hne, hshows⟩ := h.newTask htm ht himage hkept ha
    exact ⟨_, .create V _ _ hnone hne, hshows⟩
  | wakeup hlevel hw =>
    rw [wakeupById] at hw
    split at hw
    · cases hw
      exact ⟨V, .stay V, h⟩
    · rename_i t ht
      obtain ⟨tm', hrun, heq⟩ := Option.map_eq_some_iff.1 hw
      cases heq
      obtain ⟨tm₁, hrun₁, hs, hcur⟩ := h.sched.wakeup ht hlevel
      cases hrun.symm.trans hrun₁
      obtain ⟨-, lv, htouch⟩ := touches_wakeup hrun
      exact ⟨V, .stay V, h.manage hs hcur htouch fun _ => rfl⟩
  | sendMessage hm =>
    rw [TaskManager.sendMessage] at hm
    split at hm
    · cases hm
      exact ⟨V, .stay V, h⟩
    · rename_i t ht
      obtain ⟨tm', hrun, heq⟩ := Option.map_eq_some_iff.1 hm
      cases heq
      obtain ⟨tm₁, hrun₁, hs, hcur⟩ := h.sched.sendMessageTo ht _
      cases hrun.symm.trans hrun₁
      obtain ⟨-, lv, htouch⟩ := touches_sendMessageTo hrun
      exact ⟨V, .stay V, h.manage hs hcur htouch fun _ => rfl⟩
  | sleepOther hne hidle hsleep => exact ⟨V, .stay V, h.sleepOther hne hidle hsleep⟩
  | wait hi => exact ⟨V, .stay V, h.maps _ _⟩
  | takeExitCode => exact ⟨V, .stay V, h.maps _ _⟩
  | sleep hi hne hsleep hj hcall hrun =>
    cases hexec hi
    obtain ⟨m', hrun', hshows, hsome⟩ := h.sleep hne hsleep hj hcall
    cases hrun.symm.trans hrun'
    exact ⟨_, .switch V _ hsome, hshows⟩
  | switchTask hi hstack hentry hswitch hj hne hcopy hcall hrun =>
    cases hexec hi
    obtain ⟨m', hrun', hshows, hsome⟩ := (h.timer hstack hentry hswitch hj hcopy).1 hcall
    cases hrun.symm.trans hrun'
    -- the state in which the task has been interrupted is the one it has
    have hself : Function.update V.context V.executing (some k.cpu.toArch) = V.context := by
      rw [← h.executing, Function.update_eq_self]
    have hlabel := Private.LStep.switch V k.cpu.toArch (j := _) (by rwa [hself])
    rw [hself] at hlabel
    exact ⟨_, hlabel, hshows⟩
  | switchSame hi hstack hentry hswitch hj hcopy hret hrun =>
    cases hexec hi
    obtain ⟨m', hrun', hshows⟩ := (h.timer hstack hentry hswitch hj hcopy).2 rfl hret
    cases hrun.symm.trans hrun'
    exact ⟨V, .stay V, hshows⟩
  | finish hi hne hwaiter hfinish hj hkept hcall hrun =>
    cases hexec hi
    obtain ⟨m', hrun', hshows, hsome, hnew⟩ := h.finish hne hwaiter hfinish hj hkept hcall
    cases hrun.symm.trans hrun'
    exact ⟨_, .exit V hsome hnew, hshows⟩

end Kernel.Shows

/-- None of the routines gets stuck. -/
structure Kernel.Proceeds (p : Platform) (addr : Nat → UInt64) (k : Kernel) : Prop where
  sleep : ∀ {i j tm cpu rip}, k.tm.currentTask = some i → i ≠ idleId →
    k.tm.sleep i (savedContext k.cpu.toArch rip) = some (tm, cpu) → tm.currentTask = some j →
    CallsSwitch p addr k.tm k.cpu i j rip → ∃ m, k.cpu.run p switchContext = some m
  switchTask : ∀ {i j tm cpu ist cs ss m₁ r}, k.tm.currentTask = some i →
    KernelStack p addr k.tm (stackTop ist - UInt64.ofNat timerFrameSize) timerFrameSize →
      TimerEntered p ist cs ss k.cpu m₁ →
    k.tm.switchTask (interruptedContext k.cpu.toArch) = some (tm, cpu) → tm.currentTask = some j →
    CopiesContext p addr k.tm m₁ r i →
      (CallsRestore p addr k.tm r j → ∃ m, r.run p restoreContext = some m) ∧
      (j = i → HandlerReturned p m₁ r → ∃ m, r.run p intHandlerLAPICTimerExit = some m)
  finish : ∀ {i j tm cpu exitCode r}, k.tm.currentTask = some i → i ≠ idleId →
    (∀ w, k.tm.finishWaiter i = some w → k.tm.Live w ∧ w ≠ i) →
      k.tm.finish exitCode = some (tm, cpu) →
    tm.currentTask = some j → KeepsContexts p addr k.tm (some i) k.cpu.mem r.mem →
      CallsRestore p addr k.tm r j →
    ∃ m, r.run p restoreContext = some m

theorem Kernel.Shows.proceeds (h : k.Shows p addr V) : k.Proceeds p addr where
  sleep hi hidle hsleep hj hcall := by
    cases h.current.symm.trans hi
    obtain ⟨m, hrun, -⟩ := h.sleep hidle hsleep hj hcall
    exact ⟨m, hrun⟩
  switchTask hi hstack hentry hswitch hj hcopy := by
    cases h.current.symm.trans hi
    obtain ⟨hother, hsame⟩ := h.timer hstack hentry hswitch hj hcopy
    exact ⟨fun hcall => (hother hcall).imp fun _ => And.left, fun heq hret =>
      (hsame heq hret).imp fun _ => And.left⟩
  finish hi hidle hwaiter hfinish hj hkept hcall := by
    cases h.current.symm.trans hi
    obtain ⟨m, hrun, -⟩ := h.finish hidle hwaiter hfinish hj hkept hcall
    exact ⟨m, hrun⟩

/-- Whatever steps the kernel takes, each task has a state of its own: the registers and the memory
show the states of a machine that has one for each task, step by step. So a task that goes on has on
the processor what it was switched out with, or made with. The routines do not get stuck. -/
theorem kernel_private {es : List (Private.Event Arch)} (h : k.Shows p addr V)
    (hrun : Run (Kernel.Step p addr) k es k') :
    (∃ W, Run Private.LStep V es W ∧ k'.Shows p addr W) ∧
    (∀ j x, Private.GoesOn es j x → k'.tm.currentTask = some j ∧ k'.cpu.toArch = x) ∧
      k'.Proceeds p addr := by
  obtain ⟨W, hpriv, hshows⟩ := hrun.simulate (T := Private.LStep) (V := fun V k => k.Shows p addr V)
    (fun _ _ _ _ hshows hstep => hshows.step hstep) h
  refine ⟨⟨W, hpriv, hshows⟩, fun j x hgoes => ?_, hshows.proceeds⟩
  obtain ⟨rfl, hx⟩ := hgoes.context hpriv
  exact ⟨hshows.current, Option.some.inj (hshows.executing.symm.trans hx)⟩

/-! ## The boot task makes way for a new one -/

/-- The idle task's context is at 0x1000, the boot task's at 0x2000, that of task 3 at 0x5000. -/
def bootAddr (i : Nat) : UInt64 := if i = 1 then 0x2000 else if i = 3 then 0x5000 else 0x1000

def bootTasks : TaskManager := .new 0x4000 0x6000 0x100

def idleContext : TaskContext := ((bootTasks.find idleId).map (·.context)).getD {}

def bootKernel : Kernel := ⟨bootTasks, ⟨kernelTask, memoryOf idleContext⟩⟩

def bootStates : Private Arch where
  executing := 1
  context i := if i = 1 then some kernelTask else (bootTasks.find i).map fun t => archOf t.context

/-- `NewTask().InitContext(0x200000, 7)` has been called. -/
def threeTasks : TaskManager := bootTasks.newTask.modify 3 (·.initContext 0x4000 0x7000 0x200000 7)

def newContext : TaskContext := ((threeTasks.find 3).map (·.context)).getD {}

/-- The new context has been written, and `SwitchContext` is about to be called for it. -/
def threeCpu : Cpu where
  toArch := { kernelTask with gpr := assign kernelTask.gpr .rdi 0x5000 }
  mem x := if x.1 = 5 then (bytes (contextItems newContext)).getD x.2 0 else memoryOf idleContext x

theorem live_of_ids {l : List Nat} (hids : tm.tasks.map (·.id) = l) (h : tm.Live i) : i ∈ l := by
  obtain ⟨t, ht⟩ := h
  rw [← hids, ← find_id ht]
  exact List.mem_map_of_mem (find_mem ht)

theorem bootAddr_page {x : Place} (hx : flat.frames.Within s (bootAddr i) contextSize x) :
    x.1 = if i = 1 then 2 else if i = 3 then 5 else 1 := by
  rw [bootAddr] at hx
  split at hx
  · rename_i hi
    rw [if_pos hi]
    exact flat_within (by decide) (by decide) (by decide) hx
  rename_i hi
  rw [if_neg hi]
  split at hx
  · rename_i hi
    rw [if_pos hi]
    exact flat_within (by decide) (by decide) (by decide) hx
  · rename_i hi
    rw [if_neg hi]
    exact flat_within (by decide) (by decide) (by decide) hx

theorem contextsApart_of_live (hlive : ∀ i, tm.Live i → i ∈ [1, idleId, 3]) :
    ContextsApart flat bootAddr tm where
  mapped _ _ _ := flat_mapped _ _ _
  aligned i _ := by
    rw [bootAddr]
    split
    · decide
    · split <;> decide
  shared _ _ _ _ _ _ := rfl
  apart i j hi hj hne s x hx hy := by
    have hpage := (bootAddr_page hx).symm.trans (bootAddr_page hy)
    have hpages : ∀ i ∈ [1, idleId, 3], ∀ j ∈ [1, idleId, 3], i ≠ j →
        (if i = 1 then 2 else if i = 3 then 5 else 1) ≠
          if j = 1 then 2 else if j = 3 then 5 else 1 := by decide
    exact hpages i (hlive i hi) j (hlive j hj) hne hpage

theorem live_bootTasks (h : bootTasks.Live i) : i = 1 ∨ i = idleId := by
  simpa using live_of_ids (l := [1, idleId]) rfl h

theorem live_threeTasks (h : threeTasks.Live i) : i ∈ [1, idleId, 3] := live_of_ids rfl h

theorem shows_bootKernel : bootKernel.Shows flat bootAddr bootStates where
  sched := schedInv_new _ _ _
  apart := contextsApart_of_live fun i hi => by rcases live_bootTasks hi with rfl | rfl <;> decide
  current := rfl
  executing := rfl
  others i hi := if_neg hi
  memory i t hne ht := by
    obtain rfl : i = idleId := (live_bootTasks ⟨t, ht⟩).resolve_left fun heq =>
      hne (congrArg some heq.symm)
    have hcontext : t.context = idleContext := by
      rw [idleContext, show bootTasks.find idleId = some t from ht]
      rfl
    rw [hcontext]
    exact image_memoryOf rfl

theorem newTask_bootKernel :
    Kernel.Step flat bootAddr bootKernel (.create 1 3 (archOf newContext) threeCpu.toArch)
    ⟨threeTasks, threeCpu⟩ := by
  obtain ⟨t, ht, hcontext⟩ : ∃ t, threeTasks.find 3 = some t ∧ t.context = newContext :=
    ⟨_, rfl, rfl⟩
  have himage : Image flat threeCpu.cr3 threeCpu.mem (bootAddr 3) t.context := by
    rw [hcontext]
    refine image_of_page (q := 5) rfl (by decide) rfl fun k hk => ?_
    rw [threeCpu]
    dsimp only
    rw [if_pos rfl, List.getD_eq_getElem _ _ hk]
  have hkept : KeepsContexts flat bootAddr bootTasks none bootKernel.cpu.mem threeCpu.mem :=
    fun i hi _ s x hx => by
    have hpage := bootAddr_page hx
    have hne : x.1 ≠ 5 := by
      rcases live_bootTasks hi with rfl | rfl <;> rw [hpage] <;> decide
    exact if_neg hne
  rw [← hcontext]
  exact .newTask (k := bootKernel) rfl rfl ht himage hkept (contextsApart_of_live fun i =>
    live_threeTasks)

theorem callsSwitch_threeTasks (hlive : ∀ i, tm.Live i → i ∈ [1, idleId, 3]) :
    CallsSwitch flat bootAddr tm threeCpu 1 3 0 where
  rdi := rfl
  rsi := rfl
  ret := by
    intro k hk
    have hk' : k < 8 := hk
    refine ⟨_, rfl, ?_⟩
    have haddr : ((0x3800 : UInt64) + UInt64.ofNat k).toNat = 0x3800 + k := by
      rw [UInt64.toNat_add, UInt64.toNat_ofNat']
      change (0x3800 + k % 2 ^ 64) % 2 ^ 64 = 0x3800 + k
      omega
    have hnew : ((0x3800 : UInt64) + UInt64.ofNat k).toNat / 4096 ≠ 5 := by omega
    have hidle : ((0x3800 : UInt64) + UInt64.ofNat k).toNat / 4096 ≠ 1 := by omega
    have hmem : (wordBytes 0)[k] ∈ List.replicate 8 0 :=
      (List.getElem_mem hk : (wordBytes 0)[k] ∈ wordBytes 0)
    exact ((if_neg hnew).trans (if_neg hidle)).trans (List.eq_of_mem_replicate hmem).symm
  stack :=
    { mapped := fun _ => flat_mapped _ _ _
      shared := fun _ _ _ _ => rfl
      apart := fun i hi s x hx hin => by
        have hstack : x.1 = 3 := flat_within (show 4096 * 3 ≤ (frameTop kernelTask).toNat by decide)
          (show (frameTop kernelTask).toNat + 48 ≤ 4096 * (3 + 1) by decide) (by decide) hx
        have hpages : ∀ i ∈ [1, idleId, 3], 
            (if i = 1 then 2 else if i = 3 then 5 else 1) ≠ 3 := by decide
        exact hpages i (hlive i hi) ((bootAddr_page hin).symm.trans hstack) }
  notNested := show kernelTask.rflags &&& nestedTaskFlag = 0 by decide

/-- The boot task makes task 3 and goes to sleep, and task 3 starts with the context that was made
for it. -/
theorem kernel_private_boot : ∃ es k', Run (Kernel.Step flat bootAddr) bootKernel es k' ∧
    Private.GoesOn es 3 (archOf newContext) ∧ k'.tm.currentTask = some 3 ∧ k'.cpu.toArch =
      archOf newContext := by
  obtain ⟨tm₁, tm', cpu, hwakeup, hsleep, hj, hids⟩ : ∃ tm₁ tm' cpu, threeTasks.wakeupById 3 (-1) =
    some (.kSuccess, tm₁) ∧
    tm₁.sleep 1 (savedContext threeCpu.toArch 0) = some (tm', cpu) ∧ tm'.currentTask = some 3 ∧
    tm₁.tasks.map (·.id) = [1, idleId, 3] := ⟨_, _, _, rfl, rfl, rfl, rfl⟩
  have hawake : Run (Kernel.Step flat bootAddr) bootKernel
      [.create 1 3 (archOf newContext) threeCpu.toArch, .stay]
      ⟨tm₁, threeCpu⟩ := .cons newTask_bootKernel (.single (.wakeup (by decide) hwakeup))
  have hcall : CallsSwitch flat bootAddr tm₁ threeCpu 1 3 0 := callsSwitch_threeTasks fun i =>
    live_of_ids hids
  have hcurrent : tm₁.currentTask = some 1 := by cases hwakeup; rfl
  obtain ⟨m', hrun⟩ :=
    (kernel_private shows_bootKernel hawake).2.2.sleep hcurrent (by decide) hsleep hj hcall
  have hsteps := hawake.snoc (.sleep hcurrent (by decide) hsleep hj hcall hrun)
  have hgoes : Private.GoesOn ([.create 1 3 (archOf newContext) threeCpu.toArch, .stay] ++
      [.switch 1 (returned threeCpu.toArch 0) 3]) 3 (archOf newContext) :=
    ⟨[], .create 1 3 (archOf newContext) threeCpu.toArch, [.stay],
      .switch 1 (returned threeCpu.toArch 0) 3, rfl, ⟨rfl, rfl⟩,
      by simp [Private.Event.actor], rfl⟩
  obtain ⟨hthree, harch⟩ := (kernel_private shows_bootKernel hsteps).2.1 3 _ hgoes
  exact ⟨_, _, hsteps, hgoes, hthree, harch⟩

end Moxia
