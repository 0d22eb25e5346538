import Moxia.Cpu.SaveContext

/-!
# Restoring contexts

`RestoreContext` pushes what `iret` is to load on the stack on which it is called, and then changes
the address space. The context is restored if and only if `iret` finds there what has been pushed
(`restoreContext_spec`): the stack must be in both address spaces. A stack of the kernel is; that of
an application is not.
-/

namespace Moxia

open Lib Item Asmfunc

variable {p : Platform} {m m' : Cpu} {c : TaskContext}

/-! ## The frame -/

/-- The stack pointer when the frame for `iret` is complete. -/
def frameTop (m : Arch) : UInt64 := m.gpr .rsp - UInt64.ofNat 40

/-- What `RestoreContext` is called with: `rdi` points to a context. The kernel's memory, where the
context is, is the same in both address spaces. -/
structure Restorable (p : Platform) (m : Cpu) (c : TaskContext) : Prop where
  image : Image p m.cr3 m.mem (m.gpr .rdi) c
  aligned : (m.gpr .rdi).toNat % 16 = 0
  shared : ∀ k, k < contextSize →
    p.frames.place c.cr3 (m.gpr .rdi + UInt64.ofNat k) =
      p.frames.place m.cr3 (m.gpr .rdi + UInt64.ofNat k)
  stack : p.frames.Mapped m.cr3 (frameTop m.toArch) 40
  apart : ∀ x, p.frames.Within m.cr3 (frameTop m.toArch) 40 x ∨
    p.frames.Within c.cr3 (frameTop m.toArch) 40 x →
    ¬ p.frames.Within m.cr3 (m.gpr .rdi) contextSize x

/-- The word at `a` can be read in the space `s`, and its first `n` bytes are those of `v`, provided
that `v` is written there in the current space before: a byte of it has the same place in both
spaces, or has the right value already. -/
def WordStays (p : Platform) (m : Cpu) (s a v : UInt64) (n : Nat) : Prop :=
  ∀ k, k < 8 → ∃ x, p.frames.place s (a + UInt64.ofNat k) = some x ∧
    (k < n → p.frames.place m.cr3 (a + UInt64.ofNat k) = some x ∨ m.mem x = byte v k)

/-- `iret` finds what `RestoreContext` has pushed. Of a selector, only two bytes matter. -/
structure FrameStays (p : Platform) (m : Cpu) (c : TaskContext) : Prop where
  notNested : m.rflags &&& nestedTaskFlag = 0
  rip : WordStays p m c.cr3 (frameTop m.toArch) c.rip 8
  cs : WordStays p m c.cr3 (frameTop m.toArch + 8) c.cs 2
  rflags : WordStays p m c.cr3 (frameTop m.toArch + 16) c.rflags 8
  rsp : WordStays p m c.cr3 (frameTop m.toArch + 24) c.rsp 8
  ss : WordStays p m c.cr3 (frameTop m.toArch + 32) c.ss 2

theorem WordStays.of_shared {s a v : UInt64} {n : Nat} (hmapped : p.frames.Mapped m.cr3 a 8)
    (h : ∀ k, k < 8 → p.frames.place s (a + UInt64.ofNat k) =
      p.frames.place m.cr3 (a + UInt64.ofNat k)) :
    WordStays p m s a v n := by
  intro k hk
  obtain ⟨x, hx⟩ := hmapped k hk
  exact ⟨x, (h k hk).trans hx, fun _ => .inl hx⟩

/-- On a stack that is in every address space, all contexts can be restored. -/
theorem frameStays_of_shared (h : Restorable p m c) (hnt : m.rflags &&& nestedTaskFlag = 0)
    (hstack : ∀ k, k < 40 →
      p.frames.place c.cr3 (frameTop m.toArch + UInt64.ofNat k) =
        p.frames.place m.cr3 (frameTop m.toArch + UInt64.ofNat k)) :
    FrameStays p m c := by
  have hword (off : Nat) (hoff : off + 8 ≤ 40) (v : UInt64) (n : Nat) :
      WordStays p m c.cr3 (frameTop m.toArch + UInt64.ofNat off) v n := by
    refine WordStays.of_shared (h.stack.mono hoff) fun k hk => ?_
    rw [← Frames.add_ofNat_add]
    exact hstack _ (by omega)
  refine ⟨hnt, ?_, hword 8 (by decide) _ _, hword 16 (by decide) _ _, hword 24 (by decide) _ _,
    hword 32 (by decide) _ _⟩
  have hzero := hword 0 (by decide) c.rip 8
  rwa [Frames.add_ofNat_zero] at hzero

/-- What a word is after `v` has been written there in the current space. -/
theorem wordStays_iff {u : Cpu} {a v : UInt64} {n : Nat} (hn : n ≤ 8)
    (hholds : p.frames.Holds m.cr3 u.mem a (wordBytes v))
    (hkept : ∀ x, p.frames.Within u.cr3 a 8 x → p.frames.Within m.cr3 a 8 x ∨ u.mem x = m.mem x) :
    WordStays p m u.cr3 a v n ↔ ∃ w, u.word p a = some w ∧ w.toNat % 256 ^ n =
      v.toNat % 256 ^ n := by
  have hwritten (k : Nat) (hk : k < 8) (x : Place)
      (hx : p.frames.place m.cr3 (a + UInt64.ofNat k) = some x) :
      u.mem x = byte v k := by
    have hk' : k < (wordBytes v).length := by rwa [length_wordBytes]
    obtain ⟨y, hy, hb⟩ := hholds k hk'
    rw [getElem_wordBytes hk'] at hb
    cases hx.symm.trans hy
    exact hb
  rw [Cpu.exists_word_iff hn, WordStays]
  refine forall_congr' fun k => imp_congr_right fun hk => exists_congr fun x =>
    and_congr_right fun hx =>
    imp_congr_right fun hkn => ?_
  rcases hkept x ⟨k, hk, hx⟩ with ⟨j, hj, hxj⟩ | hsame
  · have hkj : k = j := Frames.place_inj (by omega) (by omega) hx hxj
    subst hkj
    exact ⟨fun _ => hwritten k hk x hxj, fun _ => .inl hxj⟩
  · refine ⟨fun h => ?_, fun h => .inr (hsame ▸ h)⟩
    rcases h with hxm | hval
    · exact hwritten k hk x hxm
    · rwa [hsame]

/-! ## `RestoreContext` -/

/-- At `RestoreContext`. -/
def restoreView (m : Arch) (c : TaskContext) : View where
  toArch := m
  room := 40
  stack := []
  block := contextItems c
  ptr := some .rdi
  frame := none
  spAligned := none
  blockAligned := true

/-- Behind `mov cr3, rax`, where nothing is known about the stack. -/
def restoreRegsView (m : Arch) (c : TaskContext) : View where
  toArch := m
  room := 0
  stack := []
  block := contextItems c
  ptr := some .rdi
  frame := none
  spAligned := none
  blockAligned := true

def frameItems (c : TaskContext) : List Item :=
  [.word c.rip, .word c.cs, .word c.rflags, .word c.rsp, .word c.ss]

set_option maxRecDepth 8000 in
theorem run_restoreView (m : Arch) (c : TaskContext) :
    ∃ v, (restoreView m c).run p restoreFrame = some v ∧
    v.stack = frameItems c ∧ v.block = contextItems c ∧ v.room = 0 ∧ v.gpr .rax = c.cr3 ∧
      v.gpr .rdi = m.gpr .rdi ∧
    v.rflags = m.rflags ∧ v.fx = c.fxsaveArea :=
  ⟨_, rfl, rfl, rfl, rfl, rfl, rfl, rfl, rfl⟩

set_option maxRecDepth 8000 in
theorem run_restoreRegsView (m : Arch) (c : TaskContext) :
    ∃ v, (restoreRegsView m c).run p restoreRegs = some v ∧
    v.gpr .rsp = m.gpr .rsp ∧ (∀ r, r ≠ .rsp → v.gpr r = (archOf c).gpr r) ∧ v.rflags = m.rflags ∧
    v.seg .fs = (archOf c).seg .fs ∧ v.seg .gs = (archOf c).seg .gs ∧ v.fx = m.fx ∧
      v.block = contextItems c := by
  refine ⟨_, rfl, rfl, fun r hr => ?_, rfl, rfl, rfl, rfl, rfl⟩
  cases r with
  | rsp => exact absurd rfl hr
  | _ => rfl

theorem shows_restoreView (h : Restorable p m c) :
    Shows p (frameTop m.toArch) 40 (m.gpr .rdi) contextSize
    (restoreView m.toArch c) m.mem where
  rsp := (UInt64.sub_add_cancel ..).symm
  size_eq := rfl
  size_le := by decide
  len_eq := sizes_contextItems c
  len_le := by decide
  room := h.stack
  stack := trivial
  block := h.image
  apart x hx := h.apart x (.inl hx)
  ptr r hr := by
    cases hr
    exact ⟨by decide, rfl⟩
  frame n hn := by cases hn
  spAligned b hb := by cases hb
  blockAligned _ := h.aligned

theorem shows_restoreRegsView {u : Cpu} (haligned : (u.gpr .rdi).toNat % 16 = 0)
    (himage : Image p u.cr3 u.mem (u.gpr .rdi) c) : Shows p (u.gpr .rsp) 0 (u.gpr .rdi) contextSize
    (restoreRegsView u.toArch c) u.mem where
  rsp := (Frames.add_ofNat_zero _).symm
  size_eq := rfl
  size_le := by decide
  len_eq := sizes_contextItems c
  len_le := by decide
  room k hk := absurd hk (Nat.not_lt_zero _)
  stack := trivial
  block := himage
  apart x hx := by
    obtain ⟨k, hk, -⟩ := hx
    exact absurd hk (Nat.not_lt_zero _)
  ptr r hr := by
    cases hr
    exact ⟨by decide, rfl⟩
  frame n hn := by cases hn
  spAligned b hb := by cases hb
  blockAligned _ := haligned

theorem run_restoreContext (h : Restorable p m c) : ∃ u : Cpu, m.run p restoreContext = u.iret p ∧
    u.cr3 = c.cr3 ∧
    u.gpr .rsp = frameTop m.toArch ∧ (∀ r, r ≠ .rsp → u.gpr r = (archOf c).gpr r) ∧
      u.rflags = m.rflags ∧
    u.seg .fs = (archOf c).seg .fs ∧ u.seg .gs = (archOf c).seg .gs ∧ u.fx = c.fxsaveArea ∧
    Block p.frames m.cr3 u.mem (frameTop m.toArch) (frameItems c) ∧
    (∀ x, p.frames.Within c.cr3 (frameTop m.toArch) 40 x →
      p.frames.Within m.cr3 (frameTop m.toArch) 40 x ∨ u.mem x = m.mem x) ∧
    Image p c.cr3 u.mem (m.gpr .rdi) c ∧
    ∀ x, ¬ p.frames.Within m.cr3 (frameTop m.toArch) 40 x →
      ¬ p.frames.Within m.cr3 (m.gpr .rdi) contextSize x →
      u.mem x = m.mem x := by
  obtain ⟨v, hrun, hstack, hblock, hroom, hrax, hrdi, hrflags, hfx⟩ :=
    run_restoreView (p := p) m.toArch c
  obtain ⟨mem₁, hcpu, hshows, hkept, hcr3⟩ := (shows_restoreView h).run hrun
  have hcr3' : v.cr3 = m.cr3 := hcr3
  have hrsp : v.gpr .rsp = frameTop m.toArch := by
    have hshown := hshows.rsp
    rwa [hroom, Frames.add_ofNat_zero] at hshown
  -- behind `mov cr3, rax`
  obtain ⟨u₁, hload, hmem, hspace, hregs, hrflags₁, hfx₁⟩ : ∃ u₁ : Cpu,
      (Cpu.mk v.toArch mem₁).run p [.movToCR3 .rax] = some u₁ ∧
      u₁.mem = mem₁ ∧ u₁.cr3 = c.cr3 ∧ u₁.gpr = v.gpr ∧ u₁.rflags = m.rflags ∧
        u₁.fx = c.fxsaveArea :=
    ⟨_, rfl, rfl, hrax, rfl, hrflags, hfx⟩
  have himage₁ : Image p m.cr3 mem₁ (m.gpr .rdi) c := by
    have hshown := hshows.block
    rwa [hblock, hcr3'] at hshown
  have himage : Image p u₁.cr3 u₁.mem (u₁.gpr .rdi) c := by
    rw [hspace, hmem, hregs, hrdi]
    exact himage₁.shared fun k hk => h.shared k (sizes_contextItems c ▸ hk)
  have haligned : (u₁.gpr .rdi).toNat % 16 = 0 := by
    rw [hregs, hrdi]
    exact h.aligned
  obtain ⟨w, hview, hwsp, hgpr, hwflags, hfs, hgs, hwfx, hwblock⟩ :=
    run_restoreRegsView (p := p) u₁.toArch c
  obtain ⟨mem₂, hcpu₂, hshows₂, hkept₂, hcr3₂⟩ := (shows_restoreRegsView haligned himage).run hview
  have hcontext (x : Place) (hin : ¬ p.frames.Within m.cr3 (m.gpr .rdi) contextSize x) :
    mem₂ x = mem₁ x := by
    refine (hkept₂ x (fun hzero => ?_) fun hx => hin ?_).trans (congrFun hmem x)
    · obtain ⟨k, hk, -⟩ := hzero
      exact absurd hk (Nat.not_lt_zero _)
    · obtain ⟨k, hk, hxk⟩ := hx
      have hxk' : p.frames.place u₁.cr3 (u₁.gpr .rdi + UInt64.ofNat k) = some x := hxk
      rw [hspace, hregs, hrdi, h.shared k hk] at hxk'
      exact ⟨k, hk, hxk'⟩
  have hsame (x : Place) (hx : p.frames.Within m.cr3 (frameTop m.toArch) 40 x ∨
      p.frames.Within c.cr3 (frameTop m.toArch) 40 x) :
      mem₂ x = mem₁ x := hcontext x (h.apart x hx)
  refine ⟨Cpu.mk w.toArch mem₂, ?_, ?_, ?_, hgpr, ?_, hfs, hgs, ?_, ?_, fun x hx => ?_, ?_,
    fun x hframe hin => (hcontext x hin).trans (hkept x hframe hin)⟩
  · have hcpu₁ : m.run p restoreFrame = some (Cpu.mk v.toArch mem₁) := hcpu
    have hcpu₂' : u₁.run p restoreRegs = some (Cpu.mk w.toArch mem₂) := hcpu₂
    rw [restoreContext, Cpu.run_append, Cpu.run_append, Cpu.run_append, hcpu₁, Option.bind_some,
      hload, Option.bind_some, hcpu₂',
      Option.bind_some, Cpu.run]
    exact Option.bind_fun_some _
  · exact hcr3₂.trans hspace
  · exact hwsp.trans ((congrFun hregs .rsp).trans hrsp)
  · exact hwflags.trans hrflags₁
  · exact hwfx.trans hfx₁
  · have hframe := hshows.stack
    rw [hstack, hroom, Frames.add_ofNat_zero, hcr3'] at hframe
    exact hframe.congr fun x hx => hsame x (.inl hx)
  · by_cases hin : p.frames.Within m.cr3 (frameTop m.toArch) 40 x
    · exact .inl hin
    · exact .inr ((hsame x (.inr hx)).trans (hkept x hin (h.apart x (.inr hx))))
  · have hblock₂ := hshows₂.block
    have hspace₂ : w.cr3 = c.cr3 := hcr3₂.trans hspace
    rwa [hwblock, hspace₂, hregs, hrdi] at hblock₂

theorem word_mod_iff {v w : UInt64} : w.toNat % 256 ^ 8 = v.toNat % 256 ^ 8 ↔ w = v := by
  rw [Nat.mod_eq_of_lt (show w.toNat < 256 ^ 8 from w.toNat_lt),
    Nat.mod_eq_of_lt (show v.toNat < 256 ^ 8 from v.toNat_lt),
    UInt64.toNat_inj]

theorem selector_mod_iff {v w : UInt64} : w.toNat % 256 ^ 2 = v.toNat % 256 ^ 2 ↔
    w.toUInt16 = v.toUInt16 := by
  rw [← UInt16.toNat_inj, UInt64.toNat_toUInt16, UInt64.toNat_toUInt16]
  rfl

theorem loaded_eq_archOf {u : Cpu} (hspace : u.cr3 = c.cr3)
    (hgpr : ∀ r, r ≠ .rsp → u.gpr r = (archOf c).gpr r)
    (hfs : u.seg .fs = (archOf c).seg .fs) (hgs : u.seg .gs = (archOf c).seg .gs)
    (hfx : u.fx = c.fxsaveArea)
    {rip cs rflags rsp ss : UInt64} : (u.loaded rip cs rflags rsp ss).toArch = archOf c ↔
      rip = c.rip ∧ cs.toUInt16 = c.cs.toUInt16 ∧ rflags = c.rflags ∧ rsp = c.rsp ∧ ss.toUInt16 =
        c.ss.toUInt16 := by
  constructor
  · intro h
    exact ⟨congrArg Arch.rip h, congrArg (fun a : Arch => a.seg .cs) h, congrArg Arch.rflags h,
      congrArg (fun a : Arch => a.gpr .rsp) h,
      congrArg (fun a : Arch => a.seg .ss) h⟩
  · rintro ⟨rfl, hcs, rfl, rfl, hss⟩
    have hgpr' : assign u.gpr .rsp c.rsp = (archOf c).gpr := by
      funext r
      by_cases hr : r = .rsp
      · rw [hr, assign_self]
        rfl
      · rw [assign_of_ne hr, hgpr r hr]
    have hseg : assign (assign u.seg .cs cs.toUInt16) .ss ss.toUInt16 = (archOf c).seg := by
      rw [hcs, hss]
      funext g
      cases g with
      | cs => rfl
      | ss => rfl
      | fs => exact hfs
      | gs => exact hgs
    rw [Cpu.loaded, Cpu.setReg, hgpr', hseg, hspace, hfx]
    rfl

/-- `RestoreContext` restores a context if and only if what it pushes is found by `iret`. -/
theorem restoreContext_spec (h : Restorable p m c) :
    (∃ m', m.run p restoreContext = some m' ∧ m'.toArch = archOf c) ↔ FrameStays p m c := by
  obtain ⟨u, hrun, hspace, hrsp, hgpr, hrflags, hfs, hgs, hfx, hframe, hkept, -, -⟩ :=
    run_restoreContext h
  have hword (off : Nat) (v : UInt64) (n : Nat) (hn : n ≤ 8) (hoff : off + 8 ≤ 40)
      (hitem : itemAt (frameItems c) off = some (.word v)) : WordStays p m c.cr3
        (frameTop m.toArch + UInt64.ofNat off) v n ↔
        ∃ w, u.word p (u.gpr .rsp + UInt64.ofNat off) = some w ∧ w.toNat % 256 ^ n =
          v.toNat % 256 ^ n := by
    rw [← hspace, hrsp]
    refine wordStays_iff hn (hframe.itemAt hitem) fun x hx => ?_
    rw [hspace] at hx
    refine (hkept x (hx.mono hoff)).imp_left fun hin => ?_
    obtain ⟨k, hk, hxk⟩ := hx
    obtain ⟨j, hj, hxj⟩ := hin
    rw [← Frames.add_ofNat_add] at hxk
    have hjk : j = off + k := Frames.place_inj (by omega) (by omega) hxj hxk
    rw [hjk, Frames.add_ofNat_add] at hxj
    exact ⟨k, hk, hxj⟩
  have hrip := hword 0 c.rip 8 (by decide) (by decide) rfl
  have hcs := hword 8 c.cs 2 (by decide) (by decide) rfl
  have hflags := hword 16 c.rflags 8 (by decide) (by decide) rfl
  have hsp := hword 24 c.rsp 8 (by decide) (by decide) rfl
  have hss := hword 32 c.ss 2 (by decide) (by decide) rfl
  rw [Frames.add_ofNat_zero, Frames.add_ofNat_zero] at hrip
  simp only [word_mod_iff, selector_mod_iff] at hrip hcs hflags hsp hss
  constructor
  · rintro ⟨m', hm', harch⟩
    rw [hrun] at hm'
    by_cases hnt : u.rflags &&& nestedTaskFlag = 0
    · rw [Cpu.iret_eq hnt] at hm'
      obtain ⟨rip, hrip', hm'⟩ := Option.bind_eq_some_iff.1 hm'
      obtain ⟨cs, hcs', hm'⟩ := Option.bind_eq_some_iff.1 hm'
      obtain ⟨rflags, hflags', hm'⟩ := Option.bind_eq_some_iff.1 hm'
      obtain ⟨rsp, hsp', hm'⟩ := Option.bind_eq_some_iff.1 hm'
      obtain ⟨ss, hss', rfl⟩ := Option.map_eq_some_iff.1 hm'
      obtain ⟨h₁, h₂, h₃, h₄, h₅⟩ := (loaded_eq_archOf hspace hgpr hfs hgs hfx).1 harch
      exact ⟨hrflags ▸ hnt, hrip.2 ⟨_, hrip', h₁⟩, hcs.2 ⟨_, hcs', h₂⟩, hflags.2 ⟨_, hflags', h₃⟩,
        hsp.2 ⟨_, hsp', h₄⟩,
        hss.2 ⟨_, hss', h₅⟩⟩
    · rw [Cpu.iret, if_pos hnt] at hm'
      cases hm'
  · rintro ⟨hnt, h₁, h₂, h₃, h₄, h₅⟩
    obtain ⟨rip, hrip', hv₁⟩ := hrip.1 h₁
    obtain ⟨cs, hcs', hv₂⟩ := hcs.1 h₂
    obtain ⟨rflags, hflags', hv₃⟩ := hflags.1 h₃
    obtain ⟨rsp, hsp', hv₄⟩ := hsp.1 h₄
    obtain ⟨ss, hss', hv₅⟩ := hss.1 h₅
    refine ⟨u.loaded rip cs rflags rsp ss, ?_, (loaded_eq_archOf hspace hgpr hfs hgs hfx).2
      ⟨hv₁, hv₂, hv₃, hv₄, hv₅⟩⟩
    have hwords : u.word p (u.gpr .rsp + 8) = some cs ∧ u.word p (u.gpr .rsp + 16) = some rflags ∧
        u.word p (u.gpr .rsp + 24) = some rsp ∧ u.word p (u.gpr .rsp + 32) = some ss :=
          ⟨hcs', hflags', hsp', hss'⟩
    rw [hrun, Cpu.iret_eq (hrflags ▸ hnt), hrip', hwords.1, hwords.2.1, hwords.2.2.1, hwords.2.2.2]
    rfl

end Moxia
