import Moxia.Cpu.Contexts

/-!
# System calls

`SyscallEntry` runs on the stack of the application, and calls what is in `syscall_table` at the
lowest 31 bits of `rax`. The number is compared with that of `exit` in all 32 bits, after the
handler has returned, and nobody compares it with the size of the table. `syscallEntry_iff` says for
which system calls control goes where it should.
-/

namespace Moxia

open Lib Item Asmfunc

variable {k : Kernel} {m h r : Cpu} {handlers : Fin 4 → UInt64}

/-- Where `syscall_table` has the handler. -/
def tableEntry (k : Kernel) (i : Fin 4) : UInt64 := k.syscallTable + 8 * UInt64.ofNat i.val

/-- The index of the table. -/
def syscallIndex (m : Arch) : UInt64 := lowHalf (m.gpr .rax) &&& 0x7fffffff

/-- What `SyscallEntry` pushes, the last word first. -/
def syscallItems (m : Arch) : List Item :=
  [.word (m.gpr .rax), .word (m.gpr .r11), .word (m.gpr .rcx), .word (m.gpr .rbp)]

def syscallFrame (m : Arch) : UInt64 := m.gpr .rsp - UInt64.ofNat 32

/-- The stack pointer when the handler is called. -/
def syscallStack (m : Arch) : UInt64 := syscallFrame m &&& 0xfffffffffffffff0

/-! ## Before the call -/

def syscallView (m : Arch) : View where
  toArch := m
  room := 32
  stack := []
  block := []
  ptr := none
  frame := none
  spAligned := none
  blockAligned := false

theorem run_syscallView (m : Arch) :
    ∃ v, (syscallView m).run k.toPlatform (syscallEntryCall.take 4) = some v ∧
    v.stack = syscallItems m ∧
    v.room = 0 ∧ v.gpr .rax = m.gpr .rax ∧ v.gpr .rsp = m.gpr .rsp - 8 - 8 - 8 - 8 :=
  ⟨_, rfl, rfl, rfl, rfl, rfl⟩

theorem shows_syscallView (hstack : k.frames.Mapped m.cr3 (syscallFrame m.toArch) 32) :
    Shows k.toPlatform (syscallFrame m.toArch) 32 0 0 (syscallView m.toArch) m.mem where
  rsp := (UInt64.sub_add_cancel ..).symm
  size_eq := rfl
  size_le := by decide
  len_eq := rfl
  len_le := by decide
  room := hstack
  stack := trivial
  block := trivial
  apart _ _ hin := by
    obtain ⟨j, hj, -⟩ := hin
    exact absurd hj (Nat.not_lt_zero _)
  ptr r hr := by cases hr
  frame n hn := by cases hn
  spAligned b hb := by cases hb
  blockAligned hf := by cases hf

theorem syscallEntryCall_spec (hstack : k.frames.Mapped m.cr3 (syscallFrame m.toArch) 32) :
    ∃ h, m.run k.toPlatform syscallEntryCall = some h ∧ h.cr3 = m.cr3 ∧ h.gpr .rax =
      syscallIndex m.toArch ∧
      h.gpr .rbp = syscallFrame m.toArch ∧ h.gpr .rsp = syscallStack m.toArch ∧
      Block k.frames m.cr3 h.mem (syscallFrame m.toArch) (syscallItems m.toArch) ∧
      ∀ x, ¬ k.frames.Within m.cr3 (syscallFrame m.toArch) 32 x → h.mem x = m.mem x := by
  obtain ⟨v, hview, hitems, hroom, hrax, hrsp⟩ := run_syscallView (k := k) m.toArch
  obtain ⟨mem', hcpu, hshows, hkept, hcr3⟩ := (shows_syscallView hstack).run hview
  have hcpu' : m.run k.toPlatform (syscallEntryCall.take 4) = some (Cpu.mk v.toArch mem') := hcpu
  have hcr3' : v.cr3 = m.cr3 := hcr3
  have hframe : v.gpr .rsp = syscallFrame m.toArch := by
    have hshown := hshows.rsp
    rwa [hroom, Frames.add_ofNat_zero] at hshown
  obtain ⟨h, hrest, hspace, hindex, hbp, hsp, hmem⟩ : ∃ h, (Cpu.mk v.toArch mem').run k.toPlatform
      (syscallEntryCall.drop 4) = some h ∧
      h.cr3 = v.cr3 ∧ h.gpr .rax = lowHalf (v.gpr .rax) &&& 0x7fffffff ∧ h.gpr .rbp = v.gpr .rsp ∧
      h.gpr .rsp = v.gpr .rsp &&& 0xfffffffffffffff0 ∧ h.mem = mem' :=
        ⟨_, rfl, rfl, rfl, rfl, rfl, rfl⟩
  refine ⟨h, ?_, hspace.trans hcr3', ?_, hbp.trans hframe, ?_, ?_, fun x hx => ?_⟩
  · rw [← List.take_append_drop 4 syscallEntryCall, Cpu.run_append, hcpu', Option.bind_some, hrest]
  · rw [hindex, hrax, syscallIndex]
  · rw [hsp, hframe, syscallStack]
  · have hstack' := hshows.stack
    rwa [hitems, hroom, Frames.add_ofNat_zero, hcr3', ← hmem] at hstack'
  · rw [hmem]
    refine hkept x hx fun hin => ?_
    obtain ⟨j, hj, -⟩ := hin
    exact absurd hj (Nat.not_lt_zero _)

theorem push_eq_some {v : UInt64} {m' : Cpu} (hpush : m.push k.toPlatform v = some m') :
    k.frames.Mapped m.cr3 (m.gpr .rsp - 8) 8 ∧ m'.cr3 = m.cr3 ∧ m'.gpr .rsp = m.gpr .rsp - 8 := by
  obtain ⟨w, hw, rfl⟩ := Option.map_eq_some_iff.1 hpush
  obtain ⟨mem', hmem, rfl⟩ := Option.map_eq_some_iff.1 hw
  have hmapped := Frames.writeBytes_mapped hmem
  rw [length_wordBytes] at hmapped
  exact ⟨hmapped, rfl, assign_self m.gpr .rsp _⟩

/-- A fault of one of the pushes cannot be avoided otherwise. -/
theorem mapped_of_syscallEntryCall (hrun : m.run k.toPlatform syscallEntryCall = some h) :
    k.frames.Mapped m.cr3 (syscallFrame m.toArch) 32 := by
  obtain ⟨m₁, hpush₁, hrun⟩ := Option.bind_eq_some_iff.1 hrun
  obtain ⟨m₂, hpush₂, hrun⟩ := Option.bind_eq_some_iff.1 hrun
  obtain ⟨m₃, hpush₃, hrun⟩ := Option.bind_eq_some_iff.1 hrun
  obtain ⟨m₄, hpush₄, -⟩ := Option.bind_eq_some_iff.1 hrun
  obtain ⟨h₁, hc₁, hs₁⟩ := push_eq_some hpush₁
  obtain ⟨h₂, hc₂, hs₂⟩ := push_eq_some hpush₂
  obtain ⟨h₃, hc₃, hs₃⟩ := push_eq_some hpush₃
  obtain ⟨h₄, -, -⟩ := push_eq_some hpush₄
  rw [hs₁, hc₁] at h₂
  rw [hs₂, hs₁, hc₂, hc₁] at h₃
  rw [hs₃, hs₂, hs₁, hc₃, hc₂, hc₁] at h₄
  have hoff (j : UInt64) (n : Nat) (hj : m.gpr .rsp - 32 + UInt64.ofNat n = j)
      (hmap : k.frames.Mapped m.cr3 j 8) (i : Nat)
      (hi : n ≤ i) (hin : i < n + 8) : ∃ x,
        k.frames.place m.cr3 (syscallFrame m.toArch + UInt64.ofNat i) = some x := by
    obtain ⟨x, hx⟩ := hmap (i - n) (by omega)
    rw [← hj, ← Frames.add_ofNat_add, Nat.add_sub_cancel' hi] at hx
    exact ⟨x, hx⟩
  intro i hi
  rcases Nat.lt_or_ge i 8 with h8 | h8
  · exact hoff _ 0 (by change m.gpr .rsp - 32 + 0 = _; grind) h₄ i (Nat.zero_le _) (by omega)
  rcases Nat.lt_or_ge i 16 with h16 | h16
  · exact hoff _ 8 (by change m.gpr .rsp - 32 + 8 = _; grind) h₃ i h8 (by omega)
  rcases Nat.lt_or_ge i 24 with h24 | h24
  · exact hoff _ 16 (by change m.gpr .rsp - 32 + 16 = _; grind) h₂ i h16 (by omega)
  · exact hoff _ 24 (by change m.gpr .rsp - 32 + 24 = _; grind) h₁ i h24 (by omega)

/-! ## Behind the call -/

/-- The words that are still on the stack decide how the system call ends. -/
theorem syscallReturn_spec (hstack : k.frames.Mapped r.cr3 (r.gpr .rbp) 32) :
    ∃ number r11 rcx rbp, r.word k.toPlatform (r.gpr .rbp) = some number ∧
      r.word k.toPlatform (r.gpr .rbp + 8) = some r11 ∧
      r.word k.toPlatform (r.gpr .rbp + 16) = some rcx ∧ r.word k.toPlatform (r.gpr .rbp + 24) =
        some rbp ∧
      (lowHalf number = 0x80000003 → ∃ e, syscallReturn k r = some (.exit e) ∧
        e.gpr .rax = r.gpr .rax ∧ e.gpr .rdx = r.gpr .rdx) ∧
      (lowHalf number ≠ 0x80000003 → ∃ e, syscallReturn k r = some (.sysret e) ∧
        e.gpr .rax = r.gpr .rax ∧ e.gpr .rdx = r.gpr .rdx ∧
        e.gpr .rsp = r.gpr .rbp + 32 ∧ e.gpr .r11 = r11 ∧ e.gpr .rcx = rcx ∧ e.gpr .rbp = rbp) := by
  obtain ⟨number, hnumber⟩ :=
    Cpu.exists_word (p := k.toPlatform) (hstack.mono (i := 0) (m := 8) (by decide))
  obtain ⟨r11, hr11⟩ :=
    Cpu.exists_word (p := k.toPlatform) (hstack.mono (i := 8) (m := 8) (by decide))
  obtain ⟨rcx, hrcx⟩ :=
    Cpu.exists_word (p := k.toPlatform) (hstack.mono (i := 16) (m := 8) (by decide))
  obtain ⟨rbp, hrbp⟩ :=
    Cpu.exists_word (p := k.toPlatform) (hstack.mono (i := 24) (m := 8) (by decide))
  rw [Frames.add_ofNat_zero] at hnumber
  refine ⟨number, r11, rcx, rbp, hnumber, hr11, hrcx, hrbp, ?_⟩
  obtain ⟨u, hrun, hrsi, hsp, hrax, hrdx, hspace, hmem⟩ : ∃ u,
      r.run k.toPlatform syscallEntryReturn = some u ∧ u.gpr .rsi = number ∧
      u.gpr .rsp = r.gpr .rbp + 8 ∧ u.gpr .rax = r.gpr .rax ∧ u.gpr .rdx = r.gpr .rdx ∧
        u.cr3 = r.cr3 ∧ u.mem = r.mem := by
    have hpop := Cpu.run_pop (p := k.toPlatform) (m := r.setReg .rsp (r.gpr .rbp)) (r := .rsi)
      (l := []) hnumber
    exact ⟨_, hpop, rfl, rfl, rfl, rfl, rfl, rfl⟩
  have hreturn : syscallReturn k r = (if lowHalf number = 0x80000003 then
      some (.exit (u.setFlags k.toPlatform (lowHalf number - 0x80000003)))
    else ((u.setFlags k.toPlatform (lowHalf number - 0x80000003)).run k.toPlatform
      syscallEntrySysret).map .sysret) := by
    rw [syscallReturn, hrun, ← hrsi]
    rfl
  constructor
  · intro hexit
    rw [hreturn, if_pos hexit]
    exact ⟨_, rfl, hrax, hrdx⟩
  · intro hexit
    rw [hreturn, if_neg hexit]
    obtain ⟨t, ht⟩ : ∃ t, t = u.setFlags k.toPlatform (lowHalf number - 0x80000003) := ⟨_, rfl⟩
    have htsp : t.gpr .rsp = r.gpr .rbp + 8 := by rw [ht, ← hsp]; rfl
    have hword (a : UInt64) : t.word k.toPlatform a = r.word k.toPlatform a := by
      rw [Cpu.word, Cpu.read, Cpu.word, Cpu.read, ← hspace, ← hmem, ht]
      rfl
    have hoff (i j n : UInt64) (h : i + j = n) : r.gpr .rbp + i + j = r.gpr .rbp + n := by
      rw [UInt64.add_assoc, h]
    have hpop₁ :=
      Cpu.run_pop (p := k.toPlatform) (m := t) (r := .r11) (l := [.pop .rcx, .pop .rbp]) (v := r11)
      (by rw [htsp, hword]; exact hr11)
    have hpop₂ :=
      Cpu.run_pop (p := k.toPlatform) (m := (t.setReg .rsp (t.gpr .rsp + 8)).setReg .r11 r11)
        (r := .rcx)
      (l := [.pop .rbp]) (v := rcx) (by
        change t.word k.toPlatform (t.gpr .rsp + 8) = some rcx
        rw [htsp, hoff 8 8 16 rfl, hword]
        exact hrcx)
    have hpop₃ := Cpu.run_pop (p := k.toPlatform)
      (m := (((t.setReg .rsp (t.gpr .rsp + 8)).setReg .r11 r11).setReg .rsp
        (t.gpr .rsp + 8 + 8)).setReg .rcx rcx) (r := .rbp)
      (l := []) (v := rbp) (by
        change t.word k.toPlatform (t.gpr .rsp + 8 + 8) = some rbp
        rw [htsp, hoff 8 8 16 rfl, hoff 16 8 24 rfl, hword]
        exact hrbp)
    obtain ⟨e, he, hersp, her11, hercx, herbp, herax, herdx⟩ : ∃ e,
        t.run k.toPlatform syscallEntrySysret = some e ∧
        e.gpr .rsp = t.gpr .rsp + 8 + 8 + 8 ∧ e.gpr .r11 = r11 ∧ e.gpr .rcx = rcx ∧ e.gpr .rbp =
          rbp ∧ e.gpr .rax = t.gpr .rax ∧
        e.gpr .rdx = t.gpr .rdx :=
      ⟨_, hpop₁.trans (hpop₂.trans hpop₃), rfl, rfl, rfl, rfl, rfl, rfl⟩
    rw [← ht, he]
    refine ⟨e, rfl, herax.trans ?_, herdx.trans ?_, hersp.trans ?_, her11, hercx, herbp⟩
    · rw [ht, ← hrax]
      rfl
    · rw [ht, ← hrdx]
      rfl
    · rw [htsp, hoff 8 8 16 rfl, hoff 16 8 24 rfl, hoff 24 8 32 rfl]

/-! ## The call -/

theorem align_add (a : UInt64) : (a &&& 0xfffffffffffffff0) + (a &&& 0xf) = a := by
  have hmask : ∀ n, n < 64 → (0xfffffffffffffff0 : UInt64).toBitVec.getLsbD n =
    !(0xf : UInt64).toBitVec.getLsbD n := by decide
  have hbit (n : Nat) (hn : n < 64) : (0xfffffffffffffff0 : UInt64).toBitVec[n] =
    !(0xf : UInt64).toBitVec[n] := hmask n hn
  have hapart : (a &&& 0xfffffffffffffff0).toBitVec &&& (a &&& 0xf).toBitVec = 0#64 := by
    refine BitVec.eq_of_getElem_eq fun n hn => ?_
    rw [BitVec.getElem_and, UInt64.toBitVec_and, UInt64.toBitVec_and, BitVec.getElem_and,
      BitVec.getElem_and, hbit n hn,
      BitVec.getElem_zero]
    cases a.toBitVec[n] <;> cases (0xf : UInt64).toBitVec[n] <;> rfl
  rw [← UInt64.toBitVec_inj, UInt64.toBitVec_add, BitVec.add_eq_or_of_and_eq_zero _ _ hapart]
  refine BitVec.eq_of_getElem_eq fun n hn => ?_
  rw [BitVec.getElem_or, UInt64.toBitVec_and, UInt64.toBitVec_and, BitVec.getElem_and,
    BitVec.getElem_and, hbit n hn]
  cases a.toBitVec[n] <;> cases (0xf : UInt64).toBitVec[n] <;> rfl

theorem returnSlot_apart {x : Place} (m : Arch)
    (hx : k.frames.Within m.cr3 (syscallStack m - 8) 8 x) :
    ¬ k.frames.Within m.cr3 (syscallFrame m) 32 x := by
  have hlt : (syscallFrame m &&& 0xf).toNat < 16 := by
    rw [UInt64.toNat_and]
    exact Nat.lt_succ_of_le Nat.and_le_right
  have hframe : syscallFrame m = syscallStack m - 8 +
    UInt64.ofNat (8 + (syscallFrame m &&& 0xf).toNat) := by
    rw [Frames.add_ofNat_add, UInt64.ofNat_toNat]
    have hsub : syscallStack m - 8 + UInt64.ofNat 8 = syscallStack m := UInt64.sub_add_cancel ..
    rw [hsub]
    exact (align_add _).symm
  rw [hframe]
  rw [← Frames.add_ofNat_zero (syscallStack m - 8)] at hx
  exact hx.disjoint (by omega) (by omega) (.inl (by omega))

/-- The pushed words do not change entry `i` of the table. -/
def EntryStays (k : Kernel) (m : Cpu) (handlers : Fin 4 → UInt64) (i : Fin 4) : Prop :=
  ∀ j, j < 8 → ∀ n, n < 32 → ∀ x, k.frames.place m.cr3 (tableEntry k i + UInt64.ofNat j) = some x →
    k.frames.place m.cr3 (syscallFrame m.toArch + UInt64.ofNat n) = some x →
      (bytes (syscallItems m.toArch)).getD n 0 = byte (handlers i) j

theorem entryStays_iff {u : Cpu} {i : Fin 4}
    (htable : k.frames.Holds m.cr3 m.mem (tableEntry k i) (wordBytes (handlers i)))
    (hspace : u.cr3 = m.cr3)
    (hframe : Block k.frames m.cr3 u.mem (syscallFrame m.toArch) (syscallItems m.toArch))
    (hkept : ∀ x, ¬ k.frames.Within m.cr3 (syscallFrame m.toArch) 32 x → u.mem x = m.mem x) :
    u.word k.toPlatform (tableEntry k i) = some (handlers i) ↔ EntryStays k m handlers i := by
  have hbytes := hframe.holds (fun n hn => by simp [syscallItems] at hn)
  have hlen : (bytes (syscallItems m.toArch)).length = 32 := length_bytes _
  have hpushed (n : Nat) (hn : n < 32) (x : Place)
      (hx : k.frames.place m.cr3 (syscallFrame m.toArch + UInt64.ofNat n) = some x) :
      u.mem x = (bytes (syscallItems m.toArch)).getD n 0 := by
    obtain ⟨y, hy, hb⟩ := hbytes n (by omega)
    cases hx.symm.trans hy
    rw [hb, List.getD_eq_getElem]
  rw [Cpu.word_eq_some, hspace]
  constructor
  · intro hentry j hj n hn x hxj hxn
    have hj' : j < (wordBytes (handlers i)).length := by rwa [length_wordBytes]
    obtain ⟨y, hy, hb⟩ := hentry j hj'
    rw [getElem_wordBytes hj'] at hb
    cases hxj.symm.trans hy
    exact (hpushed n hn x hxn).symm.trans hb
  · intro hstays j hj
    have hj' : j < 8 := by rwa [length_wordBytes] at hj
    obtain ⟨x, hx, hb⟩ := htable j hj
    refine ⟨x, hx, ?_⟩
    by_cases hin : k.frames.Within m.cr3 (syscallFrame m.toArch) 32 x
    · obtain ⟨n, hn, hxn⟩ := hin
      rw [hpushed n hn x hxn, hstays j hj' n hn x hx hxn, getElem_wordBytes]
    · rw [hkept x hin, hb]

/-- The call goes through entry `i` of the table, and its handler starts in `h`. -/
def Calls (k : Kernel) (m : Cpu) (handlers : Fin 4 → UInt64) (i : Fin 4) (h : Cpu) : Prop :=
  ∃ u, m.run k.toPlatform syscallEntryCall = some u ∧ u.gpr .rax = UInt64.ofNat i.val ∧
    syscallTarget k u = some (handlers i, h)

theorem syscallTarget_eq_some {u : Cpu} {target : UInt64} : syscallTarget k u = some (target, h) ↔
    u.word k.toPlatform (k.syscallTable + 8 * u.gpr .rax) = some target ∧
      u.push k.toPlatform k.returnAddress = some h := by
  rw [syscallTarget]
  constructor
  · intro hcall
    obtain ⟨t, ht, hcall⟩ := Option.bind_eq_some_iff.1 hcall
    obtain ⟨v, hv, hcall⟩ := Option.bind_eq_some_iff.1 hcall
    cases hcall
    exact ⟨ht, hv⟩
  · rintro ⟨ht, hv⟩
    rw [ht, hv]
    rfl

theorem push_spec (v : UInt64) (hmapped : k.frames.Mapped m.cr3 (m.gpr .rsp - 8) 8) :
    ∃ m', m.push k.toPlatform v = some m' ∧ m'.cr3 = m.cr3 ∧
      m'.gpr = assign m.gpr .rsp (m.gpr .rsp - 8) ∧
      ∀ x, ¬ k.frames.Within m.cr3 (m.gpr .rsp - 8) 8 x → m'.mem x = m.mem x := by
  obtain ⟨mem', hwrite, -, hkept⟩ :=
    Frames.writeBytes_spec (l := wordBytes v) m.mem (by rw [length_wordBytes]; decide)
    (by rwa [length_wordBytes])
  rw [length_wordBytes] at hkept
  refine ⟨{ m.setReg .rsp (m.gpr .rsp - 8) with mem := mem' }, ?_, rfl, rfl, hkept⟩
  rw [Cpu.push, Cpu.write, hwrite]
  rfl

/-- What there must be on the application's stack, and in `rax`. -/
structure ReachesHandler (k : Kernel) (m : Cpu) (handlers : Fin 4 → UInt64) (i : Fin 4) : Prop where
  index : syscallIndex m.toArch = UInt64.ofNat i.val
  stack : k.frames.Mapped m.cr3 (syscallFrame m.toArch) 32
  slot : k.frames.Mapped m.cr3 (syscallStack m.toArch - 8) 8
  entry : EntryStays k m handlers i

theorem exists_calls_iff {i : Fin 4}
    (htable : k.frames.Holds m.cr3 m.mem (tableEntry k i) (wordBytes (handlers i))) :
    (∃ h, Calls k m handlers i h) ↔ ReachesHandler k m handlers i := by
  constructor
  · rintro ⟨h, u, hrun, hrax, htarget⟩
    have hstack := mapped_of_syscallEntryCall hrun
    obtain ⟨u', hrun', hspace, hindex, -, hrsp, hframe, hkept⟩ := syscallEntryCall_spec hstack
    cases hrun.symm.trans hrun'
    obtain ⟨hword, hpush⟩ := syscallTarget_eq_some.1 htarget
    obtain ⟨hslot, -, -⟩ := push_eq_some hpush
    rw [hspace, hrsp] at hslot
    rw [hrax] at hword
    exact ⟨hindex.symm.trans hrax, hstack, hslot,
      (entryStays_iff htable hspace hframe hkept).1 hword⟩
  · rintro ⟨hindex, hstack, hslot, hentry⟩
    obtain ⟨u, hrun, hspace, hrax, -, hrsp, hframe, hkept⟩ := syscallEntryCall_spec hstack
    rw [← hspace, ← hrsp] at hslot
    obtain ⟨h, hpush, -, -, -⟩ := push_spec k.returnAddress hslot
    have hword := (entryStays_iff htable hspace hframe hkept).2 hentry
    have hrax' : u.gpr .rax = UInt64.ofNat i.val := hrax.trans hindex
    refine ⟨h, u, hrun, hrax', syscallTarget_eq_some.2 ⟨?_, hpush⟩⟩
    rw [hrax']
    exact hword

theorem Calls.spec {i : Fin 4} (hcall : Calls k m handlers i h) :
    h.cr3 = m.cr3 ∧ h.gpr .rbp = syscallFrame m.toArch ∧
    Block k.frames m.cr3 h.mem (syscallFrame m.toArch) (syscallItems m.toArch) ∧
    syscallEntry k m = syscallReturn k (k.callee (handlers i) h) := by
  obtain ⟨u, hrun, -, htarget⟩ := hcall
  have hstack := mapped_of_syscallEntryCall hrun
  obtain ⟨u', hrun', hspace, -, hbp, hrsp, hframe, -⟩ := syscallEntryCall_spec hstack
  cases hrun.symm.trans hrun'
  obtain ⟨-, hpush⟩ := syscallTarget_eq_some.1 htarget
  obtain ⟨h', hpush', hspace', hgpr, hkept⟩ := push_spec k.returnAddress (push_eq_some hpush).1
  cases hpush.symm.trans hpush'
  refine ⟨hspace'.trans hspace, (congrFun hgpr .rbp).trans hbp, hframe.congr fun x hx =>
    hkept x fun hin => ?_, ?_⟩
  · rw [hspace, hrsp] at hin
    exact returnSlot_apart m.toArch hin hx
  · rw [syscallEntry, hrun]
    exact congrArg (· >>= fun q : UInt64 × Cpu => syscallReturn k (k.callee q.1 q.2)) htarget

theorem Calls.unique {i : Fin 4} {h' : Cpu} (hcall : Calls k m handlers i h)
    (hcall' : Calls k m handlers i h') : h = h' := by
  obtain ⟨u, hrun, -, htarget⟩ := hcall
  obtain ⟨u', hrun', -, htarget'⟩ := hcall'
  cases hrun.symm.trans hrun'
  cases htarget.symm.trans htarget'
  rfl

/-- The kernel around `SyscallEntry`: `syscall_table` is as it has been initialized, and a handler
that is called returns as any function does. `syscall::exit` does not write where the application
can choose. -/
structure Handles (k : Kernel) (m : Cpu) (handlers : Fin 4 → UInt64) : Prop where
  table : ∀ i, k.frames.Holds m.cr3 m.mem (tableEntry k i) (wordBytes (handlers i))
  rbp : ∀ i h, Calls k m handlers i h → (k.callee (handlers i) h).gpr .rbp = h.gpr .rbp
  cr3 : ∀ i h, Calls k m handlers i h → (k.callee (handlers i) h).cr3 = h.cr3
  exit : ∀ h, Calls k m handlers 3 h → ∀ x, k.frames.Within h.cr3 (h.gpr .rbp) 32 x →
    (k.callee (handlers 3) h).mem x = h.mem x

/-- The system call goes to a handler of the table, and ends as it must: with the epilogue of `exit`
if it is that, and otherwise with `sysret`, the registers of the application, and the result. -/
def Dispatched (k : Kernel) (m : Cpu) (handlers : Fin 4 → UInt64) : Prop :=
  ∃ i h, Calls k m handlers i h ∧
    (i = 3 → ∃ e, syscallEntry k m = some (.exit e) ∧
      e.gpr .rax = (k.callee (handlers i) h).gpr .rax ∧
      e.gpr .rdx = (k.callee (handlers i) h).gpr .rdx) ∧
    (i ≠ 3 → ∃ e, syscallEntry k m = some (.sysret e) ∧
      e.gpr .rax = (k.callee (handlers i) h).gpr .rax ∧
      e.gpr .rdx = (k.callee (handlers i) h).gpr .rdx ∧ e.gpr .rsp = m.gpr .rsp ∧
        e.gpr .rbp = m.gpr .rbp ∧
      e.gpr .rcx = m.gpr .rcx ∧ e.gpr .r11 = m.gpr .r11)

/-- A handler has not written over the words of `SyscallEntry`; of the number, all that matters is
that it is not that of `exit`. -/
structure LeavesFrame (k : Kernel) (m r : Cpu) : Prop where
  number : ∀ n, r.word k.toPlatform (syscallFrame m.toArch) = some n → lowHalf n ≠ 0x80000003
  r11 : r.word k.toPlatform (syscallFrame m.toArch + 8) = some (m.gpr .r11)
  rcx : r.word k.toPlatform (syscallFrame m.toArch + 16) = some (m.gpr .rcx)
  rbp : r.word k.toPlatform (syscallFrame m.toArch + 24) = some (m.gpr .rbp)

/-- The number is in the table, `exit` is called by its full number, and the stack can be used. -/
def CanDispatch (k : Kernel) (m : Cpu) (handlers : Fin 4 → UInt64) : Prop :=
  ∃ i, ReachesHandler k m handlers i ∧ (i = 3 → lowHalf (m.gpr .rax) = 0x80000003) ∧
    (i ≠ 3 → ∀ h, Calls k m handlers i h → LeavesFrame k m (k.callee (handlers i) h))

theorem Handles.stack {i : Fin 4} (hk : Handles k m handlers) (hcall : Calls k m handlers i h) :
    k.frames.Mapped (k.callee (handlers i) h).cr3 ((k.callee (handlers i) h).gpr .rbp) 32 ∧
      (k.callee (handlers i) h).gpr .rbp = syscallFrame m.toArch := by
  obtain ⟨hspace, hbp, hframe, -⟩ := hcall.spec
  have hr : (k.callee (handlers i) h).gpr .rbp = syscallFrame m.toArch :=
    (hk.rbp i h hcall).trans hbp
  rw [hr, hk.cr3 i h hcall, hspace]
  exact ⟨hframe.mapped, rfl⟩

theorem Handles.exit_iff (hk : Handles k m handlers) (hcall : Calls k m handlers 3 h) :
    (∃ e, syscallEntry k m = some (.exit e) ∧ e.gpr .rax = (k.callee (handlers 3) h).gpr .rax ∧
      e.gpr .rdx = (k.callee (handlers 3) h).gpr .rdx) ↔ lowHalf (m.gpr .rax) = 0x80000003 := by
  obtain ⟨hstack, hbp'⟩ := hk.stack hcall
  obtain ⟨hspace, hbp, hframe, hentry⟩ := hcall.spec
  obtain ⟨number, r11, rcx, rbp, hnumber, -, -, -, hexit, hsysret⟩ := syscallReturn_spec hstack
  -- the number is still what has been pushed
  have hpushed : number = m.gpr .rax := by
    have hword : (k.callee (handlers 3) h).word k.toPlatform (syscallFrame m.toArch) =
      some (m.gpr .rax) := by
      rw [Cpu.word_eq_some, hk.cr3 3 h hcall, hspace]
      refine hframe.1.congr fun x hx => hk.exit h hcall x ?_
      rw [size, ← Frames.add_ofNat_zero (syscallFrame m.toArch)] at hx
      rw [hspace, hbp]
      exact hx.mono (by decide)
    rw [hbp'] at hnumber
    exact Option.some.inj (hnumber.symm.trans hword)
  rw [hentry, ← hpushed]
  constructor
  · rintro ⟨e, he, -⟩
    by_contra hne
    obtain ⟨e', he', -⟩ := hsysret hne
    cases he.symm.trans he'
  · exact hexit

theorem Handles.sysret_iff {i : Fin 4} (hk : Handles k m handlers)
    (hcall : Calls k m handlers i h) :
    (∃ e, syscallEntry k m = some (.sysret e) ∧ e.gpr .rax = (k.callee (handlers i) h).gpr .rax ∧
      e.gpr .rdx = (k.callee (handlers i) h).gpr .rdx ∧ e.gpr .rsp = m.gpr .rsp ∧
        e.gpr .rbp = m.gpr .rbp ∧
      e.gpr .rcx = m.gpr .rcx ∧ e.gpr .r11 = m.gpr .r11) ↔
        LeavesFrame k m (k.callee (handlers i) h) := by
  obtain ⟨hstack, hbp⟩ := hk.stack hcall
  obtain ⟨-, -, -, hentry⟩ := hcall.spec
  obtain ⟨number, r11, rcx, rbp, hnumber, hr11, hrcx, hrbp, hexit, hsysret⟩ :=
    syscallReturn_spec hstack
  rw [hbp] at hnumber hr11 hrcx hrbp
  rw [hentry]
  constructor
  · rintro ⟨e, he, -, -, -, hebp, hecx, he11⟩
    have hne : lowHalf number ≠ 0x80000003 := by
      intro heq
      obtain ⟨e', he', -⟩ := hexit heq
      cases he.symm.trans he'
    obtain ⟨e', he', -, -, -, h11, hcx, hbp'⟩ := hsysret hne
    cases he.symm.trans he'
    refine ⟨fun n hn => ?_, hr11.trans (congrArg some (h11.symm.trans he11)),
      hrcx.trans (congrArg some (hcx.symm.trans hecx)),
      hrbp.trans (congrArg some (hbp'.symm.trans hebp))⟩
    cases hnumber.symm.trans hn
    exact hne
  · rintro ⟨hne, h11, hcx, hbp'⟩
    obtain ⟨e, he, herax, herdx, hersp, he11, hecx, hebp⟩ := hsysret (hne number hnumber)
    cases hr11.symm.trans h11
    cases hrcx.symm.trans hcx
    cases hrbp.symm.trans hbp'
    refine ⟨e, he, herax, herdx, hersp.trans ?_, hebp, hecx, he11⟩
    rw [hbp]
    exact UInt64.sub_add_cancel ..

/-- A system call is dispatched as it must be if and only if its number is in the table, `exit` has
its full number, and the stack is mapped and keeps what has been pushed. -/
theorem syscallEntry_iff (hk : Handles k m handlers) : Dispatched k m handlers ↔
    CanDispatch k m handlers := by
  constructor
  · rintro ⟨i, h, hcall, hexit, hsysret⟩
    refine ⟨i, (exists_calls_iff (hk.table i)).1 ⟨h, hcall⟩, fun hi => ?_, fun hi h' hcall' => ?_⟩
    · subst hi
      exact (hk.exit_iff hcall).1 (hexit rfl)
    · cases hcall.unique hcall'
      exact (hk.sysret_iff hcall).1 (hsysret hi)
  · rintro ⟨i, hreaches, hexit, hleaves⟩
    obtain ⟨h, hcall⟩ := (exists_calls_iff (hk.table i)).2 hreaches
    refine ⟨i, h, hcall, fun hi => ?_, fun hi => (hk.sysret_iff hcall).2 (hleaves hi h hcall)⟩
    subst hi
    exact (hk.exit_iff hcall).2 (hexit rfl)

/-! ## A kernel -/

/-- `syscall::exit` returns the stack pointer 0x7000; there are no files, so that the others return
`EBADF`. -/
def smallKernel : Kernel where
  toPlatform := flat
  syscallTable := 0x1000
  returnAddress := 0x100080
  callee target m :=
    let m := m.setReg .rsp (m.gpr .rsp + 8)
    if target = 0x101003 then (m.setReg .rax 0x7000).setReg .rdx (lowHalf (m.gpr .rdi)) else
      (m.setReg .rax 0).setReg .rdx 9

def smallHandlers (i : Fin 4) : UInt64 := 0x101000 + UInt64.ofNat i.val

def smallTable : List Item := [.word 0x101000, .word 0x101001, .word 0x101002, .word 0x101003]

/-- A system call with a number. -/
def callWith (number : UInt64) : Cpu where
  toArch := { kernelTask with gpr := assign kernelTask.gpr .rax number }
  mem x := if x.1 = 1 then (bytes smallTable).getD x.2 0 else 0

theorem callWith_table (number s : UInt64) :
    flat.frames.Holds s (callWith number).mem 0x1000 (bytes smallTable) := by
  intro j hj
  have hj' : j < 32 := by rwa [length_bytes] at hj
  have haddr : ((0x1000 : UInt64) + UInt64.ofNat j).toNat = 4096 + j := by
    rw [UInt64.toNat_add, UInt64.toNat_ofNat']
    change (4096 + j % 2 ^ 64) % 2 ^ 64 = 4096 + j
    omega
  have hnumber : (4096 + j) / 4096 = 1 := by omega
  have hoff : (4096 + j) % 4096 = j := by omega
  refine ⟨(1, j), ?_, ?_⟩
  · rw [Frames.place, haddr, hnumber, hoff]
    rfl
  · change (if 1 = 1 then (bytes smallTable).getD j 0 else 0) = _
    rw [if_pos rfl, List.getD_eq_getElem _ _ hj]

theorem smallKernel_handles (number : UInt64) :
    Handles smallKernel (callWith number) smallHandlers where
  table i := by
    have hblock : Block flat.frames (callWith number).cr3 (callWith number).mem 0x1000 smallTable :=
      Block.of_holds (callWith_table number _)
    have hitem : itemAt smallTable (8 * i.val) = some (.word (smallHandlers i)) := by
      obtain ⟨_ | _ | _ | _ | n, hi⟩ := i
      any_goals rfl
      omega
    have hentry : ∀ i, tableEntry smallKernel i = 0x1000 + UInt64.ofNat (8 * i.val) := by decide
    rw [hentry]
    exact hblock.itemAt hitem
  rbp i h _ := by
    rw [smallKernel]
    dsimp only
    split <;> rfl
  cr3 i h _ := by
    rw [smallKernel]
    dsimp only
    split <;> rfl
  exit _ _ _ _ := rfl

theorem smallKernel_entryStays (number : UInt64) (i : Fin 4) :
    EntryStays smallKernel (callWith number) smallHandlers i := by
  intro j hj n hn x hxj hxn
  have hlow : ∀ i, 4096 * 1 ≤ (tableEntry smallKernel i).toNat := by decide
  have hhigh : ∀ i, (tableEntry smallKernel i).toNat + 8 ≤ 4096 * (1 + 1) := by decide
  have hentry : x.1 = 1 := flat_within (hlow i) (hhigh i) (by decide) ⟨j, hj, hxj⟩
  have hstack : x.1 = 3 :=
    flat_within (show 4096 * 3 ≤ (kernelTask.gpr .rsp - UInt64.ofNat 32).toNat by decide)
    (show (kernelTask.gpr .rsp - UInt64.ofNat 32).toNat + 32 ≤ 4096 * (3 + 1) by decide)
      (by decide) ⟨n, hn, hxn⟩
  exact absurd (hentry.symm.trans hstack) (by decide)

theorem syscallEntry_exits : Dispatched smallKernel (callWith 0x80000003) smallHandlers :=
  (syscallEntry_iff (smallKernel_handles _)).2
    ⟨3, ⟨rfl, flat_mapped _ _ _, flat_mapped _ _ _, smallKernel_entryStays _ _⟩, fun _ => rfl,
      fun h => absurd rfl h⟩

/-- Number 4 reads behind the table. Number 3 calls `exit`, and returns to the application with the
stack pointer of the kernel. -/
theorem not_dispatched : ¬ Dispatched smallKernel (callWith 4) smallHandlers ∧
    ¬ Dispatched smallKernel (callWith 3) smallHandlers := by
  constructor
  · rintro ⟨i, h, hcall, -⟩
    have hindex := ((exists_calls_iff ((smallKernel_handles _).table i)).1 ⟨h, hcall⟩).index
    have hfour : ∀ i : Fin 4, (4 : UInt64) ≠ UInt64.ofNat i.val := by decide
    exact hfour i hindex
  · rintro ⟨i, h, hcall, hexit, -⟩
    have hindex := ((exists_calls_iff ((smallKernel_handles _).table i)).1 ⟨h, hcall⟩).index
    have hthree : ∀ i : Fin 4, (3 : UInt64) = UInt64.ofNat i.val → i = 3 := by decide
    cases hthree i hindex
    have hfull := ((smallKernel_handles 3).exit_iff hcall).1 (hexit rfl)
    exact absurd hfull (by decide)

end Moxia
