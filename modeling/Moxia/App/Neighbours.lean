import Moxia.App.Leaks

/-!
# Applications side by side

Each application has a PML4 of its own, and the processor is switched between them and the kernel.
Whatever they do in the upper half, what one of them can reach is of no use to another, and stays as
it is while others run (`applications_apart`). This holds also where an application leaves pages
behind: they belong to nobody.
-/

namespace Moxia

open Lib

namespace Mmu

variable {st st' : Mmu} {kernel r r' a g i x : Nat} {p t : List Nat}

/-- The processor, with another CR3. -/
def inSpace (st : Mmu) (r : Nat) : Mmu := { st with cr3 := r }

/-- A table or a page that hangs under the upper half of a PML4. -/
def Owns (st : Mmu) (r g : Nat) : Prop := ∃ p, Path (256 ≤ ·) 4 p ∧ walk st.next r p = some g

/-- In use, but not for the application. -/
def Outside (st : Mmu) (r g : Nat) : Prop := st.InUse g ∧ ¬ st.Owns r g

def KernelTable (st : Mmu) (kernel x : Nat) : Prop :=
  ∃ t, Inner (Path (· < 256) 3) t ∧ walk st.nextTable kernel t = some x

/-- What an application finds at an address. -/
def view (st : Mmu) (r vaddr : Nat) : Option UInt8 :=
  ((st.inSpace r).translate true vaddr).map fun (g, o) => st.mem g o

/-- The address space of an application. -/
structure AppSpace (st : Mmu) (kernel r : Nat) : Prop where
  lt : r < identityFrames
  space : Space (256 ≤ ·) 4 r (st.Outside r) st
  low : ∀ i, i < 256 → st.entry r i = st.entry kernel i
  apart : ∀ x, st.KernelTable kernel x → x ≠ r ∧ ¬ st.Owns r x

/-! ## What stays as it is -/

/-- The frames of an application. -/
def Frame (st : Mmu) (r x : Nat) : Prop := x = r ∨ st.Owns r x

theorem frame_of_walk (hp : Inner (Path (256 ≤ ·) 4) p)
    (hw : walk st.next r p = some x) : st.Frame r x := by
  rcases hp with rfl | hp
  · cases hw
    exact .inl rfl
  · exact .inr ⟨p, hp, hw⟩

theorem walk_same (hmem : ∀ x, st.Frame r x → st'.mem x = st.mem x)
    (hp : Inner (Path (256 ≤ ·) 4) p) :
    walk st'.next r p = walk st.next r p :=
  walk_congr (pathSet _ _) (fun _ _ a ht hw =>
    next_congr (entry_congr (hmem a (frame_of_walk ht.inner hw)))) hp

theorem owns_same (hmem : ∀ x, st.Frame r x → st'.mem x = st.mem x) : st'.Owns r g ↔ st.Owns r g :=
  exists_congr fun _ => and_congr_right fun hp => by rw [walk_same hmem (.inr hp)]

theorem walk_kernel_same (hmem : ∀ x, st.KernelTable kernel x → st'.mem x = st.mem x)
    (hp : Inner (Path (· < 256) 3) t) :
    walk st'.nextTable kernel t = walk st.nextTable kernel t :=
  walk_congr (pathSet _ _) (fun t _ a ht hw =>
    nextTable_congr (entry_congr (hmem a ⟨t, ht.inner, hw⟩))) hp

theorem kernelTable_same (hmem : ∀ x, st.KernelTable kernel x → st'.mem x = st.mem x) :
    st'.KernelTable kernel x ↔ st.KernelTable kernel x :=
  exists_congr fun _ => and_congr_right fun hp => by rw [walk_kernel_same hmem hp]

theorem kernelTable_self : st.KernelTable kernel kernel := ⟨[], .inl rfl, rfl⟩

namespace AppSpace

theorem inUse (h : AppSpace st kernel r) (hx : st.Frame r x) : st.InUse x := by
  rcases hx with rfl | ⟨p, hp, hw⟩
  · exact h.space.root.1
  · exact (h.space.bit x).2 (.inr ⟨p, hp, hw⟩)

theorem not_owns_self (h : AppSpace st kernel r) : ¬ st.Owns r r := h.space.root.2

theorem same (h : AppSpace st kernel r) (hmem : ∀ x, st.Frame r x → st'.mem x = st.mem x)
    (hkernel : ∀ x, st.KernelTable kernel x → st'.mem x = st.mem x)
    (hinUse : ∀ x, st.Frame r x → st'.InUse x) :
    AppSpace st' kernel r := by
  have howns : ∀ g, st'.Owns r g ↔ st.Owns r g := fun g => owns_same hmem
  have hold : ∀ p, Path (256 ≤ ·) 4 p → ∀ a, walk st'.next r p = some a →
    walk st.next r p = some a := fun p hp a hw => by
    rwa [walk_same hmem (.inr hp)] at hw
  refine ⟨h.lt,
    ⟨h.space.trie.congr hold, ⟨hinUse r (.inl rfl), fun ho => h.not_owns_self ((howns r).1 ho)⟩,
    fun g => ?_,
    fun p g hp hw => fun hout => hout.2 ⟨p, hp, hw⟩, fun p g hp hw =>
      h.space.lt p g hp (hold p hp g hw), fun t i a ht hw => ?_,
    fun t i a ht hw => ?_⟩, fun i hi => ?_, fun x hx => ?_⟩
  · rw [Outside, InUse]
    refine ⟨fun hg => or_iff_not_imp_right.2 fun hno => ⟨hg, hno⟩, ?_⟩
    rintro (hg | ho)
    · exact hg.1
    · exact hinUse g (.inr ((howns g).1 ho))
  · rw [walk_same hmem ht.inner] at hw
    rw [entry_congr (hmem a (frame_of_walk ht.inner hw))]
    exact h.space.small t i a ht hw
  · rw [walk_same hmem ht.inner] at hw
    exact h.space.reached t i a ht hw
  · rw [entry_congr (hmem r (.inl rfl)), entry_congr (hkernel kernel kernelTable_self), h.low i hi]
  · rw [kernelTable_same hkernel] at hx
    rw [howns]
    exact h.apart x hx

/-- The tables of the lower half are those of the kernel. -/
theorem walk_low (h : AppSpace st kernel r) (ht : Path (· < 256) 3 t) :
    walk st.nextTable r t = walk st.nextTable kernel t := by
  obtain ⟨i, t, rfl⟩ := List.exists_cons_of_ne_nil ht.ne_nil
  rw [walk_cons, walk_cons, nextTable_congr (h.low i (ht.head i rfl))]

/-- All tables that the processor looks at are in frames that stay as they are. -/
theorem translate_same (h : AppSpace st kernel r) (hmem : ∀ x, st.Frame r x → st'.mem x = st.mem x)
    (hkernel : ∀ x, st.KernelTable kernel x → st'.mem x = st.mem x) (user : Bool) (vaddr : Nat) :
    (st'.inSpace r).translate user vaddr = (st.inSpace r).translate user vaddr := by
  refine translate_congr rfl fun t a i hlen hlt hw => entry_congr ?_
  have hw' : walk st.nextTable r t = some a := hw
  rcases t with _ | ⟨j, t⟩
  · cases hw'
    exact hmem r (.inl rfl)
  · by_cases hj : j < 256
    · have ht : Path (· < 256) 3 (j :: t) :=
        ⟨List.cons_ne_nil _ _, Nat.le_of_lt_succ hlen, hlt, fun k hk => by cases hk; exact hj⟩
      rw [h.walk_low ht] at hw'
      exact hkernel a ⟨_, .inr ht, hw'⟩
    · have ht : Path (256 ≤ ·) 4 (j :: t) :=
        ⟨List.cons_ne_nil _ _, Nat.le_of_lt hlen, hlt, fun k hk => by
          cases hk; exact Nat.le_of_not_lt hj⟩
      exact hmem a (.inr ⟨_, ht, walk_next_of_nextTable hw'⟩)

theorem kernelHalf (h : AppSpace st kernel r) (hk : KernelTables (st.inSpace kernel))
    (hcr3 : st.cr3 = r) :
    KernelHalf (st.Outside r) st where
  table t a ht hw := by
    rw [hcr3, h.walk_low ht] at hw
    obtain ⟨hne, howns⟩ := h.apart a ⟨t, .inr ht, hw⟩
    exact ⟨⟨hk.table t a (.inr ht) hw, howns⟩, hcr3 ▸ hne⟩
  user i hi := by
    rw [hcr3, h.low i hi]
    exact hk.user i hi

theorem confined (h : AppSpace st kernel r) (hcr3 : st.cr3 = r) : Confined (st.Outside r) st st :=
  ⟨hcr3.symm ▸ h.space, rfl, fun _ _ _ => rfl, fun _ _ => rfl⟩

theorem owns_of_translate {v o : Nat} (h : AppSpace st kernel r)
    (hk : KernelTables (st.inSpace kernel)) (hv : v < 2 ^ 64)
    (htr : (st.inSpace r).translate true v = some (g, o)) : st.Owns r g := by
  have hspace : AppSpace (st.inSpace r) kernel r :=
    h.same (fun _ _ => rfl) (fun _ _ => rfl) fun x hx => h.inUse hx
  obtain ⟨p, hp, -, hw⟩ := (hspace.confined rfl).page (hspace.kernelHalf hk rfl) hv (.inr rfl) htr
  exact ⟨p, hp, hw⟩

theorem view_same (h : AppSpace st kernel r) (hk : KernelTables (st.inSpace kernel)) {v : Nat}
    (hv : v < 2 ^ 64)
    (hmem : ∀ x, st.Frame r x → st'.mem x = st.mem x) (hkernel : ∀ x, st.KernelTable kernel x →
    st'.mem x = st.mem x) :
    st'.view r v = st.view r v := by
  rw [view, view, h.translate_same hmem hkernel]
  cases htr : (st.inSpace r).translate true v with
  | none => rfl
  | some res =>
    obtain ⟨g, o⟩ := res
    rw [Option.map_some, Option.map_some]
    dsimp only
    rw [hmem g (.inr (h.owns_of_translate hk hv htr))]

end AppSpace

/-! ## Exits -/

/-- `CleanPageMaps` writes to nothing but the PML4 and the tables it takes apart. -/
theorem cleanPageMaps_mem {B : Nat → Prop} {slot c : Nat} (h : Space (· = slot) 4 st.cr3 B st)
    (hslot : slot < 512)
    (hc : st.next st.cr3 slot = some c) {addr : LinearAddress4Level} (haddr : addr.part 4 = slot)
    (hrun : st.cleanPageMaps addr = some st') (hB : B a) (hne : a ≠ st.cr3) :
    st'.mem a = st.mem a := by
  obtain ⟨st₁, hst₁⟩ : ∃ st₁, st₁ = st.zeroEntry st.cr3 slot := ⟨_, rfl⟩
  have hbit₁ : ∀ g, st₁.memoryManager.bit g = st.memoryManager.bit g := fun g => by rw [hst₁]; rfl
  obtain ⟨hsub, hwalk⟩ := h.under hslot hc hbit₁ fun b i hb => by
    rw [hst₁, zeroEntry, entry_setEntry_of_ne fun heq => hb heq.1]
  obtain ⟨st₂, hrun₂, -, hshrunk⟩ := cleanPageMap_spec (l := 3) (b := []) rfl (fun _ i hi =>
    (⟨by simp, by simp, fun j hj => by rw [List.mem_singleton.1 hj]; exact hi, fun _ _ => trivial⟩ :
      Path (fun _ => True) 3 _))
    c st₁ hsub walk_nil
  have hmem : st₂.mem a = st₁.mem a := hshrunk.mem a fun t i ht _ hw => by
    rw [hwalk t ht.inner] at hw
    exact h.apart _ a ((path_under hslot).2 ht.inner) hw hB
  have hcleared : st₁.mem a = st.mem a := by
    rw [hst₁]
    exact setEntry_mem_of_ne hne
  rw [cleanPageMaps] at hrun
  have hrun := (Option.ite_none_left_eq_some.1 hrun).2
  rw [haddr, (next_eq_some.1 hc).2, ← hst₁, Option.bind_eq_bind] at hrun
  dsimp only at hrun
  rw [hrun₂, Option.bind_some] at hrun
  obtain ⟨manager, -, rfl⟩ := Option.map_eq_some_iff.1 hrun
  exact hmem.trans hcleared

/-- Where nothing under the slot is foreign, cleaning it up and giving back the PML4 leaves what is
outside. -/
theorem exit_outside (h : Space (256 ≤ ·) 4 st.cr3 (st.Outside st.cr3) st) {addr kernel : Nat}
    (haddr : appBase ≤ addr)
    (hlt : addr < 2 ^ 64) (hcr3 : st.cr3 < kFrameCount)
    (hpres : (st.entry st.cr3 ((LinearAddress4Level.mk addr).part 4)).present = true) {st₁ : Mmu}
    (hclean : st.cleanPageMaps ⟨addr⟩ = some st₁) (hfree : st₁.freePML4 kernel = some st')
    (hx : st.Outside st.cr3 x)
    (hne : x ≠ st.cr3) : st'.mem x = st.mem x ∧ st'.InUse x := by
  have hpart : (LinearAddress4Level.mk addr).part 4 = slot (addr / 4096) := by
    rw [LinearAddress4Level.part_succ (by decide : 3 < 4), LinearAddress4Level.pageNumber, slot]
    dsimp only
    omega
  have hhigh : 256 ≤ (LinearAddress4Level.mk addr).part 4 := hpart ▸ slot_of_high haddr hlt
  have hslot : (LinearAddress4Level.mk addr).part 4 < 512 := by
    rw [hpart, slot]
    omega
  have hnarrow := h.narrow fun i (hi : i = (LinearAddress4Level.mk addr).part 4) => hi ▸ hhigh
  obtain ⟨st₁', hrun, hcleaned⟩ := cleanPageMaps_spec hnarrow hslot (next_of_present hpres) rfl
  cases hclean.symm.trans hrun
  have hmem := cleanPageMaps_mem hnarrow hslot (next_of_present hpres) rfl hrun (.inl hx) hne
  have hbit : st₁.InUse x := (hcleaned.bit x).2 (.inl hx)
  obtain ⟨st'', hfree', -, hinUse⟩ := st₁.freePML4_spec kernel (hcleaned.cr3 ▸ hcr3)
  cases hfree.symm.trans hfree'
  refine ⟨?_, (hinUse x).2 ⟨hbit, hcleaned.cr3 ▸ hne⟩⟩
  obtain ⟨manager, -, rfl⟩ := Option.map_eq_some_iff.1 hfree
  exact hmem

end Mmu

/-! ## Running applications -/

structure Apps where
  mmu : Mmu
  /-- The frame of the kernel's own PML4. -/
  kernel : Nat
  /-- The PML4s of the applications. -/
  roots : List Nat := []

namespace Apps

open Mmu

variable {s s' : Apps} {r r' g x : Nat} {st' : Mmu}

inductive Event
  /-- CR3 is loaded with the context of another task. -/
  | switchTo (r : Nat)
  | setupPML4
  | setupPageMaps (vaddr num4kpages : Nat)
  /-- The kernel writes for the application, up to a fault: `CopyLoadSegments`, `MakeArgVector`,
  `syscall::read`. -/
  | store (dst : Nat) (bytes : List UInt8)
  /-- The application writes a byte. -/
  | write (vaddr : UInt64) (b : UInt8)
  /-- `CleanPageMaps` and `FreePML4`. -/
  | exit (addr : Nat)

def step (s : Apps) : Event → Option Apps
  | .switchTo r => some { s with mmu := s.mmu.inSpace r }
  | .setupPML4 => s.mmu.setupPML4.map fun
    | (.ok pml4, st) => { s with mmu := st, roots := pml4 :: s.roots }
    | (.error _, st) => { s with mmu := st }
  | .setupPageMaps vaddr num4kpages => (s.mmu.setupPageMaps ⟨vaddr⟩ num4kpages).map fun r =>
      { s with mmu := r.2 }
  | .store dst bytes => some { s with mmu := (s.mmu.storeBytes dst bytes).1 }
  | .write vaddr b => (s.mmu.translate true vaddr.toNat).map fun (frame, offset) =>
      { s with mmu := s.mmu.poke frame offset b }
  | .exit addr => (s.mmu.cleanPageMaps ⟨addr⟩).bind fun st => (st.freePML4 s.kernel).map fun st =>
    { s with mmu := st, roots := s.roots.filter (· ≠ s.mmu.cr3) }

/-- What is done for an application is done in its address space, and in the upper half. -/
def Allowed (s : Apps) : Event → Prop
  | .switchTo r => r = s.kernel ∨ r ∈ s.roots
  | .setupPML4 => True
  | .setupPageMaps vaddr _ => s.mmu.cr3 ∈ s.roots ∧ appBase ≤ vaddr ∧ vaddr < 2 ^ 64
  | .store dst bytes => s.mmu.cr3 ∈ s.roots ∧ dst < 2 ^ 64 ∧ s.mmu.StoresHigh dst bytes
  | .write _ _ => s.mmu.cr3 ∈ s.roots
  | .exit addr => s.mmu.cr3 ∈ s.roots ∧ appBase ≤ addr ∧ addr < 2 ^ 64 ∧
    (s.mmu.entry s.mmu.cr3 ((LinearAddress4Level.mk addr).part 4)).present = true

instance (s : Apps) : ∀ e, Decidable (s.Allowed e)
  | .switchTo _ => inferInstanceAs (Decidable (_ ∨ _))
  | .setupPML4 => inferInstanceAs (Decidable True)
  | .setupPageMaps _ _ => inferInstanceAs (Decidable (_ ∧ _ ∧ _))
  | .store dst bytes =>
    have : Decidable (s.mmu.StoresHigh dst bytes) :=
      inferInstanceAs (Decidable (∀ k, k < _ → (∀ j, j ≤ k → _) → _))
    inferInstanceAs (Decidable (_ ∧ _ ∧ _))
  | .write _ _ => inferInstanceAs (Decidable (_ ∈ _))
  | .exit _ => inferInstanceAs (Decidable (_ ∧ _ ∧ _ ∧ _))

def Step : Apps → Event → Apps → Prop := Guarded Allowed fun s e s' => s.step e = some s'

structure Inv (s : Apps) : Prop where
  tables : KernelTables (s.mmu.inSpace s.kernel)
  app : ∀ r ∈ s.roots, AppSpace s.mmu s.kernel r
  apart : ∀ r ∈ s.roots, ∀ r' ∈ s.roots, r ≠ r' → ∀ g, s.mmu.Owns r g → ¬ s.mmu.Frame r' g
  current : s.mmu.cr3 = s.kernel ∨ s.mmu.cr3 ∈ s.roots

/-- A frame that is none of the application `r`: of another one, or a table of the kernel. -/
def Foreign (s : Apps) (r x : Nat) : Prop := s.mmu.KernelTable s.kernel x ∨ ∃ r' ∈ s.roots, r' ≠ r ∧
    s.mmu.Frame r' x

/-- From `s` to `st'` the frames that are none of `r` stay as they are. -/
structure Spares (s : Apps) (r : Nat) (st' : Mmu) : Prop where
  mem : ∀ x, s.Foreign r x → st'.mem x = s.mmu.mem x
  inUse : ∀ x, s.Foreign r x → st'.InUse x

namespace Inv

theorem foreign_outside (h : s.Inv) (hr : r ∈ s.roots) (hx : s.Foreign r x) :
    s.mmu.Outside r x ∧ x ≠ r := by
  rcases hx with hx | ⟨r', hr', hne, hx⟩
  · obtain ⟨hneq, howns⟩ := (h.app r hr).apart x hx
    obtain ⟨t, ht, hw⟩ := hx
    exact ⟨⟨h.tables.table t x ht hw, howns⟩, hneq⟩
  · refine ⟨⟨(h.app r' hr').inUse hx, fun howns => h.apart r hr r' hr' (Ne.symm hne) x howns hx⟩,
      ?_⟩
    rintro rfl
    have howns := hx.resolve_left (Ne.symm hne)
    exact h.apart r' hr' x hr hne x howns (.inl rfl)

theorem other (h : s.Inv) (hs : s.Spares r st') (hr' : r' ∈ s.roots) (hne : r' ≠ r) :
    AppSpace st' s.kernel r' :=
  (h.app r' hr').same (fun x hx => hs.mem x (.inr ⟨r', hr', hne, hx⟩))
    (fun x hx => hs.mem x (.inl hx)) fun x hx =>
    hs.inUse x (.inr ⟨r', hr', hne, hx⟩)

theorem kernelTables (h : s.Inv) (hs : s.Spares r st') : KernelTables (st'.inSpace s.kernel) where
  table t a ht hw := by
    have hwalk : walk st'.nextTable s.kernel t = walk s.mmu.nextTable s.kernel t :=
      walk_kernel_same (fun x hx => hs.mem x (.inl hx)) ht
    exact hs.inUse a (.inl ⟨t, ht, hwalk.symm.trans hw⟩)
  user i hi := by
    have hentry : st'.entry s.kernel i = s.mmu.entry s.kernel i :=
      entry_congr (hs.mem s.kernel (.inl kernelTable_self))
    exact (congrArg PageMapEntry.user hentry).trans (h.tables.user i hi)

/-- A step for `r`, after which it may be gone. -/
theorem of_spares (h : s.Inv) (hs : s.Spares r st') {roots : List Nat}
    (hroots : ∀ r' ∈ roots, r' ≠ r → r' ∈ s.roots)
    (hr : r ∈ roots → AppSpace st' s.kernel r ∧ ∀ x, s.Foreign r x → ¬ st'.Frame r x)
    (hcurrent : st'.cr3 = s.kernel ∨ st'.cr3 ∈ roots) :
    Inv { s with mmu := st', roots := roots } where
  tables := h.kernelTables hs
  app r' hr' := by
    by_cases hne : r' = r
    · exact hne ▸ (hr (hne ▸ hr')).1
    · exact h.other hs (hroots r' hr' hne) hne
  apart r₁ hr₁ r₂ hr₂ hne g ho hf := by
    have hsame : ∀ r' ∈ roots, r' ≠ r → (∀ x, st'.Owns r' x → s.mmu.Owns r' x) :=
      fun r' hr' hne x =>
      (owns_same fun y hy => hs.mem y (.inr ⟨r', hroots r' hr' hne, hne, hy⟩)).1
    have hframe : ∀ r' ∈ roots, r' ≠ r → ∀ x, st'.Frame r' x → s.mmu.Frame r' x :=
      fun r' hr' hne x hx =>
      hx.imp_right (hsame r' hr' hne x)
    by_cases h₁ : r₁ = r
    · subst h₁
      exact (hr hr₁).2 g (.inr ⟨r₂, hroots r₂ hr₂ (Ne.symm hne), Ne.symm hne,
        hframe r₂ hr₂ (Ne.symm hne) g hf⟩) (.inr ho)
    · have ho' := hsame r₁ hr₁ h₁ g ho
      by_cases h₂ : r₂ = r
      · subst h₂
        exact (hr hr₂).2 g (.inr ⟨r₁, hroots r₁ hr₁ h₁, h₁, .inr ho'⟩) hf
      · exact h.apart r₁ (hroots r₁ hr₁ h₁) r₂ (hroots r₂ hr₂ h₂) hne g ho' (hframe r₂ hr₂ h₂ g hf)
  current := hcurrent

theorem of_confined (h : s.Inv) (hcr3 : s.mmu.cr3 ∈ s.roots)
    (hc : Confined (s.mmu.Outside s.mmu.cr3) s.mmu st') :
    s.Spares s.mmu.cr3 st' ∧ Inv { s with mmu := st' } := by
  have hs : s.Spares s.mmu.cr3 st' := by
    refine ⟨fun x hx => ?_, fun x hx => ?_⟩
    · obtain ⟨hout, hne⟩ := h.foreign_outside hcr3 hx
      exact hc.mem x hout hne
    · exact (hc.space.bit x).2 (.inl (h.foreign_outside hcr3 hx).1)
  have happ := h.app _ hcr3
  have hspace : Space (256 ≤ ·) 4 s.mmu.cr3 (s.mmu.Outside s.mmu.cr3) st' := hc.cr3 ▸ hc.space
  have hout : st'.Outside s.mmu.cr3 = s.mmu.Outside s.mmu.cr3 := by
    refine funext fun g => propext ⟨fun hg => ?_, fun hg => ⟨(hspace.bit g).2 (.inl hg), ?_⟩⟩
    · exact ((hspace.bit g).1 hg.1).resolve_right hg.2
    · rintro ⟨p, hp, hw⟩
      exact hspace.apart p g hp hw hg
  refine ⟨hs, h.of_spares hs (fun r' hr' _ => hr')
    (fun hr => ⟨⟨happ.lt, hout ▸ hspace, fun i hi => ?_, fun x hx => ?_⟩,
    fun x hx hf => ?_⟩) (hc.cr3 ▸ .inr hcr3)⟩
  · rw [hc.slot i hi, happ.low i hi, entry_congr (hs.mem s.kernel (.inl kernelTable_self))]
  · rw [kernelTable_same fun y hy => hs.mem y (.inl hy)] at hx
    obtain ⟨hxout, hne⟩ := h.foreign_outside hcr3 (.inl hx)
    exact ⟨hne, fun ⟨p, hp, hw⟩ => hspace.apart p x hp hw hxout⟩
  · obtain ⟨hxout, hne⟩ := h.foreign_outside hcr3 hx
    rcases hf with rfl | ⟨p, hp, hw⟩
    · exact hne rfl
    · exact hspace.apart p x hp hw hxout

theorem inUse_foreign (h : s.Inv) (hx : s.Foreign r x) : s.mmu.InUse x := by
  rcases hx with ⟨t, ht, hw⟩ | ⟨r', hr', -, hx⟩
  · exact h.tables.table t x ht hw
  · exact (h.app r' hr').inUse hx

theorem inUse_current (h : s.Inv) : s.mmu.InUse s.mmu.cr3 := by
  rcases h.current with heq | hr
  · exact heq ▸ h.inUse_foreign (r := 0) (.inl kernelTable_self)
  · exact (h.app _ hr).inUse (.inl rfl)

theorem low_current (h : s.Inv) (hi : i < 256) :
    s.mmu.entry s.mmu.cr3 i = s.mmu.entry s.kernel i := by
  rcases h.current with heq | hr
  · rw [heq]
  · exact (h.app _ hr).low i hi

theorem of_newPml4 {pml4 : Nat} (h : s.Inv)
    (hnew : NewPml4 s.mmu st' pml4) : (∀ r, s.Spares r st') ∧
    Inv { s with mmu := st', roots := pml4 :: s.roots } := by
  have hs : ∀ r, s.Spares r st' :=
    fun r => ⟨fun x hx => hnew.mem x (hnew.ne_pml4 (h.inUse_foreign hx)), fun x hx =>
    (hnew.inUse_iff x).2 (.inr (h.inUse_foreign hx))⟩
  have hempty : ∀ i, 256 ≤ i → i < 512 → st'.entry pml4 i = .empty := hnew.high
  have howns : ∀ g, ¬ st'.Owns pml4 g := fun g ⟨p, hp, hw⟩ => by
    rw [walk_of_empty hempty hp] at hw
    cases hw
  have hroot : st'.InUse pml4 := (hnew.inUse_iff pml4).2 (.inl rfl)
  have hout : st'.Outside pml4 = st'.InUse := funext fun g => propext (and_iff_left (howns g))
  refine ⟨hs, h.of_spares (hs pml4) (fun r' hr' hne => (List.mem_cons.1 hr').resolve_left hne)
    (fun _ => ⟨⟨hnew.lt, ?_, fun i hi => ?_, fun x hx => ⟨?_, howns x⟩⟩, fun x hx hf => ?_⟩)
    (.inr (hnew.cr3 ▸ List.mem_cons_self))⟩
  · rw [hout]
    exact space_of_empty hroot hnew.lt hempty
  · rw [hnew.low i hi, h.low_current hi,
      entry_congr ((hs pml4).mem s.kernel (.inl kernelTable_self))]
  · rw [kernelTable_same fun y hy => (hs pml4).mem y (.inl hy)] at hx
    exact hnew.ne_pml4 (h.inUse_foreign (r := pml4) (.inl hx))
  · rcases hf with rfl | ho
    · exact hnew.ne_pml4 (h.inUse_foreign hx) rfl
    · exact howns x ho

/-- What a step keeps of the kernel and of the applications that are not running. -/
structure Stepped (s s' : Apps) : Prop where
  inv : s'.Inv
  kernel : s'.kernel = s.kernel
  spares : s.Spares s.mmu.cr3 s'.mmu
  roots : ∀ r ∈ s.roots, r ≠ s.mmu.cr3 → r ∈ s'.roots

theorem step {e : Event} (h : s.Inv) (hstep : Step s e s') : Stepped s s' := by
  obtain ⟨hok, hs⟩ := hstep
  have hstays {st' : Mmu} (hcr3 : s.mmu.cr3 ∈ s.roots)
      (hc : Confined (s.mmu.Outside s.mmu.cr3) s.mmu st') :
      Stepped s { s with mmu := st' } := by
    obtain ⟨hspares, hinv⟩ := h.of_confined hcr3 hc
    exact ⟨hinv, rfl, hspares, fun r hr _ => hr⟩
  have hhalf (hcr3 : s.mmu.cr3 ∈ s.roots) := (h.app _ hcr3).kernelHalf h.tables rfl
  have hconf (hcr3 : s.mmu.cr3 ∈ s.roots) := (h.app _ hcr3).confined rfl
  cases e with
  | switchTo r =>
    cases hs
    have happ : ∀ r' ∈ s.roots, AppSpace (s.mmu.inSpace r) s.kernel r' := fun r' hr' =>
      (h.app r' hr').same (fun _ _ => rfl) (fun _ _ => rfl) fun x hx => (h.app r' hr').inUse hx
    exact ⟨⟨h.tables, happ, h.apart, hok⟩, rfl, ⟨fun _ _ => rfl, fun x hx => h.inUse_foreign hx⟩,
      fun r hr _ => hr⟩
  | setupPML4 =>
    obtain ⟨⟨err | pml4, st⟩, hset, rfl⟩ := Option.map_eq_some_iff.1 hs
    · obtain ⟨rfl, -⟩ := setupPML4_error hset
      exact ⟨h, rfl, ⟨fun _ _ => rfl, fun x hx => h.inUse_foreign hx⟩, fun r hr _ => hr⟩
    · obtain ⟨hspares, hinv⟩ := h.of_newPml4 (setupPML4_ok h.inUse_current hset)
      exact ⟨hinv, rfl, hspares _, fun r hr _ => List.mem_cons_of_mem _ hr⟩
  | setupPageMaps vaddr n =>
    obtain ⟨hcr3, hv, hlt⟩ := hok
    obtain ⟨⟨res, st⟩, hset, rfl⟩ := Option.map_eq_some_iff.1 hs
    exact hstays hcr3 ((hconf hcr3).setupPageMaps hv hlt hset)
  | store dst bytes =>
    obtain ⟨hcr3, hlt, hhigh⟩ := hok
    cases hs
    exact hstays hcr3 (((hconf hcr3).storeBytes (hhalf hcr3) hlt).1 hhigh).1
  | write vaddr b =>
    obtain ⟨⟨frame, offset⟩, htr, rfl⟩ := Option.map_eq_some_iff.1 hs
    obtain ⟨p, hp, hlen, hg⟩ := (hconf hok).page (hhalf hok) (UInt64.toNat_lt vaddr) (.inr rfl) htr
    exact hstays hok ((hconf hok).poke (hhalf hok) hp hlen hg).1
  | exit addr =>
    obtain ⟨hcr3, hv, hlt, hpres⟩ := hok
    rw [Apps.step] at hs
    obtain ⟨st₁, hclean, hs⟩ := Option.bind_eq_some_iff.1 hs
    obtain ⟨st₂, hfree, rfl⟩ := Option.map_eq_some_iff.1 hs
    have happ := h.app _ hcr3
    have hspares : s.Spares s.mmu.cr3 st₂ := by
      have hkept := fun x (hx : s.Foreign s.mmu.cr3 x) =>
        exit_outside happ.space hv hlt (lt_frameCount happ.lt) hpres hclean hfree
        (h.foreign_outside hcr3 hx).1 (h.foreign_outside hcr3 hx).2
      exact ⟨fun x hx => (hkept x hx).1, fun x hx => (hkept x hx).2⟩
    have hreset : st₂.cr3 = s.kernel := by
      obtain ⟨manager, -, rfl⟩ := Option.map_eq_some_iff.1 hfree
      rfl
    refine ⟨h.of_spares hspares (fun r' hr' _ => (List.mem_filter.1 hr').1) (fun hr => ?_)
      (.inl hreset), rfl, hspares, fun r hr hne =>
      List.mem_filter.2 ⟨hr, by simpa using hne⟩⟩
    have := (List.mem_filter.1 hr).2
    simp at this

end Inv

/-! ## The code of `ExecuteFile` -/

theorem setupPageMaps_step {vaddr n : Nat} {res : Except Error Unit} (hcr3 : s.mmu.cr3 ∈ s.roots)
    (hv : appBase ≤ vaddr)
    (hlt : vaddr < 2 ^ 64) (hset : s.mmu.setupPageMaps ⟨vaddr⟩ n = some (res, st')) :
    Step s (.setupPageMaps vaddr n) { s with mmu := st' } :=
  ⟨⟨hcr3, hv, hlt⟩, congrArg (Option.map _) hset⟩

theorem store_step {dst : Nat} {bytes : List UInt8} (hcr3 : s.mmu.cr3 ∈ s.roots)
    (hlt : dst < 2 ^ 64)
    (hhigh : s.mmu.StoresHigh dst bytes) :
    Step s (.store dst bytes) { s with mmu := (s.mmu.storeBytes dst bytes).1 } :=
  ⟨⟨hcr3, hlt, hhigh⟩, rfl⟩

namespace Inv

variable {image : ElfImage} {env : Environment} {argc : Terminal.ArgVector}

theorem run_copyLoadSegment {i : Nat} (h : s.Inv) (hcr3 : s.mmu.cr3 ∈ s.roots)
    (hseg : (image.programHeader i).High)
    (hrun : copyLoadSegment image (image.programHeader i) s.mmu = some (.ok (), st')) :
    ∃ es, Run Step s es { s with mmu := st' } := by
  obtain ⟨st₁, bytes, hset, hstore, hlen, hhigh⟩ :=
    copyLoadSegment_ok loadLE_lt loadLE_lt loadLE_lt hrun
  by_cases hpos : 0 < (image.programHeader i).pMemsz
  · have hmap : Step s _ { s with mmu := st₁ } :=
      setupPageMaps_step hcr3 (hseg hpos).1 loadLE_lt hset
    have h₁ := (h.step hmap).inv
    have hcr3₁ : st₁.cr3 ∈ s.roots := (setupPageMaps_steady hset).cr3.symm ▸ hcr3
    have happ := h₁.app _ hcr3₁
    have hwrites :=
      @Confined.storeBytes _ _ _ (image.programHeader i).pVaddr bytes (happ.confined rfl)
      (happ.kernelHalf h₁.tables rfl) loadLE_lt
    rw [hstore] at hwrites
    have hcopy := store_step (s := { s with mmu := st₁ }) hcr3₁ loadLE_lt (hwrites.2 (hhigh.2 hseg))
    rw [hstore] at hcopy
    exact ⟨_, .cons hmap (.single hcopy)⟩
  · rw [loadPages_zero hpos, setupPageMaps_zero] at hset
    cases hset
    obtain rfl := List.length_eq_zero_iff.1 (hlen.trans (Nat.eq_zero_of_not_pos hpos))
    cases hstore
    exact ⟨[], .nil _⟩

theorem run_copyLoadSegments {is : List Nat} (h : s.Inv) (hcr3 : s.mmu.cr3 ∈ s.roots)
    (hhigh : ∀ i ∈ is, (image.programHeader i).pType = PT_LOAD → (image.programHeader i).High)
    (hrun : copyLoadSegments image (is.map image.programHeader) s.mmu = some (.ok (), st')) :
    ∃ es, Run Step s es { s with mmu := st' } := by
  induction is generalizing s with
  | nil =>
    cases hrun
    exact ⟨[], .nil _⟩
  | cons i is ih =>
    rw [List.map_cons, copyLoadSegments] at hrun
    have hrest := (List.forall_mem_cons.1 hhigh).2
    split at hrun
    · exact ih h hcr3 hrest hrun
    · rename_i htype
      obtain ⟨⟨⟩, st₁, hcopy, hrun⟩ := andThen_eq_ok hrun
      obtain ⟨es, hes⟩ :=
        h.run_copyLoadSegment hcr3 ((List.forall_mem_cons.1 hhigh).1 (not_not.1 htype)) hcopy
      have h₁ := hes.inv (fun _ _ _ h hstep => (h.step hstep).inv) h
      have hcr3₁ : st₁.cr3 ∈ s.roots := (copyLoadSegment_cr3 hcopy).symm ▸ hcr3
      obtain ⟨es', hes'⟩ := ih h₁ hcr3₁ hrest hrun
      exact ⟨es ++ es', hes.append hes'⟩

/-- What `ExecuteFile` does up to the start of an application is a run. -/
theorem run_prepareFile (h : s.Inv)
    (hhigh : ∀ phdr ∈ image.programHeaders, phdr.pType = PT_LOAD → phdr.High)
    (hrun : prepareFile image env s.mmu = some (.ok argc, st')) :
    ∃ es, Run Step s es { s with mmu := st', roots := st'.cr3 :: s.roots } := by
  obtain ⟨-, pml4, st₁, hset, hrun⟩ := prepareFile_ok hrun
  have hcr3 := loadFile_cr3 hrun
  obtain ⟨⟨⟩, st₂, hload, hrun⟩ := andThen_eq_ok hrun
  obtain ⟨⟨⟩, st₃, hargs, hrun⟩ := andThen_eq_ok hrun
  obtain ⟨argc', st₄, hmake, hrun⟩ := andThen_eq_ok hrun
  obtain ⟨⟨⟩, st₅, hstack, heq⟩ := andThen_eq_ok hrun
  cases heq
  obtain rfl := makeArgs_state hmake
  have hnew := setupPML4_ok h.inUse_current hset
  have hsetup : Step s .setupPML4 { s with mmu := st₁, roots := pml4 :: s.roots } :=
    ⟨trivial, congrArg (Option.map _) hset⟩
  have hroot : ∀ st : Mmu, st.cr3 = st₁.cr3 → st.cr3 ∈ pml4 :: s.roots := fun st heq =>
    (heq.trans hnew.cr3) ▸ List.mem_cons_self
  have hcr3₂ : st₂.cr3 = st₁.cr3 := loadELF_cr3 hload
  have hcr3₄ : st₄.cr3 = st₁.cr3 := (setupPageMaps_steady hargs).cr3.trans hcr3₂
  obtain ⟨es, hes⟩ := (h.step hsetup).inv.run_copyLoadSegments (hroot st₁ rfl)
    (fun i (hi : i ∈ List.range image.ePhnum) => hhigh _ (List.mem_map_of_mem hi))
      (loadELF_ok hload).2
  have hmapArgs : Step { s with mmu := st₂, roots := pml4 :: s.roots } _
      { s with mmu := st₄, roots := pml4 :: s.roots } :=
    setupPageMaps_step (hroot st₂ hcr3₂) (by decide) (by decide) hargs
  have hmapStack : Step { s with mmu := st₄, roots := pml4 :: s.roots } _
      { s with mmu := st', roots := pml4 :: s.roots } :=
    setupPageMaps_step (hroot st₄ hcr3₄) (by decide) (by decide) hstack
  rw [hcr3, hnew.cr3]
  exact ⟨_, .cons hsetup (hes.append (.cons hmapArgs (.single hmapStack)))⟩

/-- What a running application does is a step. -/
theorem run_appStep {e : AppEvent} (hcr3 : s.mmu.cr3 ∈ s.roots) (hhigh : ReadsHigh s.mmu e)
    (hstep : AppStep s.mmu e st') :
    ∃ e', Step s e' { s with mmu := st' } := by
  cases hstep with
  | argsPage hrun | stackPage hrun =>
      exact ⟨_, setupPageMaps_step hcr3 (by decide) (by decide) hrun⟩
  | @store vaddr b _ _ htr => exact ⟨.write vaddr b, hcr3, congrArg (Option.map _) htr⟩
  | @read _ files arg1 arg2 arg3 _ hrun =>
    obtain rfl := read_state hrun
    exact ⟨_, store_step hcr3 (UInt64.toNat_lt arg2) hhigh⟩

end Inv

/-- The kernel is about to load the first application. -/
def start (st : Mmu) : Apps := { mmu := st, kernel := st.cr3 }

theorem Inv.start (hk : KernelTables st') : (start st').Inv :=
  ⟨hk, fun _ hr => absurd hr List.not_mem_nil, fun _ hr => absurd hr List.not_mem_nil, .inl rfl⟩

/-- No frame is within the reach of two applications, or within that of an application and a table
of the kernel. -/
def Separate (s : Apps) : Prop :=
  ∀ r ∈ s.roots, ∀ v o g, v < 2 ^ 64 → (s.mmu.inSpace r).translate true v = some (g, o) →
    s.mmu.InUse g ∧ ¬ s.mmu.KernelTable s.kernel g ∧ g ∉ s.roots ∧
      ∀ r' ∈ s.roots, r' ≠ r → ∀ v' o' g', v' < 2 ^ 64 → (s.mmu.inSpace r').translate true v' =
        some (g', o') → g' ≠ g

theorem Inv.separate (h : s.Inv) : s.Separate := by
  intro r hr v o g hv htr
  have howns := (h.app r hr).owns_of_translate h.tables hv htr
  refine ⟨(h.app r hr).inUse (.inr howns), fun hk => ((h.app r hr).apart g hk).2 howns,
    fun hg => ?_, ?_⟩
  · by_cases hne : r = g
    · exact (h.app r hr).not_owns_self (hne.symm ▸ howns)
    · exact h.apart r hr g hg hne g howns (.inl rfl)
  · rintro r' hr' hne v' o' g' hv' htr' rfl
    exact h.apart r' hr' r hr hne g' ((h.app r' hr').owns_of_translate h.tables hv' htr')
      (.inr howns)

end Apps

open Apps in
/-- Whatever applications are loaded, run and end, and in whatever order, none can reach what
another one can, and a step in the address space of one leaves all that the others find at their
addresses, and the tables of the kernel. -/
theorem applications_apart {st : Mmu} (hk : Mmu.KernelTables st) {es : List Apps.Event} {s : Apps}
    (hrun : Run Apps.Step (Apps.start st) es s) :
    s.Separate ∧ (∀ x, st.KernelTable st.cr3 x → s.mmu.mem x = st.mem x) ∧
      ∀ e s', Apps.Step s e s' → ∀ r ∈ s.roots, r ≠ s.mmu.cr3 → r ∈ s'.roots ∧ ∀ v, v < 2 ^ 64 →
        s'.mmu.view r v = s.mmu.view r v := by
  have hinv : s.Inv ∧ s.kernel = st.cr3 ∧ ∀ x, st.KernelTable st.cr3 x →
    s.mmu.mem x = st.mem x := by
    refine hrun.inv (I := fun s => s.Inv ∧ s.kernel = st.cr3 ∧ ∀ x, st.KernelTable st.cr3 x →
      s.mmu.mem x = st.mem x)
      (fun s e s' h hstep => ?_) ⟨Inv.start hk, rfl, fun _ _ => rfl⟩
    obtain ⟨hinv, hkernel, hmem⟩ := h
    have hstepped := hinv.step hstep
    refine ⟨hstepped.inv, hstepped.kernel.trans hkernel, fun x hx => ?_⟩
    rw [hstepped.spares.mem x (.inl (hkernel ▸ (Mmu.kernelTable_same hmem).2 hx)), hmem x hx]
  refine ⟨hinv.1.separate, hinv.2.2, fun e s' hstep r hr hne => ?_⟩
  have hstepped := hinv.1.step hstep
  exact ⟨hstepped.roots r hr hne, fun v hv => (hinv.1.app r hr).view_same hinv.1.tables hv
    (fun x hx => hstepped.spares.mem x (.inr ⟨r, hr, hne, hx⟩)) fun x hx =>
      hstepped.spares.mem x (.inl hx)⟩

/-- The same address leads each of two applications to a page of its own. -/
theorem applications_apart_two : ∃ s : Apps, Run Apps.Step (Apps.start Mmu.lowGiB)
    [.setupPML4, .setupPageMaps 0xffff800000000000 1, .switchTo 1, .setupPML4,
      .setupPageMaps 0xffff800000000000 1,
      .write 0xffff800000000000 7] s ∧
    s.roots.map (fun r => s.mmu.view r 0xffff800000000000) = [some 7, some 0] ∧ s.Separate := by
  have hexec : ((Run.exec Apps.Allowed Apps.step (Apps.start Mmu.lowGiB)
      [.setupPML4, .setupPageMaps 0xffff800000000000 1, .switchTo 1, .setupPML4,
        .setupPageMaps 0xffff800000000000 1,
        .write 0xffff800000000000 7]).any fun s =>
        s.roots.map (fun r => s.mmu.view r 0xffff800000000000) = [some 7, some 0]) = true := by
    decide +kernel
  obtain ⟨s, hrun, hview⟩ := Run.exists_of_exec hexec
  exact ⟨s, hrun, hview, (applications_apart Mmu.kernelTables_lowGiB hrun).1⟩

end Moxia
