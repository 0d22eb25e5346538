import Moxia.Lib.Bytes
import Moxia.Memory.Manager
import Moxia.Paging.Entry
import Mathlib.Logic.Function.Basic

/-!
# Page tables in memory (`terminal.cpp`)

Physical memory is a byte for each frame and offset; a page table is a frame with 512 entries of 8
bytes, and a `PageMapEntry *` to its start is the frame's number. The kernel reaches page tables
through their physical addresses, which only the first 64 GiB have (`identityFrames`). What may fail
is a `Result`: `none` where the allocator leaves its map or an access is a fault, so that the source
does not return, else its error or its value, and the state it leaves.
-/

namespace Moxia

open Lib

structure Mmu where
  mem : Nat → Nat → UInt8
  memoryManager : BitmapMemoryManager
  /-- The frame of the PML4 that CR3 points to. -/
  cr3 : Nat
  /-- The virtual addresses which the kernel has written to on behalf of an application. -/
  stores : List Nat := []
  /-- The frames which have been given back. -/
  freed : List Nat := []

namespace Mmu

abbrev Result (α : Type) := Option (Except Error α × Mmu)

/-- `if (auto err = x) return err;` before `f` -/
def Result.andThen {α β : Type} (x : Result α) (f : α → Mmu → Result β) : Result β :=
  x.bind fun
    | (.error err, st) => some (.error err, st)
    | (.ok a, st) => f a st

@[simp] theorem andThen_none {α β : Type} (f : α → Mmu → Result β) :
    Result.andThen none f = none := rfl

@[simp] theorem andThen_error {α β : Type} (err : Error) (st : Mmu) (f : α → Mmu → Result β) :
    Result.andThen (some (.error err, st)) f = some (.error err, st) := rfl

@[simp] theorem andThen_ok {α β : Type} (a : α) (st : Mmu) (f : α → Mmu → Result β) :
    Result.andThen (some (.ok a, st)) f = f a st := rfl

theorem andThen_eq_ok {α β : Type} {x : Result α} {f : α → Mmu → Result β} {b : β} {st' : Mmu}
    (h : x.andThen f = some (.ok b, st')) :
    ∃ a st, x = some (.ok a, st) ∧ f a st = some (.ok b, st') := by
  obtain ⟨⟨_ | a, st⟩, hx, h⟩ := Option.bind_eq_some_iff.1 h
  · cases h
  · exact ⟨a, st, hx, h⟩

theorem andThen_eq_error {α β : Type} {x : Result α} {f : α → Mmu → Result β}
    {err : Error} {st' : Mmu}
    (h : x.andThen f = some (.error err, st')) : x = some (.error err, st') ∨
      ∃ a st, x = some (.ok a, st) ∧ f a st = some (.error err, st') := by
  obtain ⟨⟨_ | a, st⟩, hx, h⟩ := Option.bind_eq_some_iff.1 h
  · cases h
    exact .inl hx
  · exact .inr ⟨a, st, hx, h⟩

/-! ## Entries -/

def entry (st : Mmu) (pageMap i : Nat) : PageMapEntry := .ofData (loadLE (st.mem pageMap) (8 * i) 8)

def setEntry (st : Mmu) (pageMap i : Nat) (e : PageMapEntry) : Mmu :=
  { st with mem := Function.update st.mem pageMap (storeLE (st.mem pageMap) (8 * i) 8 e.data) }

def clearFrame (st : Mmu) (frame : Nat) : Mmu :=
  { st with mem := Function.update st.mem frame fun _ => 0 }

/-- The frames that `SetupIdentityPageTable` maps to themselves. An access to another one is a
fault. -/
def identityFrames : Nat := kPageDirectoryCount * 512 * 512

def newPageMap (st : Mmu) : Result Nat :=
  (st.memoryManager.allocate 1).bind fun
    | .error err => some (.error err, st)
    | .ok (frame, manager) =>
      -- `memset`
      if frame < identityFrames then
        some (.ok frame, { st with memoryManager := manager }.clearFrame frame) else none

/-- `SetNewPageMapIfNotPresent(page_map[i])` -/
def setNewPageMapIfNotPresent (st : Mmu) (pageMap i : Nat) : Result Nat :=
  if identityFrames ≤ pageMap then none
  else if (st.entry pageMap i).present then some (.ok (st.entry pageMap i).pointer, st)
  else Result.andThen st.newPageMap fun childMap st =>
    some (.ok childMap, st.setEntry pageMap i ((st.entry pageMap i).setPointer childMap).setPresent)

/-- The loop of `SetupPageMap`; `sub` is what it does with the entry. It goes on to the next entry
at most up to entry 511. -/
def setupLoop (pageMapLevel : Nat) (sub : Nat → LinearAddress4Level → Nat → Mmu → Result Nat)
    (pageMap : Nat) :
    (fuel : Nat) → LinearAddress4Level → (num4kpages : Nat) → Mmu → Result Nat
  | 0, _, num4kpages, st => some (.ok num4kpages, st)
  | fuel + 1, addr, num4kpages, st =>
    if num4kpages = 0 then some (.ok 0, st)
    else
      let entryIndex := addr.part pageMapLevel
      Result.andThen (st.setNewPageMapIfNotPresent pageMap entryIndex) fun childMap st =>
        let st := st.setEntry pageMap entryIndex (st.entry pageMap entryIndex).grant
        Result.andThen (sub childMap addr num4kpages st) fun num4kpages st =>
          if entryIndex = 511 then some (.ok num4kpages, st)
          else
            let addr := (addr.setPart pageMapLevel (entryIndex + 1)).clearParts (pageMapLevel - 1)
            setupLoop pageMapLevel sub pageMap fuel addr num4kpages st

/-- `SetupPageMap`: the number of pages that are left, or an error. Level 0 stands for
`--num_4kpages`. -/
def setupPageMap : (pageMapLevel pageMap : Nat) → LinearAddress4Level → (num4kpages : Nat) →
    Mmu → Result Nat
  | 0, _, _, num4kpages, st => some (.ok (num4kpages - 1), st)
  | level + 1, pageMap, addr, num4kpages, st =>
    setupLoop (level + 1) (fun childMap => setupPageMap level childMap) pageMap 512
      addr num4kpages st

def setupPageMaps (st : Mmu) (addr : LinearAddress4Level) (num4kpages : Nat) : Result Unit :=
  Result.andThen (setupPageMap 4 st.cr3 addr num4kpages st) fun _ st => some (.ok (), st)

/-- `page_map[i].data = 0` -/
def zeroEntry (st : Mmu) (pageMap i : Nat) : Mmu := st.setEntry pageMap i .empty

/-- `memory_manager->Free(frame, 1)`, which always succeeds. -/
def freeFrame (st : Mmu) (frame : Nat) : Option Mmu :=
  (st.memoryManager.free frame 1).map fun manager =>
    { st with memoryManager := manager, freed := st.freed ++ [frame] }

/-- The body of the loop of `CleanPageMap`; `sub` is the call for the next level, if there is
one. -/
def cleanEntry (sub : Nat → Mmu → Option Mmu) (pageMap : Nat) (st : Mmu) (i : Nat) : Option Mmu :=
  let entry := st.entry pageMap i
  if identityFrames ≤ pageMap then none
  else if entry.present then do
    let st ← sub entry.pointer st
    let st ← st.freeFrame entry.pointer
    some (st.zeroEntry pageMap i)
  else some st

/-- `CleanPageMap`. Level 0 stands for the test `page_map_level > 1`. -/
def cleanPageMap : (pageMapLevel pageMap : Nat) → Mmu → Option Mmu
  | 0, _, st => some st
  | level + 1, pageMap, st =>
    (List.range 512).foldlM (cleanEntry (fun childMap => cleanPageMap level childMap) pageMap) st

def cleanPageMaps (st : Mmu) (addr : LinearAddress4Level) : Option Mmu :=
  if identityFrames ≤ st.cr3 then none
  else do
    let pdpTable := (st.entry st.cr3 (addr.part 4)).pointer
    let st := st.zeroEntry st.cr3 (addr.part 4)
    let st ← cleanPageMap 3 pdpTable st
    st.freeFrame pdpTable

/-! ## Virtual addresses -/

/-- Where the processor writes a byte with virtual address `vaddr`, walking on from a table of level
`level`, or `none` if that is a page fault. `user` says that an application writes. -/
def translateFrom (st : Mmu) (user : Bool) (vaddr : Nat) : (level frame : Nat) → Option (Nat × Nat)
  | 0, frame => some (frame, vaddr % 4096)
  | level + 1, frame =>
    let e := st.entry frame (vaddr / 4096 / 512 ^ level % 512)
    if e.present ∧ e.writable ∧ (user → e.user) then
      if e.hugePage ∧ level ≠ 0 then
        -- a page of 2 MiB or of 1 GiB; the bit is reserved in a PML4
        if level = 3 then none
        else some (e.pointer / 512 ^ level * 512 ^ level + vaddr / 4096 % 512 ^ level, vaddr % 4096)
      else translateFrom st user vaddr level e.pointer
    else none

/-- The upper 17 bits of an address are all equal. -/
def Canonical (vaddr : Nat) : Prop := vaddr < 2 ^ 47 ∨ 2 ^ 64 - 2 ^ 47 ≤ vaddr

instance (vaddr : Nat) : Decidable (Canonical vaddr) := inferInstanceAs (Decidable (_ ∨ _))

def translate (st : Mmu) (user : Bool) (vaddr : Nat) : Option (Nat × Nat) :=
  if Canonical vaddr then st.translateFrom user vaddr 4 st.cr3 else none

def poke (st : Mmu) (frame offset : Nat) (b : UInt8) : Mmu :=
  { st with mem := Function.update st.mem frame (Function.update (st.mem frame) offset b) }

/-- `*dst = b` for an application, where `dst` leads to the given place. -/
def storeByte (st : Mmu) (dst frame offset : Nat) (b : UInt8) : Mmu :=
  { st.poke frame offset b with stores := st.stores ++ [dst] }

/-- The kernel writes bytes from `dst` on. The second value says whether it gets to the end. -/
def storeBytes (st : Mmu) (dst : Nat) : List UInt8 → Mmu × Bool
  | [] => (st, true)
  | b :: bytes => match st.translate false dst with
    | none => (st, false)
    | some (frame, offset) =>
        (st.storeByte dst frame offset b).storeBytes ((dst + 1) % 2 ^ 64) bytes

/-- `memcpy` and `memset` return only when all is written. -/
def store (st : Mmu) (dst : Nat) (bytes : List UInt8) : Option Mmu :=
  match st.storeBytes dst bytes with
  | (st, true) => some st
  | (_, false) => none

end Mmu

end Moxia
