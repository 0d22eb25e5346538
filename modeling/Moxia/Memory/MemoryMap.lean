import Mathlib.Algebra.Group.Nat.Defs
import Mathlib.Tactic.Common

/-!
# The memory map handed over by the boot loader (`memory_map.hpp`)

Only the fields `InitializeMemoryManager` reads: the type of a descriptor, its first physical
address and its number of pages. Addresses are 64-bit; `physicalEnd` wraps as the source's
arithmetic does.
-/

namespace Moxia

def kUEFIPageSize : Nat := 4096

/-- `enum MemoryType`, by its numbers; `other` is any number past the named ones. -/
inductive MemoryType
  | kEfiReservedMemoryType | kEfiLoaderCode | kEfiLoaderData | kEfiBootServicesCode
  | kEfiBootServicesData | kEfiRuntimeServicesCode | kEfiRuntimeServicesData
  | kEfiConventionalMemory | kEfiUnusableMemory | kEfiACPIReclaimMemory | kEfiACPIMemoryNVS
  | kEfiMemoryMappedIO | kEfiMemoryMappedIOPortSpace | kEfiPalCode | kEfiPersistentMemory
  | other (number : Nat)
deriving DecidableEq, Repr

/-- `IsAvailable` -/
def isAvailable (memoryType : MemoryType) : Bool :=
  memoryType == .kEfiBootServicesCode || memoryType == .kEfiBootServicesData ||
    memoryType == .kEfiConventionalMemory

structure MemoryDescriptor where
  type : MemoryType
  physicalStart : Nat
  numberOfPages : Nat
deriving DecidableEq, Repr

namespace MemoryDescriptor

/-- `desc->number_of_pages * kUEFIPageSize`, in 64 bits. -/
def bytes (d : MemoryDescriptor) : Nat := d.numberOfPages * kUEFIPageSize % 2 ^ 64

/-- `desc->physical_start + desc->number_of_pages * kUEFIPageSize`, in 64 bits. -/
def physicalEnd (d : MemoryDescriptor) : Nat := (d.physicalStart + d.bytes) % 2 ^ 64

end MemoryDescriptor

end Moxia
