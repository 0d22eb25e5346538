/-!
# Files and descriptors

Files have names of any type. A descriptor has an offset for reading and another one for writing. A
write ends the file behind what it has written; the bytes that stood there are kept, and count again
once a descriptor that is further on has written.
-/

namespace Moxia.Lib

structure File (α : Type) where
  bytes : List α := []
  size : Nat := 0

namespace File

variable {α : Type} {f : File α} {l : List α} {off : Nat}

def contents (f : File α) : List α := f.bytes.take f.size

def read (f : File α) (off n : Nat) : List α := (f.contents.drop off).take n

def write (f : File α) (off : Nat) (l : List α) : File α where
  bytes := f.bytes.take off ++ l ++ f.bytes.drop (off + l.length)
  size := off + l.length

theorem length_write (h : off ≤ f.bytes.length) :
    (f.write off l).bytes.length = max f.bytes.length (off + l.length) := by
  rw [write, List.length_append, List.length_append, List.length_take_of_le h, List.length_drop]
  omega

end File

/-- The places of a descriptor in its file. -/
structure Descriptor (κ : Type) where
  file : κ
  rd : Nat := 0
  wr : Nat := 0

/-- What an open descriptor leads to. -/
inductive Handle (κ : Type)
  /-- Another thing than a file. -/
  | device
  | file (d : Descriptor κ)

structure Files (κ α : Type) where
  file : κ → Option (File α)
  fds : Nat → Option (Handle κ)

end Moxia.Lib
