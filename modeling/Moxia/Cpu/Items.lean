import Moxia.Cpu.Machine

/-!
# The stack and a context as lists

The routines that save and restore contexts only use the stack, of which they know the top, and a
block of memory to which a register points. A `View` has both as lists, without addresses. Where a
view's step goes through, the processor's does, and what is in memory is again what the view says
(`Shows.step`, `Shows.run`). A view runs by computation.
-/

namespace Moxia

open Lib

/-- What lies in memory in one piece: a word, the bytes of `fxsave`, or `n` bytes of any kind. -/
inductive Item
  | word (v : UInt64)
  | area (b : Vector UInt8 512)
  | gap (n : Nat)

namespace Item

def size : Item → Nat
  | word _ => 8
  | area _ => 512
  | gap n => n

def sizes : List Item → Nat
  | [] => 0
  | i :: l => i.size + sizes l

/-- The item that begins at an offset. -/
def itemAt : List Item → Nat → Option Item
  | [], _ => none
  | i :: l, off =>
      if off = 0 then some i else if off < i.size then none else itemAt l (off - i.size)

/-- It is replaced by one of the same size. -/
def setAt : List Item → Nat → Item → Option (List Item)
  | [], _, _ => none
  | i :: l, off, j =>
    if off = 0 then if i.size = j.size then some (j :: l) else none
    else if off < i.size then none else (setAt l (off - i.size) j).map (i :: ·)

/-- Without the items in the first `n` bytes. -/
def dropBytes : List Item → Nat → Option (List Item)
  | [], n => if n = 0 then some [] else none
  | i :: l, n =>
      if n = 0 then some (i :: l) else if n < i.size then none else dropBytes l (n - i.size)

/-- Bytes for the items. -/
def bytes : List Item → List UInt8
  | [] => []
  | word v :: l => wordBytes v ++ bytes l
  | area b :: l => b.toList ++ bytes l
  | gap n :: l => List.replicate n 0 ++ bytes l

variable (frames : Frames UInt64)

def At (s : UInt64) (mem : Place → UInt8) (a : UInt64) : Item → Prop
  | word v => frames.Holds s mem a (wordBytes v)
  | area b => frames.Holds s mem a b.toList
  | gap n => frames.Mapped s a n

/-- The items are in memory, one behind the other. -/
def Block (s : UInt64) (mem : Place → UInt8) : UInt64 → List Item → Prop
  | _, [] => True
  | a, i :: l => i.At frames s mem a ∧ Block s mem (a + UInt64.ofNat i.size) l

variable {frames} {s : UInt64} {mem mem' : Place → UInt8} {a : UInt64} {i j : Item}
    {l l' : List Item} {off n : Nat}

theorem At.congr (h : i.At frames s mem a) (hmem : ∀ x, frames.Within s a i.size x →
    mem' x = mem x) :
    i.At frames s mem' a := by
  cases i with
  | word v =>
    rw [size, ← length_wordBytes v] at hmem
    exact Frames.Holds.congr h hmem
  | area b =>
    rw [size, ← b.length_toList] at hmem
    exact Frames.Holds.congr h hmem
  | gap n => exact h

theorem At.mapped (h : i.At frames s mem a) : frames.Mapped s a i.size := by
  cases i with
  | word v =>
    rw [size, ← length_wordBytes v]
    exact Frames.Holds.mapped h
  | area b =>
    rw [size, ← b.length_toList]
    exact Frames.Holds.mapped h
  | gap n => exact h

theorem Block.congr (h : Block frames s mem a l) (hmem : ∀ x, frames.Within s a (sizes l) x →
    mem' x = mem x) :
    Block frames s mem' a l := by
  induction l generalizing a with
  | nil => trivial
  | cons i l ih =>
    refine ⟨h.1.congr fun x hx => hmem x ?_, ih h.2 fun x hx => hmem x (hx.mono (Nat.le_refl _))⟩
    rw [← Frames.add_ofNat_zero a] at hx
    exact hx.mono (by rw [sizes]; omega)

theorem At.shared (h : i.At frames s mem a) {s' : UInt64}
    (hplace : ∀ k, k < i.size → frames.place s' (a + UInt64.ofNat k) =
      frames.place s (a + UInt64.ofNat k)) :
    i.At frames s' mem a := by
  cases i with
  | word v =>
    intro k hk
    rw [hplace k (Nat.lt_of_lt_of_eq hk (length_wordBytes v))]
    exact h k hk
  | area b =>
    intro k hk
    rw [hplace k (Nat.lt_of_lt_of_eq hk b.length_toList)]
    exact h k hk
  | gap n =>
    intro k hk
    rw [hplace k hk]
    exact h k hk

theorem Block.shared (h : Block frames s mem a l) {s' : UInt64}
    (hplace : ∀ k, k < sizes l → frames.place s' (a + UInt64.ofNat k) =
      frames.place s (a + UInt64.ofNat k)) :
    Block frames s' mem a l := by
  induction l generalizing a with
  | nil => trivial
  | cons i l ih =>
    rw [sizes] at hplace
    refine ⟨h.1.shared fun k hk => hplace k (by omega), ih h.2 fun k hk => ?_⟩
    rw [← Frames.add_ofNat_add]
    exact hplace _ (by omega)

theorem At.copied {b : UInt64} (h : i.At frames s mem a) (hmapped : frames.Mapped s b i.size)
    (hcopy : ∀ k, k < i.size → ∀ x y, frames.place s (a + UInt64.ofNat k) = some x →
      frames.place s (b + UInt64.ofNat k) = some y → mem' y = mem x) : i.At frames s mem' b := by
  cases i with
  | word v =>
    rw [size, ← length_wordBytes v] at hmapped hcopy
    exact Frames.Holds.copied h hmapped hcopy
  | area c =>
    rw [size, ← c.length_toList] at hmapped hcopy
    exact Frames.Holds.copied h hmapped hcopy
  | gap n => exact hmapped

theorem Block.copied {b : UInt64} (h : Block frames s mem a l)
    (hmapped : frames.Mapped s b (sizes l))
    (hcopy : ∀ k, k < sizes l → ∀ x y, frames.place s (a + UInt64.ofNat k) = some x →
      frames.place s (b + UInt64.ofNat k) = some y → mem' y = mem x) : Block frames s mem' b l := by
  induction l generalizing a b with
  | nil => trivial
  | cons i l ih =>
    rw [sizes] at hmapped hcopy
    refine ⟨h.1.copied (fun k hk => hmapped k (by omega)) fun k hk => hcopy k (by omega),
      ih h.2 (hmapped.mono (Nat.le_refl _)) fun k hk x y hx hy => ?_⟩
    rw [← Frames.add_ofNat_add] at hx hy
    exact hcopy _ (by omega) x y hx hy

theorem block_append : Block frames s mem a (l ++ l') ↔
    Block frames s mem a l ∧ Block frames s mem (a + UInt64.ofNat (sizes l)) l' := by
  induction l generalizing a with
  | nil => rw [List.nil_append, sizes, Frames.add_ofNat_zero, Block, true_and]
  | cons i l ih => rw [List.cons_append, Block, Block, ih, sizes, Frames.add_ofNat_add, and_assoc]

theorem sizes_append : sizes (l ++ l') = sizes l + sizes l' := by
  induction l with
  | nil => rw [List.nil_append, sizes, Nat.zero_add]
  | cons i l ih => rw [List.cons_append, sizes, sizes, ih, Nat.add_assoc]

theorem Block.forget (h : Block frames s mem a (l ++ i :: l')) :
    Block frames s mem a (l ++ .gap i.size :: l') := by
  obtain ⟨hbefore, hitem, hbehind⟩ := block_append.1 h
  exact block_append.2 ⟨hbefore, hitem.mapped, hbehind⟩

theorem Block.mapped (h : Block frames s mem a l) : frames.Mapped s a (sizes l) := by
  induction l generalizing a with
  | nil => exact fun _ hk => absurd hk (Nat.not_lt_zero _)
  | cons i l ih =>
    intro k hk
    rcases Nat.lt_or_ge k i.size with hlt | hge
    · exact h.1.mapped k hlt
    · obtain ⟨x, hx⟩ := ih h.2 (k - i.size) (by rw [sizes] at hk; omega)
      rw [← Frames.add_ofNat_add, Nat.add_sub_cancel' hge] at hx
      exact ⟨x, hx⟩

theorem Block.itemAt (h : Block frames s mem a l) (hi : itemAt l off = some i) :
    i.At frames s mem (a + UInt64.ofNat off) := by
  induction l generalizing a off with
  | nil => cases hi
  | cons j l ih =>
    rw [Item.itemAt] at hi
    split at hi
    · rename_i hzero
      cases hi
      rw [hzero, Frames.add_ofNat_zero]
      exact h.1
    split at hi
    · cases hi
    · rename_i hge
      have hat := ih h.2 hi
      rwa [← Frames.add_ofNat_add, Nat.add_sub_cancel' (Nat.le_of_not_lt hge)] at hat

theorem length_bytes (l : List Item) : (bytes l).length = sizes l := by
  induction l with
  | nil => rfl
  | cons i l ih => cases i <;> simp [bytes, sizes, size, ih]

theorem Block.of_holds (h : frames.Holds s mem a (bytes l)) : Block frames s mem a l := by
  induction l generalizing a with
  | nil => trivial
  | cons i l ih =>
    cases i with
    | word v =>
      obtain ⟨hitem, hrest⟩ := Frames.holds_append.1 h
      rw [length_wordBytes] at hrest
      exact ⟨hitem, ih hrest⟩
    | area b =>
      obtain ⟨hitem, hrest⟩ := Frames.holds_append.1 h
      rw [b.length_toList] at hrest
      exact ⟨hitem, ih hrest⟩
    | gap n =>
      obtain ⟨hitem, hrest⟩ := Frames.holds_append.1 h
      rw [List.length_replicate] at hrest
      refine ⟨?_, ih hrest⟩
      have hmapped := hitem.mapped
      rwa [List.length_replicate] at hmapped

theorem Block.holds (h : Block frames s mem a l) (hgap : ∀ n, gap n ∉ l) :
    frames.Holds s mem a (bytes l) := by
  induction l generalizing a with
  | nil => exact Frames.holds_nil
  | cons i l ih =>
    have hrest := ih h.2 fun n hn => hgap n (List.mem_cons_of_mem _ hn)
    cases i with
    | word v => exact Frames.holds_append.2 ⟨h.1, by rw [length_wordBytes]; exact hrest⟩
    | area b => exact Frames.holds_append.2 ⟨h.1, by rw [b.length_toList]; exact hrest⟩
    | gap n => exact absurd (List.mem_cons_self ..) (hgap n)

theorem sizes_setAt (h : setAt l off j = some l') :
    sizes l' = sizes l ∧ off + j.size ≤ sizes l := by
  induction l generalizing off l' with
  | nil => cases h
  | cons i l ih =>
    rw [setAt] at h
    split at h
    · split at h
      · rename_i hzero hsize
        cases h
        rw [sizes, sizes]
        omega
      · cases h
    split at h
    · cases h
    · obtain ⟨l'', hl, rfl⟩ := Option.map_eq_some_iff.1 h
      obtain ⟨heq, hle⟩ := ih hl
      rw [sizes, sizes]
      omega

theorem Block.setAt (h : Block frames s mem a l) (hset : Item.setAt l off j = some l')
    (hlen : sizes l ≤ 4096)
    (hj : j.At frames s mem' (a + UInt64.ofNat off))
    (hmem : ∀ x, ¬ frames.Within s (a + UInt64.ofNat off) j.size x → mem' x = mem x) :
    Block frames s mem' a l' := by
  induction l generalizing a off l' with
  | nil => cases hset
  | cons i l ih =>
    have hbounds := sizes_setAt hset
    have hsizes : sizes (i :: l) = i.size + sizes l := rfl
    rw [Item.setAt] at hset
    split at hset
    · split at hset
      · rename_i hzero hsize
        cases hset
        rw [hzero] at hj hmem
        rw [Frames.add_ofNat_zero] at hj
        refine ⟨hj, hsize ▸ h.2.congr fun x hx => hmem x ?_⟩
        exact hx.disjoint (by omega) (by omega) (.inr (by omega))
      · cases hset
    split at hset
    · cases hset
    · rename_i hge
      obtain ⟨l'', hl, rfl⟩ := Option.map_eq_some_iff.1 hset
      have hoff : a + UInt64.ofNat off = a + UInt64.ofNat i.size + UInt64.ofNat (off - i.size) := by
        rw [← Frames.add_ofNat_add, Nat.add_sub_cancel' (Nat.le_of_not_lt hge)]
      refine ⟨h.1.congr fun x hx => hmem x ?_, ih h.2 hl (by omega) (hoff ▸ hj) (hoff ▸ hmem)⟩
      rw [← Frames.add_ofNat_zero a] at hx
      exact hx.disjoint (by omega) (by omega) (.inl (by omega))

theorem take_setAt (h : setAt l off j = some l') :
    l'.length = l.length ∧ ∀ k, sizes (l'.take k) = sizes (l.take k) := by
  induction l generalizing off l' with
  | nil => cases h
  | cons i l ih =>
    rw [setAt] at h
    split at h
    · split at h
      · rename_i hsize
        cases h
        refine ⟨rfl, fun k => ?_⟩
        cases k with
        | zero => rfl
        | succ k => rw [List.take_succ_cons, List.take_succ_cons, sizes, sizes, hsize]
      · cases h
    split at h
    · cases h
    · obtain ⟨l'', hl, rfl⟩ := Option.map_eq_some_iff.1 h
      obtain ⟨hlen, htake⟩ := ih hl
      refine ⟨congrArg Nat.succ hlen, fun k => ?_⟩
      cases k with
      | zero => rfl
      | succ k => rw [List.take_succ_cons, List.take_succ_cons, sizes, sizes, htake]

theorem dropBytes_eq_some (h : dropBytes l n = some l') :
    ∃ before, l = before ++ l' ∧ sizes before = n := by
  induction l generalizing n with
  | nil =>
    rw [dropBytes] at h
    split at h
    · rename_i hzero
      cases h
      exact ⟨[], rfl, hzero.symm⟩
    · cases h
  | cons i l ih =>
    rw [dropBytes] at h
    split at h
    · rename_i hzero
      cases h
      exact ⟨[], rfl, hzero.symm⟩
    split at h
    · cases h
    · rename_i hge
      obtain ⟨before, rfl, hsizes⟩ := ih h
      refine ⟨i :: before, rfl, ?_⟩
      rw [sizes]
      omega

end Item

end Moxia
