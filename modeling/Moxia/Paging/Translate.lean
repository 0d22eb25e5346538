import Moxia.Paging.Mapping

/-!
# What addresses lead to

In a `Space` an address leads to the page at the end of its path (`walk_of_translateFrom`). Writing
to a frame that is not a table leaves all addresses as they are (`translate_poke`).
-/

namespace Moxia

open Lib

namespace Mmu

variable {S : Nat → Prop} {d r : Nat} {B : Nat → Prop} {st st' : Mmu} {user : Bool}
  {vaddr a f g i l o : Nat}
  {b p q t : List Nat} {u : UInt8}

theorem walk_of_translateFrom (h : Space S d r B st) (hf : walk st.next r b = some f)
    (hpath : l ≠ 0 → Path S d (b ++ pagePath l (vaddr / 4096)))
    (hrun : st.translateFrom user vaddr l f = some (g, o)) :
    walk st.next r (b ++ pagePath l (vaddr / 4096)) = some g ∧ o = vaddr % 4096 := by
  induction l generalizing b f with
  | zero =>
    cases hrun
    exact ⟨by rw [pagePath, List.append_nil, hf], rfl⟩
  | succ l ih =>
    have hp := hpath (Nat.succ_ne_zero l)
    rw [pagePath, List.append_cons] at hp ⊢
    have hi := hp.of_prefix (by simp)
    rw [translateFrom] at hrun
    split at hrun
    · rename_i hpres
      rw [if_neg (by simp [h.small b _ f hi hf])] at hrun
      refine ih ?_ (fun _ => hp) hrun
      rw [walk_snoc_of hf, next_of_present hpres.1]
    · cases hrun

/-! ## Tables -/

/-- The table that an entry points to. An entry for a large page points to none. -/
def nextTable (st : Mmu) (a i : Nat) : Option Nat :=
  if (st.entry a i).present ∧ (st.entry a i).hugePage = false then some (st.entry a i).pointer
  else none

theorem nextTable_congr {f j : Nat} (he : st'.entry f j = st.entry a i) :
    st'.nextTable f j = st.nextTable a i := by
  rw [nextTable, nextTable, he]

/-- The processor looks at nothing but tables. -/
theorem translateFrom_congr (hf : walk st.nextTable r b = some f) (hlen : b.length + l = 4)
    (hb : ∀ i ∈ b, i < 512)
    (hentry : ∀ t a i, t.length < 4 → (∀ i ∈ t, i < 512) → walk st.nextTable r t = some a →
    st'.entry a i = st.entry a i) :
    st'.translateFrom user vaddr l f = st.translateFrom user vaddr l f := by
  induction l generalizing b f with
  | zero => rfl
  | succ l ih =>
    rw [translateFrom, translateFrom, hentry b f _ (by omega) hb hf]
    split
    · rename_i hpres
      split
      · rfl
      rename_i hsmall
      cases l with
      | zero => rfl
      | succ l =>
        refine ih (b := b ++ [vaddr / 4096 / 512 ^ (l + 1) % 512]) ?_ ?_ ?_
        · rw [walk_snoc_of hf, nextTable, if_pos ⟨hpres.1, by simpa using hsmall⟩]
        · rw [List.length_append, List.length_singleton]
          omega
        · intro i hi
          rcases List.mem_append.1 hi with hi | hi
          · exact hb i hi
          · rw [List.mem_singleton.1 hi]
            exact Nat.mod_lt _ (by decide)
    · rfl

theorem translate_congr (hcr3 : st'.cr3 = st.cr3)
    (hentry : ∀ t a i, t.length < 4 → (∀ i ∈ t, i < 512) → walk st.nextTable st.cr3 t = some a →
      st'.entry a i = st.entry a i) : st'.translate user vaddr = st.translate user vaddr := by
  rw [translate, translate, hcr3]
  split
  · exact translateFrom_congr (b := []) rfl rfl (by simp) hentry
  · rfl

theorem poke_mem_of_ne (hne : a ≠ f) : (st.poke f o u).mem a = st.mem a :=
  Function.update_of_ne hne ..

theorem translate_poke (hpage : ∀ t, t.length < 4 → (∀ i ∈ t, i < 512) →
    walk st.nextTable st.cr3 t ≠ some f) :
    (st.poke f o u).translate user vaddr = st.translate user vaddr :=
  translate_congr rfl fun t _ _ hlen ht hw =>
    entry_congr (poke_mem_of_ne fun h => hpage t hlen ht (h ▸ hw))

end Mmu

end Moxia
