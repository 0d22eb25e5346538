import Mathlib.Data.List.Nodup
import Mathlib.Tactic.Common

/-!
# Linked chains

`Chain next a l`: following `next` from `a` visits the elements of `l`, and ends with the last of
them. A chain is determined by where it starts (`unique`), so it visits nothing twice (`nodup`); it
is not affected by links changed elsewhere (`congr`), and another chain can be linked to its end
(`graft`).
-/

namespace Moxia.Lib

variable {α : Type*} {next next' : α → Option α}

inductive Chain (next : α → Option α) : α → List α → Prop
  | last {a : α} (h : next a = none) : Chain next a [a]
  | cons {a b : α} {l : List α} (h : next a = some b) (t : Chain next b l) : Chain next a (a :: l)

namespace Chain

variable {a b : α} {l m : List α}

theorem exists_cons (h : Chain next a l) : ∃ t, l = a :: t := by
  cases h with
  | last => exact ⟨[], rfl⟩
  | cons => exact ⟨_, rfl⟩

theorem mem_head (h : Chain next a l) : a ∈ l := by
  obtain ⟨t, rfl⟩ := h.exists_cons
  exact List.mem_cons_self

theorem ne_nil (h : Chain next a l) : l ≠ [] := List.ne_nil_of_mem h.mem_head

theorem getElem_zero (h : Chain next a l) : l[0]? = some a := by
  obtain ⟨t, rfl⟩ := h.exists_cons
  rfl

theorem unique (h : Chain next a l) (h' : Chain next a m) : l = m := by
  induction h generalizing m with
  | last hn =>
    cases h' with
    | last => rfl
    | cons hs => rw [hn] at hs; cases hs
  | cons hs _ ih =>
    cases h' with
    | last hn => rw [hs] at hn; cases hn
    | cons hs' t' =>
      rw [hs] at hs'
      cases hs'
      rw [ih t']

theorem of_append (h : Chain next a (l ++ b :: m)) : Chain next b (b :: m) := by
  induction l generalizing a with
  | nil =>
    obtain ⟨t, ht⟩ := h.exists_cons
    obtain ⟨rfl, rfl⟩ := List.cons.inj ht
    exact h
  | cons x l ih =>
    generalize hL : x :: l ++ b :: m = L at h
    cases h with
    | last => simp at hL
    | cons _ t =>
      rw [List.cons_append] at hL
      obtain ⟨-, rfl⟩ := List.cons.inj hL
      exact ih t

theorem nodup (h : Chain next a l) : l.Nodup := by
  induction h with
  | last => exact List.nodup_singleton _
  | @cons a b l hs t ih =>
    refine List.nodup_cons.2 ⟨fun hmem => ?_, ih⟩
    -- otherwise the chain from `a` would be a proper part of itself
    obtain ⟨l₁, l₂, rfl⟩ := List.append_of_mem hmem
    have heq := (Chain.cons hs t).unique t.of_append
    have := congrArg List.length heq
    simp at this
    omega

theorem congr (h : Chain next a l) (hn : ∀ x ∈ l, next' x = next x) : Chain next' a l := by
  induction h with
  | last h => exact .last ((hn _ List.mem_cons_self).trans h)
  | cons h _ ih =>
    exact .cons ((hn _ List.mem_cons_self).trans h) (ih fun x hx =>
      hn x (List.mem_cons_of_mem _ hx))

theorem next_getElem (h : Chain next a l) {i : Nat} {x : α} (hi : l[i]? = some x) :
    next x = l[i + 1]? := by
  induction h generalizing i with
  | last h =>
    cases i with
    | zero =>
      cases hi
      exact h
    | succ i => simp at hi
  | cons h t ih =>
    cases i with
    | zero =>
      cases hi
      rw [h, List.getElem?_cons_succ, t.getElem_zero]
    | succ i => exact ih hi

/-- The chain goes on differently from its last element. -/
theorem graft {t : α} (h : Chain next a (l ++ [t])) (hm : Chain next' t (t :: m))
    (hn : ∀ x ∈ l, next' x = next x) : Chain next' a (l ++ t :: m) := by
  induction l generalizing a with
  | nil =>
    obtain ⟨_, heq⟩ := h.exists_cons
    obtain ⟨rfl, -⟩ := List.cons.inj heq
    exact hm
  | cons x l ih =>
    generalize hL : x :: l ++ [t] = L at h
    cases h with
    | last => simp at hL
    | cons hs hl =>
      rw [List.cons_append] at hL
      obtain ⟨rfl, rfl⟩ := List.cons.inj hL
      exact .cons ((hn x List.mem_cons_self).trans hs) (ih hl fun y hy =>
        hn y (List.mem_cons_of_mem _ hy))

end Chain

end Moxia.Lib
