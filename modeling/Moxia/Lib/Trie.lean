import Mathlib.Data.List.Induction
import Mathlib.Data.Set.Basic
import Mathlib.Tactic.Common

/-!
# Tries in a heap

`next a i` is the node that the edge `i` leads to from the node `a`. `walk next r p` follows the
path `p` from `r`. On a prefix-closed set of paths the heap is a trie when different paths lead to
different nodes (`IsTrie`). An edge that is added to a fresh node adds exactly its own path
(`walk_link`), one that is taken away takes away the paths through it (`walk_unlink`), and edges of
other nodes do not matter (`walk_congr`).
-/

namespace Moxia.Lib

variable {α ι : Type*}

def walk (next : α → ι → Option α) (r : α) : List ι → Option α
  | [] => some r
  | i :: p => (next r i).bind fun a => walk next a p

section

variable {next next' : α → ι → Option α} {r a f h : α} {p q t : List ι} {i j : ι}

@[simp] theorem walk_nil : walk next r [] = some r := rfl

theorem walk_cons : walk next r (i :: p) = (next r i).bind fun a => walk next a p := rfl

theorem walk_append : walk next r (p ++ q) = (walk next r p).bind fun a => walk next a q := by
  induction p generalizing r with
  | nil => rfl
  | cons i p ih =>
    rw [List.cons_append, walk_cons, walk_cons, Option.bind_assoc]
    exact congrArg _ (funext fun a => ih)

theorem walk_snoc : walk next r (p ++ [i]) = (walk next r p).bind fun a => next a i := by
  rw [walk_append]
  refine congrArg _ (funext fun a => ?_)
  rw [walk_cons]
  cases next a i <;> rfl

theorem walk_snoc_of (hp : walk next r p = some a) : walk next r (p ++ [i]) = next a i := by
  rw [walk_snoc, hp, Option.bind_some]

theorem walk_inv {T : α → Prop} (hstep : ∀ a i b, T a → i ∈ p → next a i = some b → T b) (hr : T r)
    (hp : walk next r p = some a) : T a := by
  induction p generalizing r with
  | nil =>
    cases hp
    exact hr
  | cons i p ih =>
    rw [walk_cons] at hp
    obtain ⟨b, hb, hp⟩ := Option.bind_eq_some_iff.1 hp
    exact ih (fun a j c ha hj => hstep a j c ha (List.mem_cons_of_mem _ hj))
      (hstep r i b hr List.mem_cons_self hb) hp

theorem exists_of_walk_snoc (hp : walk next r (p ++ [i]) = some a) :
    ∃ b, walk next r p = some b ∧ next b i = some a := by
  rw [walk_snoc] at hp
  exact Option.bind_eq_some_iff.1 hp

theorem isSome_of_prefix (hpq : p <+: q) (hq : (walk next r q).isSome) :
    (walk next r p).isSome := by
  obtain ⟨s, rfl⟩ := hpq
  rw [walk_append] at hq
  cases hp : walk next r p with
  | none => rw [hp] at hq; cases hq
  | some a => rfl

end

/-- A set of paths that holds the paths to the nodes on the way, and not the path to the root. -/
structure PathSet (P : List ι → Prop) : Prop where
  ne_nil : ∀ {p}, P p → p ≠ []
  closed : ∀ {p i}, P (p ++ [i]) → p = [] ∨ P p

/-- The paths of `P` lead to different nodes, none of them the root. -/
structure IsTrie (next : α → ι → Option α) (r : α) (P : List ι → Prop) : Prop where
  inj : ∀ {p q a}, P p → P q → walk next r p = some a → walk next r q = some a → p = q
  root : ∀ {p}, P p → walk next r p ≠ some r

variable {next next' : α → ι → Option α} {r a f h : α} {P : List ι → Prop}
    {p q t : List ι} {i j : ι}

/-- The inner paths: those from which an edge may go on. -/
def Inner (P : List ι → Prop) (p : List ι) : Prop := p = [] ∨ P p

theorem IsTrie.inner_inj (ht : IsTrie next r P) (hp : Inner P p) (hq : Inner P q)
    (hpa : walk next r p = some a)
    (hqa : walk next r q = some a) : p = q := by
  rcases hp with rfl | hp
  · rcases hq with rfl | hq
    · rfl
    · cases hpa
      exact absurd hqa (ht.root hq)
  · rcases hq with rfl | hq
    · cases hqa
      exact absurd hpa (ht.root hp)
    · exact ht.inj hp hq hpa hqa

theorem walk_congr (hP : PathSet P)
    (hnext : ∀ t i a, P (t ++ [i]) → walk next r t = some a → next' a i = next a i)
    (hp : Inner P p) :
    walk next' r p = walk next r p := by
  induction p using List.reverseRecOn with
  | nil => rfl
  | append_singleton t i ih =>
    have hti : P (t ++ [i]) := hp.resolve_left (by simp)
    rw [walk_snoc, walk_snoc, ih (hP.closed hti)]
    cases ha : walk next r t with
    | none => rfl
    | some a => exact hnext t i a hti ha

theorem IsTrie.congr (ht : IsTrie next r P) (hw : ∀ p, P p → ∀ a, walk next' r p = some a →
    walk next r p = some a) :
    IsTrie next' r P where
  inj hp hq hpa hqa := ht.inj hp hq (hw _ hp _ hpa) (hw _ hq _ hqa)
  root hp ha := ht.root hp (hw _ hp _ ha)

/-- A new edge from the node at `t` to a fresh node `h`, which has no edges, adds the path `t ++
[i]`. -/
theorem walk_link [DecidableEq ι] (hP : PathSet P) (ht : IsTrie next r P) (hin : Inner P t)
    (hf : walk next r t = some f)
    (hnone : next f i = none) (hfresh : ∀ q, Inner P q → walk next r q ≠ some h)
    (hlink : next' f i = some h) (hleaf : ∀ j, P (t ++ [i] ++ [j]) → next' h j = none)
    (hsame : ∀ a j, a ≠ h → ¬ (a = f ∧ j = i) → next' a j = next a j) (hq : Inner P q) :
    walk next' r q = if q = t ++ [i] then some h else walk next r q := by
  induction q using List.reverseRecOn with
  | nil => rw [if_neg (by simp)]; rfl
  | append_singleton s j ih =>
    have hsj : P (s ++ [j]) := hq.resolve_left (by simp)
    have hs := hP.closed hsj
    rw [walk_snoc, ih hs]
    by_cases hst : s = t ++ [i]
    · -- behind the new node
      have hgone : walk next r s = none := by rw [hst, walk_snoc_of hf, hnone]
      rw [if_pos hst, if_neg (by simp [hst]), Option.bind_some, walk_snoc, hgone,
        hleaf j (hst ▸ hsj)]
      rfl
    rw [if_neg hst, walk_snoc]
    cases ha : walk next r s with
    | none =>
      rw [if_neg]
      · rfl
      intro heq
      rw [(List.append_inj' heq rfl).1, hf] at ha
      cases ha
    | some a =>
      rw [Option.bind_some, Option.bind_some]
      by_cases hedge : a = f ∧ j = i
      · obtain ⟨rfl, rfl⟩ := hedge
        rw [ht.inner_inj hs hin ha hf, if_pos rfl, hlink]
      · have hne : s ++ [j] ≠ t ++ [i] := fun heq => by
          obtain ⟨hst', hji⟩ := List.append_inj' heq rfl
          subst hst'
          exact hedge ⟨Option.some.inj (ha.symm.trans hf), List.singleton_inj.1 hji⟩
        rw [if_neg hne, hsame a j (fun hah => hfresh s hs (hah ▸ ha)) hedge]

/-- The fresh node keeps the paths apart. -/
theorem IsTrie.link (ht : IsTrie next r P) (hfresh : ∀ q, Inner P q → walk next r q ≠ some h)
    (hw : ∀ q, P q → ∀ a, walk next' r q = some a → (q = t ∧ a = h) ∨ walk next r q = some a)
    : IsTrie next' r P where
  inj {p q a} hp hq hpa hqa := by
    rcases hw p hp a hpa with ⟨rfl, rfl⟩ | hpa
    · rcases hw q hq a hqa with ⟨rfl, -⟩ | hqa
      · rfl
      · exact absurd hqa (hfresh q (.inr hq))
    · rcases hw q hq a hqa with ⟨rfl, rfl⟩ | hqa
      · exact absurd hpa (hfresh p (.inr hp))
      · exact ht.inj hp hq hpa hqa
  root {p} hp hpr := by
    rcases hw p hp r hpr with ⟨rfl, rfl⟩ | hpr
    · exact hfresh [] (.inl rfl) rfl
    · exact ht.root hp hpr

/-- Without the edge `i` from the node at `t` the paths through it are gone. -/
theorem walk_unlink [DecidableEq ι] (hP : PathSet P) (ht : IsTrie next r P) (hin : Inner P t)
    (hf : walk next r t = some f)
    (hnone : next' f i = none) (hsame : ∀ s a j, P (s ++ [j]) → walk next r s = some a →
    ¬ t ++ [i] <+: s →
      ¬ (a = f ∧ j = i) → next' a j = next a j) (hq : Inner P q) :
    walk next' r q = if t ++ [i] <+: q then none else walk next r q := by
  induction q using List.reverseRecOn with
  | nil => rw [if_neg (by simp)]; rfl
  | append_singleton s j ih =>
    have hsj : P (s ++ [j]) := hq.resolve_left (by simp)
    have hs := hP.closed hsj
    rw [walk_snoc, ih hs]
    by_cases hpre : t ++ [i] <+: s
    · rw [if_pos hpre, if_pos (hpre.trans (List.prefix_append _ _))]
      rfl
    rw [if_neg hpre, walk_snoc]
    cases ha : walk next r s with
    | none => simp
    | some a =>
      rw [Option.bind_some, Option.bind_some]
      by_cases hedge : a = f ∧ j = i
      · obtain ⟨rfl, rfl⟩ := hedge
        rw [ht.inner_inj hs hin ha hf, if_pos List.prefix_rfl, hnone]
      · have hne : ¬ t ++ [i] <+: s ++ [j] := fun hp => by
          rcases List.prefix_concat_iff.1 hp with heq | hp
          · obtain ⟨hst', hji⟩ := List.append_inj' heq rfl
            subst hst'
            exact hedge ⟨Option.some.inj (ha.symm.trans hf), (List.singleton_inj.1 hji).symm⟩
          · exact hpre hp
        rw [if_neg hne, hsame s a j hsj ha hpre hedge]

end Moxia.Lib
