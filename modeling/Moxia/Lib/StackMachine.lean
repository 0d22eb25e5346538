import Mathlib.Data.List.Forall2
import Mathlib.Tactic.Common

/-!
# A stack machine

A machine with a stack of `n` places executes operands and binary operators, which may fail. It gets
through with the postfix notation of an expression if and only if it has a value and fits
(`exec_symbols`), and with nothing but such texts one behind the other (`exec_eq_some_iff`).
-/

namespace Moxia.Lib.StackMachine

variable {α β : Type*}

/-- An expression with binary operators. -/
inductive Expression (α β : Type*)
  | leaf (a : α)
  | node (op : β) (l r : Expression α β)

namespace Expression

def eval (f : β → α → α → Option α) : Expression α β → Option α
  | leaf a => some a
  | node op l r => (l.eval f).bind fun a => (r.eval f).bind fun b => f op a b

def symbols : Expression α β → List (α ⊕ β)
  | leaf a => [.inl a]
  | node op l r => l.symbols ++ (r.symbols ++ [.inr op])

/-- How many places it takes to evaluate the tree. -/
def slots : Expression α β → Nat
  | leaf _ => 1
  | node _ l r => max l.slots (r.slots + 1)

end Expression

/-- The machine. The top of the stack is the head of the list. -/
def exec (f : β → α → α → Option α) (n : Nat) : List α → List (α ⊕ β) → Option (List α)
  | s, [] => some s
  | s, .inl a :: ts => if s.length < n then exec f n (a :: s) ts else none
  | b :: a :: s, .inr op :: ts => (f op a b).bind fun v => exec f n (v :: s) ts
  | [], .inr _ :: _ | [_], .inr _ :: _ => none

variable {f : β → α → α → Option α} {n : Nat} {s : List α}

theorem exec_symbols (t : Expression α β) (s : List α) (ts : List (α ⊕ β)) :
    exec f n s (t.symbols ++ ts) =
    if s.length + t.slots ≤ n then (t.eval f).bind fun v => exec f n (v :: s) ts else none := by
  induction t generalizing s ts with
  | leaf a => rfl
  | node op l r ihl ihr =>
    have hboth : s.length + (Expression.node op l r).slots ≤ n ↔ s.length + l.slots ≤ n ∧
      s.length + 1 + r.slots ≤ n := by
      rw [Expression.slots]
      omega
    rw [Expression.symbols, List.append_assoc, List.append_assoc, ihl, Expression.eval,
      Option.bind_assoc]
    by_cases hl : s.length + l.slots ≤ n
    · rw [if_pos hl]
      by_cases hr : s.length + 1 + r.slots ≤ n
      · rw [if_pos (hboth.2 ⟨hl, hr⟩)]
        refine congrArg _ (funext fun a => ?_)
        rw [ihr, List.length_cons, if_pos hr, Option.bind_assoc]
        rfl
      · rw [if_neg fun h => hr (hboth.1 h).2, Option.bind_eq_none_iff]
        intro a _
        rw [ihr, List.length_cons, if_neg hr]
    · rw [if_neg hl, if_neg fun h => hl (hboth.1 h).1]

/-! ## Forests -/

/-- The trees of a stack, the top first, one behind the other. -/
def text : List (Expression α β) → List (α ⊕ β)
  | [] => []
  | t :: ts => text ts ++ t.symbols

/-- Each tree is evaluated above those below it. -/
def Fits (n : Nat) : List (Expression α β) → Prop
  | [] => True
  | t :: ts => ts.length + t.slots ≤ n ∧ Fits n ts

theorem exec_text {trees : List (Expression α β)} (hfits : Fits n trees)
    (hs : List.Forall₂ (fun t v => t.eval f = some v) trees s)
    (ts : List (α ⊕ β)) : exec f n [] (text trees ++ ts) = exec f n s ts := by
  induction hs generalizing ts with
  | nil => rfl
  | cons ht hs ih =>
    rw [text, List.append_assoc, ih hfits.2, exec_symbols, ← hs.length_eq, if_pos hfits.1, ht,
      Option.bind_some]

theorem exists_trees {trees : List (Expression α β)} {s s' : List α} (hfits : Fits n trees)
    (hs : List.Forall₂ (fun t v => t.eval f = some v) trees s) (ts : List (α ⊕ β))
    (hexec : exec f n s ts = some s') :
    ∃ trees', text trees ++ ts = text trees' ∧ Fits n trees' ∧
      List.Forall₂ (fun t v => t.eval f = some v) trees' s' := by
  induction ts generalizing trees s with
  | nil =>
    cases hexec
    exact ⟨trees, List.append_nil _, hfits, hs⟩
  | cons c ts ih =>
    cases c with
    | inl a =>
      rw [exec] at hexec
      split at hexec
      · rename_i hlt
        rw [← hs.length_eq] at hlt
        have hfits' : Fits n (.leaf a :: trees) := ⟨hlt, hfits⟩
        obtain ⟨trees', htext, hfits', hs'⟩ := ih hfits' (.cons rfl hs) hexec
        refine ⟨trees', ?_, hfits', hs'⟩
        rw [← htext, text, List.append_assoc]
        rfl
      · cases hexec
    | inr op =>
      -- the two trees on the top become one
      cases hs with
      | nil => cases hexec
      | @cons r b trees₁ s₁ hr hs =>
        cases hs with
        | nil => cases hexec
        | @cons l a trees₂ s₂ hl hs =>
          obtain ⟨v, hv, hexec⟩ := Option.bind_eq_some_iff.1 hexec
          obtain ⟨hr', hl', hfits⟩ := hfits
          rw [List.length_cons] at hr'
          have hfits' : Fits n (.node op l r :: trees₂) := by
            refine ⟨?_, hfits⟩
            rw [Expression.slots]
            omega
          have heval : (Expression.node op l r).eval f = some v := by
            rw [Expression.eval, hl, Option.bind_some, hr, Option.bind_some, hv]
          obtain ⟨trees', htext, hfits', hs'⟩ := ih hfits' (.cons heval hs) hexec
          refine ⟨trees', ?_, hfits', hs'⟩
          rw [← htext, text, text, text, Expression.symbols]
          simp only [List.append_assoc, List.singleton_append]

theorem Expression.slots_le (t : Expression α β) :
    0 < t.symbols.length ∧ t.slots ≤ t.symbols.length := by
  induction t with
  | leaf a => exact ⟨Nat.one_pos, Nat.le_refl _⟩
  | node op l r ihl ihr =>
    rw [Expression.slots, Expression.symbols, List.length_append, List.length_append,
      List.length_singleton]
    omega

theorem length_le_text (trees : List (Expression α β)) : trees.length ≤ (text trees).length := by
  induction trees with
  | nil => exact Nat.le_refl _
  | cons t trees ih =>
    have := t.slots_le.1
    rw [text, List.length_append, List.length_cons]
    omega

theorem fits_of_length {trees : List (Expression α β)}
    (hlen : (text trees).length ≤ n) : Fits n trees := by
  induction trees with
  | nil => trivial
  | cons t trees ih =>
    have hslots := t.slots_le.2
    have hbelow := length_le_text trees
    rw [text, List.length_append] at hlen
    exact ⟨by omega, ih (by omega)⟩

/-- What the machine gets through with is trees. -/
theorem exec_eq_some_iff {ts : List (α ⊕ β)} : exec f n [] ts = some s ↔
    ∃ trees, ts = text trees ∧ Fits n trees ∧
      List.Forall₂ (fun t v => t.eval f = some v) trees s := by
  constructor
  · intro hexec
    have hnil : Fits n ([] : List (Expression α β)) := trivial
    exact exists_trees hnil .nil ts hexec
  · rintro ⟨trees, rfl, hfits, hs⟩
    have hexec := exec_text hfits hs []
    rwa [List.append_nil] at hexec

end Moxia.Lib.StackMachine
