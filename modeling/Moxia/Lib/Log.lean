import Mathlib.Tactic.Common

/-!
# Computations with a log

A partial computation that notes what it does: also one that gets stuck has a log. What holds of all
entries of two computations one after the other is what holds of the entries of each
(`forall_bind`).
-/

namespace Moxia.Lib

structure Log (ω α : Type*) where
  entries : List ω
  result : Option α

namespace Log

variable {ω ω' α β : Type*}

def bind (x : Log ω α) (f : α → Log ω β) : Log ω β :=
  match x.result with
  | none => ⟨x.entries, none⟩
  | some a => ⟨x.entries ++ (f a).entries, (f a).result⟩

@[simp] theorem bind_none (l : List ω) (f : α → Log ω β) : bind ⟨l, none⟩ f = ⟨l, none⟩ := rfl

@[simp] theorem bind_some (l : List ω) (a : α) (f : α → Log ω β) :
    bind ⟨l, some a⟩ f = ⟨l ++ (f a).entries, (f a).result⟩ := rfl

theorem bind_result (x : Log ω α) (f : α → Log ω β) : (x.bind f).result = x.result.bind fun a =>
    (f a).result := by
  obtain ⟨l, _ | a⟩ := x <;> rfl

theorem forall_bind {P : ω → Prop} {x : Log ω α} {f : α → Log ω β} :
    (∀ e ∈ (x.bind f).entries, P e) ↔
    (∀ e ∈ x.entries, P e) ∧ ∀ a, x.result = some a → ∀ e ∈ (f a).entries, P e := by
  obtain ⟨l, _ | a⟩ := x
  · simp
  · simp only [bind_some, List.forall_mem_append, Option.some.injEq, forall_eq']

end Log

end Moxia.Lib
