import Mathlib.Logic.Relation
import Mathlib.Tactic.Common

/-!
# Runs of a labelled transition relation

`Run R s es s'`: the steps labelled `es`, taken in turn from `s`, end in `s'`. An invariant of one
step is an invariant of every run (`Run.inv`), also when only the steps that satisfy a guard are
considered (`Guarded`). Runs of a step function with a decidable guard can be computed (`Run.exec`).
-/

namespace Moxia.Lib

variable {σ ε : Type*} {R : σ → ε → σ → Prop}

/-- Finite runs of the labelled transition relation `R`. -/
inductive Run (R : σ → ε → σ → Prop) : σ → List ε → σ → Prop
  | nil (s : σ) : Run R s [] s
  | cons {s s₁ s' : σ} {e : ε} {es : List ε} (h : R s e s₁)
      (hs : Run R s₁ es s') : Run R s (e :: es) s'

/-- The steps of `R` that satisfy the guard `ok` in the state they are taken from. -/
def Guarded (ok : σ → ε → Prop) (R : σ → ε → σ → Prop) (s : σ) (e : ε) (s' : σ) : Prop :=
  ok s e ∧ R s e s'

namespace Run

theorem single {s s' : σ} {e : ε} (h : R s e s') : Run R s [e] s' :=
  .cons h (.nil _)

theorem append {s s₁ s' : σ} {es es' : List ε} (h : Run R s es s₁) (h' : Run R s₁ es' s') :
    Run R s (es ++ es') s' := by
  induction h with
  | nil => exact h'
  | cons hstep _ ih => exact .cons hstep (ih h')

theorem snoc {s s₁ s' : σ} {e : ε} {es : List ε} (h : Run R s es s₁) (h' : R s₁ e s') :
    Run R s (es ++ [e]) s' :=
  h.append (single h')

theorem of_append {s s' : σ} {es es' : List ε} (h : Run R s (es ++ es') s') :
    ∃ s₁, Run R s es s₁ ∧ Run R s₁ es' s' := by
  induction es generalizing s with
  | nil => exact ⟨s, .nil s, h⟩
  | cons e es ih =>
    cases h with
    | cons hstep h =>
      obtain ⟨s₁, h₁, h'⟩ := ih h
      exact ⟨s₁, .cons hstep h₁, h'⟩

/-- What every step keeps, every run keeps. -/
theorem inv {I : σ → Prop} (hstep : ∀ s e s', I s → R s e s' → I s') {s s' : σ} {es : List ε}
    (h : Run R s es s') (hs : I s) : I s' := by
  induction h with
  | nil => exact hs
  | cons hR _ ih => exact ih (hstep _ _ _ hs hR)

/-- A forward simulation: what each step can do, each run can do. -/
theorem simulate {τ : Type*} {T : τ → ε → τ → Prop} {V : τ → σ → Prop}
    (hstep : ∀ t s e s', V t s → R s e s' → ∃ t', T t e t' ∧ V t' s') {s s' : σ} {es : List ε}
    (h : Run R s es s') {t : τ}
    (ht : V t s) : ∃ t', Run T t es t' ∧ V t' s' := by
  induction h generalizing t with
  | nil => exact ⟨t, .nil t, ht⟩
  | cons h _ ih =>
    obtain ⟨t₁, hT, h₁⟩ := hstep _ _ _ _ ht h
    obtain ⟨t', hrun, h'⟩ := ih h₁
    exact ⟨t', .cons hT hrun, h'⟩

theorem mono {R' : σ → ε → σ → Prop} (hR : ∀ s e s', R s e s' → R' s e s') {s s' : σ} {es : List ε}
    (h : Run R s es s') : Run R' s es s' := by
  induction h with
  | nil => exact .nil _
  | cons hstep _ ih => exact .cons (hR _ _ _ hstep) ih

/-- The state after the given steps of a step function, if all are allowed and possible. -/
def exec (ok : σ → ε → Prop) [∀ s e, Decidable (ok s e)] (step : σ → ε → Option σ)
    (s : σ) : List ε → Option σ
  | [] => some s
  | e :: es => if ok s e then (step s e).bind fun s => exec ok step s es else none

theorem of_exec {ok : σ → ε → Prop} [∀ s e, Decidable (ok s e)] {step : σ → ε → Option σ}
    {s s' : σ} {es : List ε}
    (h : exec ok step s es = some s') :
    Run (Guarded ok fun s e s' => step s e = some s') s es s' := by
  induction es generalizing s with
  | nil =>
    cases h
    exact .nil _
  | cons e es ih =>
    rw [exec] at h
    split at h
    · rename_i hok
      obtain ⟨s₁, hs₁, h⟩ := Option.bind_eq_some_iff.1 h
      exact .cons ⟨hok, hs₁⟩ (ih h)
    · cases h

theorem exists_of_exec {ok : σ → ε → Prop} [∀ s e, Decidable (ok s e)]
    {step : σ → ε → Option σ} {s : σ}
    {es : List ε} {P : σ → Prop} [DecidablePred P]
    (h : ((exec ok step s es).any fun s => P s) = true) :
    ∃ s', Run (Guarded ok fun s e s' => step s e = some s') s es s' ∧ P s' := by
  obtain ⟨s', hs', hP⟩ := (Option.any_eq_true _ _).1 h
  exact ⟨s', of_exec hs', of_decide_eq_true hP⟩

end Run

end Moxia.Lib
