import Mathlib.Order.Bounds.Basic
import Mathlib.Tactic.Common

/-!
# First fit

Looking for the lowest window of `n` consecutive numbers that all satisfy `p`, from `lo` on and
below `hi`. A number that does not satisfy `p` rules out every window around it, so that a search
may go on behind it (`FirstFit.skip`).
-/

namespace Moxia.Lib

variable {p : Nat → Prop} {lo hi n s f : Nat} {r : Option Nat}

/-- The `n` numbers from `s` on are below `hi` and satisfy `p`. -/
structure Window (p : Nat → Prop) (hi n s : Nat) : Prop where
  le : s + n ≤ hi
  all : ∀ f, s ≤ f → f < s + n → p f

/-- `r` is the lowest window from `lo` on, if there is one. -/
def FirstFit (p : Nat → Prop) (lo hi n : Nat) : Option Nat → Prop
  | some s => IsLeast { s | lo ≤ s ∧ Window p hi n s } s
  | none => ∀ s, lo ≤ s → ¬ Window p hi n s

theorem Window.lt_of_not (h : Window p hi n s) (hlo : lo ≤ s) (hf : f < lo + n)
    (hp : ¬ p f) : f < s := by
  by_contra hle
  exact hp (h.all f (by omega) (by omega))

namespace FirstFit

theorem here (h : Window p hi n s) : FirstFit p s hi n (some s) :=
  ⟨⟨Nat.le_refl s, h⟩, fun _ hs => hs.1⟩

theorem past (h : hi < lo + n) : FirstFit p lo hi n none := by
  intro s hs hw
  have := hw.le
  omega

theorem skip (h : FirstFit p (f + 1) hi n r) (hlo : lo ≤ f) (hf : f < lo + n) (hp : ¬ p f) :
    FirstFit p lo hi n r := by
  cases r with
  | none => exact fun s hs hw => h s (hw.lt_of_not hs hf hp) hw
  | some r =>
    obtain ⟨⟨hle, hw⟩, hleast⟩ := h
    exact ⟨⟨by omega, hw⟩, fun s hs => hleast ⟨hs.2.lt_of_not hs.1 hf hp, hs.2⟩⟩

end FirstFit

end Moxia.Lib
