import Mathlib.Init

/-!
# Runs of a step function

A step function takes a state and an action to the next state, where the action can occur. A run under a condition is a sequence
of steps each of which satisfies the condition in the state it is taken in.
-/

namespace Systems

variable {σ α : Type*} {step : σ → α → Option σ} {P Q : σ → α → Prop} {x y z : σ}

/-- `y` is reached from `x` by steps that each satisfy `P` in the state they are taken in. -/
inductive Run (step : σ → α → Option σ) (P : σ → α → Prop) (x : σ) : σ → Prop where
  | refl : Run step P x x
  | tail {y z : σ} {a : α} : Run step P x y → P y a → step y a = some z → Run step P x z

/-- Take actions one after the other, each of which must satisfy `P`. -/
def runAll (step : σ → α → Option σ) (P : σ → α → Prop) [∀ x a, Decidable (P x a)] : σ → List α → Option σ
  | x, [] => some x
  | x, a :: as => if P x a then (step x a).bind (fun y => runAll step P y as) else none

namespace Run

theorem trans (h : Run step P x y) (h' : Run step P y z) : Run step P x z := by
  induction h' with
  | refl => exact h
  | tail _ hp hs ih => exact ih.tail hp hs

theorem single {a : α} (hp : P x a) (hs : step x a = some y) : Run step P x y := refl.tail hp hs

/-- A run under a condition is one under a weaker condition. -/
theorem mono (hPQ : ∀ x a, P x a → Q x a) (h : Run step P x y) : Run step Q x y := by
  induction h with
  | refl => exact refl
  | tail _ hp hs ih => exact ih.tail (hPQ _ _ hp) hs

/-- What holds at the start and is kept by every step under the condition holds at the end. -/
theorem invariant {I : σ → Prop} (hstep : ∀ x a y, I x → P x a → step x a = some y → I y) (h : Run step P x y) (hx : I x) :
    I y := by
  induction h with
  | refl => exact hx
  | tail _ hp hs ih => exact hstep _ _ _ ih hp hs

/-- What a list of actions leads to is reached. -/
theorem runAll [∀ x a, Decidable (P x a)] (h : Run step P x y) {as : List α} (hr : runAll step P y as = some z) :
    Run step P x z := by
  induction as generalizing y with
  | nil =>
    obtain rfl := Option.some.inj hr
    exact h
  | cons a as ih =>
    simp only [Systems.runAll] at hr
    split at hr
    · next hp =>
      obtain ⟨w, hw, hr⟩ := Option.bind_eq_some_iff.mp hr
      exact ih (h.tail hp hw) hr
    · cases hr

end Run

end Systems
