import Mathlib.Data.List.Basic

/-!
Machines that answer every call. A run gives the list of answers; a relation that every
call keeps, and under which both machines answer alike, makes the runs of two machines
indistinguishable.
-/

namespace HZRobot

variable {σ τ α ο : Type*}

/-- The answers of a run. -/
def outputs (step : σ → α → σ × ο) : σ → List α → List ο
  | _, [] => []
  | s, a :: as => (step s a).2 :: outputs step (step s a).1 as

/-- One call of both machines: the same answer, and states that are related again. -/
def Simulates (step : σ → α → σ × ο) (spec : τ → α → τ × ο) (R : σ → τ → Prop) : Prop :=
  ∀ s t a, R s t → (step s a).2 = (spec t a).2 ∧ R (step s a).1 (spec t a).1

theorem Simulates.outputs_eq {step : σ → α → σ × ο} {spec : τ → α → τ × ο}
    {R : σ → τ → Prop} (sim : Simulates step spec R) {s : σ} {t : τ} (h : R s t)
    (as : List α) : outputs step s as = outputs spec t as := by
  induction as generalizing s t with
  | nil => rfl
  | cons a as ih =>
      obtain ⟨same, related⟩ := sim s t a h
      rw [outputs, outputs, same, ih related]

end HZRobot
