import Mathlib.Data.List.Infix

/-!
Runs of a partial transition function. A schedule is the list of actions taken;
an action that is not enabled ends the schedule without a state. One invariant
rule serves every state machine of the development.
-/

namespace HZRobot

variable {σ α : Type*}

/-- The state after a whole schedule, when every action of it was enabled. -/
def runs (step : σ → α → Option σ) : σ → List α → Option σ
  | s, [] => some s
  | s, a :: as => (step s a).bind fun t => runs step t as

def Reachable (step : σ → α → Option σ) (init s : σ) : Prop :=
  ∃ schedule, runs step init schedule = some s

/-- What one step preserves, a whole run preserves. -/
theorem runs_invariant {step : σ → α → Option σ} {P : σ → Prop}
    (preserved : ∀ s a t, P s → step s a = some t → P t) {s t : σ}
    {schedule : List α} (run : runs step s schedule = some t) (hs : P s) : P t := by
  induction schedule generalizing s with
  | nil =>
      cases run
      exact hs
  | cons a as ih =>
      obtain ⟨u, hu, rest⟩ := Option.bind_eq_some_iff.mp run
      exact ih rest (preserved s a u hs hu)

theorem Reachable.invariant {step : σ → α → Option σ} {P : σ → Prop} {init s : σ}
    (start : P init) (preserved : ∀ s a t, P s → step s a = some t → P t)
    (h : Reachable step init s) : P s := by
  obtain ⟨schedule, run⟩ := h
  exact runs_invariant preserved run start

/-- Every action of the schedule meets the condition in the state it is taken in. -/
def StepsMeet (step : σ → α → Option σ) (C : σ → α → Prop) : σ → List α → Prop
  | _, [] => True
  | s, a :: as => C s a ∧ ∀ t ∈ step s a, StepsMeet step C t as

instance StepsMeet.decidable (step : σ → α → Option σ) (C : σ → α → Prop)
    [∀ s a, Decidable (C s a)] : ∀ s schedule, Decidable (StepsMeet step C s schedule)
  | _, [] => .isTrue trivial
  | s, a :: as =>
      have (t : σ) : Decidable (StepsMeet step C t as) := StepsMeet.decidable step C t as
      inferInstanceAs (Decidable (C s a ∧ ∀ t ∈ step s a, StepsMeet step C t as))

/-- What the steps that meet a condition preserve, a run of such steps preserves. -/
theorem runs_invariant_of_steps {step : σ → α → Option σ} {C : σ → α → Prop} {P : σ → Prop}
    (preserved : ∀ s a t, C s a → P s → step s a = some t → P t) {s t : σ}
    {schedule : List α} (meet : StepsMeet step C s schedule)
    (run : runs step s schedule = some t) (hs : P s) : P t := by
  induction schedule generalizing s with
  | nil =>
      cases run
      exact hs
  | cons a as ih =>
      obtain ⟨u, hu, rest⟩ := Option.bind_eq_some_iff.mp run
      exact ih (meet.2 u hu) rest (preserved s a u meet.1 hs hu)

/-- The property holds in every state of the run. -/
def Throughout (step : σ → α → Option σ) (P : σ → Prop) : σ → List α → Prop
  | s, [] => P s
  | s, a :: as => P s ∧ ∀ t ∈ step s a, Throughout step P t as

/-- When a condition decides for each step whether the property survives it, the
property holds throughout a run exactly when every step meets the condition. -/
theorem throughout_iff_stepsMeet {step : σ → α → Option σ} {P : σ → Prop}
    {C : σ → α → Prop} (exact : ∀ s a t, P s → step s a = some t → (P t ↔ C s a)) {s t : σ}
    {schedule : List α} (run : runs step s schedule = some t) (hs : P s) :
    Throughout step P s schedule ↔ StepsMeet step C s schedule := by
  induction schedule generalizing s with
  | nil => exact ⟨fun _ => trivial, fun _ => hs⟩
  | cons a as ih =>
      obtain ⟨u, hu, rest⟩ := Option.bind_eq_some_iff.mp run
      have only : ∀ v ∈ step s a, v = u := fun v hv => Option.some.inj (hv.symm.trans hu)
      constructor
      · intro ⟨_, later⟩
        have held : Throughout step P u as := later u hu
        have hu' : P u := by
          cases as with
          | nil => exact held
          | cons b bs => exact held.1
        refine ⟨(exact s a u hs hu).mp hu', fun v hv => ?_⟩
        rw [only v hv]
        exact (ih rest hu').mp held
      · intro ⟨now, later⟩
        have hu' : P u := (exact s a u hs hu).mpr now
        refine ⟨hs, fun v hv => ?_⟩
        rw [only v hv]
        exact (ih rest hu').mpr (later u hu)

/-- What is invariant anyway may be added to a property of all states. -/
theorem throughout_and {step : σ → α → Option σ} {I P : σ → Prop}
    (preserved : ∀ s a t, I s → step s a = some t → I t) {s : σ} {schedule : List α} (hs : I s) :
    Throughout step P s schedule ↔ Throughout step (fun u => I u ∧ P u) s schedule := by
  induction schedule generalizing s with
  | nil => exact ⟨fun h => ⟨hs, h⟩, fun h => h.2⟩
  | cons a as ih =>
      constructor
      · intro ⟨now, later⟩
        exact ⟨⟨hs, now⟩, fun t ht => (ih (preserved s a t hs ht)).mp (later t ht)⟩
      · intro ⟨now, later⟩
        exact ⟨now.2, fun t ht => (ih (preserved s a t hs ht)).mpr (later t ht)⟩

end HZRobot
