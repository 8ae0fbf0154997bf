import Mathlib.Init

/-!
Pre- and postconditions of programs in the state monad. A triple says that from
every state with the precondition the program ends in a value and a state with
the postcondition; the rules follow the monad's operations.
-/

namespace HZRobot

universe u
variable {σ α β : Type u}

def Triple (P : σ → Prop) (m : StateM σ α) (Q : α → σ → Prop) : Prop :=
  ∀ s, P s → Q (m s).1 (m s).2

theorem Triple.pure {Q : α → σ → Prop} (a : α) : Triple (Q a) (Pure.pure a) Q :=
  fun _ hs => hs

theorem Triple.bind {P : σ → Prop} {R : α → σ → Prop} {Q : β → σ → Prop}
    {m : StateM σ α} {k : α → StateM σ β}
    (hm : Triple P m R) (hk : ∀ a, Triple (R a) (k a) Q) : Triple P (m >>= k) Q :=
  fun s hs => hk (m s).1 (m s).2 (hm s hs)

theorem Triple.consequence {P P' : σ → Prop} {Q Q' : α → σ → Prop} {m : StateM σ α}
    (hP : ∀ s, P s → P' s) (hm : Triple P' m Q') (hQ : ∀ a s, Q' a s → Q a s) :
    Triple P m Q :=
  fun s hs => hQ _ _ (hm s (hP s hs))

theorem Triple.ite {P : σ → Prop} {Q : α → σ → Prop} {c : Prop} [Decidable c]
    {m k : StateM σ α} (hm : c → Triple P m Q) (hk : ¬ c → Triple P k Q) :
    Triple P (if c then m else k) Q := by
  by_cases h : c
  · simpa [h] using hm h
  · simpa [h] using hk h

/-- A fact that does not depend on the state may be assumed outside. -/
theorem Triple.assume {P : σ → Prop} {Q : α → σ → Prop} {m : StateM σ α} {c : Prop}
    (h : c → Triple P m Q) : Triple (fun s => c ∧ P s) m Q :=
  fun s hs => h hs.1 s hs.2

theorem Triple.cases {P P' : σ → Prop} {Q : α → σ → Prop} {m : StateM σ α}
    (h : Triple P m Q) (h' : Triple P' m Q) : Triple (fun s => P s ∨ P' s) m Q := by
  rintro s (hs | hs)
  · exact h s hs
  · exact h' s hs

theorem Triple.exists {ι : Type} {P : ι → σ → Prop} {Q : α → σ → Prop} {m : StateM σ α}
    (h : ∀ i, Triple (P i) m Q) : Triple (fun s => ∃ i, P i s) m Q :=
  fun s ⟨i, hs⟩ => h i s hs

/-- What every program of a list keeps, the programs one after the other keep. -/
theorem Triple.forM {ι : Type} {P : σ → Prop} {k : ι → StateM σ PUnit} {is : List ι}
    (h : ∀ i ∈ is, Triple P (k i) fun _ => P) : Triple P (is.forM k) fun _ => P := by
  induction is with
  | nil => exact Triple.pure (Q := fun _ => P) PUnit.unit
  | cons i is ih =>
      refine Triple.bind (h i (by simp)) fun _ => ?_
      exact ih fun j hj => h j (by simp [hj])

end HZRobot
