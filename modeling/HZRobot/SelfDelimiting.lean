import Mathlib.Data.List.Infix

/-!
Texts that say themselves where they end. A reader looks at the front of a text; what
it finds is found again in front of anything, and a text cut short is refused. Two such
texts, one behind the other, are one.
-/

namespace HZRobot.SelfDelimiting

variable {α β γ : Type*}

/-- A text cut short in the second of two leaves the first one whole. -/
theorem isPrefix_append {s t u : List β} (part : s <+: t ++ u) :
    (s <+: t ∧ s ≠ t) ∨ ∃ v, s = t ++ v ∧ v <+: u := by
  have whole (behind : t <+: s) : ∃ v, s = t ++ v ∧ v <+: u := by
    obtain ⟨v, rfl⟩ := behind
    exact ⟨v, rfl, (List.prefix_append_right_inj t).mp part⟩
  rcases List.prefix_or_prefix_of_prefix part (List.prefix_append t u) with short | long
  · by_cases same : s = t
    · exact .inr (whole (by rw [same]))
    · exact .inl ⟨short, same⟩
  · exact .inr (whole long)

/-- The value at the front of a text, and how many symbols it takes. -/
abbrev Reader (β α : Type*) := List β → Option (α × Nat)

structure Delimits (read : Reader β α) (text : α → List β) : Prop where
  back (a : α) (q : List β) : read (text a ++ q) = some (a, (text a).length)
  cut {a : α} {s : List β} (part : s <+: text a) (proper : s ≠ text a) : read s = none

/-- The second reader goes on where the first one stops. -/
def andThen (first : Reader β α) (second : Reader β γ) : Reader β (α × γ) := fun data =>
  (first data).bind fun x => (second (data.drop x.2)).map fun y => ((x.1, y.1), x.2 + y.2)

theorem andThen_of_some {first : Reader β α} {second : Reader β γ} {data : List β} {a : α} {n : Nat}
    (h : first data = some (a, n)) : andThen first second data =
      (second (data.drop n)).map fun y => ((a, y.1), n + y.2) := by
  rw [andThen, h]
  rfl

theorem andThen_of_none {first : Reader β α} {second : Reader β γ} {data : List β}
    (h : first data = none) : andThen first second data = none := by
  rw [andThen, h]
  rfl

theorem Delimits.andThen {first : Reader β α} {second : Reader β γ} {text : α → List β}
    {text' : γ → List β} (h : Delimits first text) (k : Delimits second text') :
    Delimits (andThen first second) fun x => text x.1 ++ text' x.2 where
  back x q := by
    have front : first (text x.1 ++ text' x.2 ++ q) = some (x.1, (text x.1).length) := by
      rw [List.append_assoc]
      exact h.back x.1 _
    rw [andThen_of_some front, List.append_assoc, List.drop_left, k.back, List.length_append]
    rfl
  cut := by
    intro x s part proper
    rcases isPrefix_append part with inside | ⟨v, rfl, behind⟩
    · exact andThen_of_none (h.cut inside.1 inside.2)
    · have short : v ≠ text' x.2 := fun same => proper (by rw [same])
      rw [andThen_of_some (h.back x.1 v), List.drop_left, k.cut behind short]
      rfl

end HZRobot.SelfDelimiting
