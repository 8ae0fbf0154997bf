import Mathlib.Data.List.Infix

/-!
Decoding calls that take their target and a cursor by reference. An outcome says how
the call ends, what the target holds then, where the cursor is, and what was done on
the way; it is kept when the call does not return true, too.
-/

namespace HZRobot

inductive Status where
  | ok
  | failed
  | threw
  deriving DecidableEq, Repr

structure Decoded (ε α : Type*) where
  status : Status
  value : α
  pos : Nat
  log : List ε
  deriving DecidableEq, Repr

namespace Decoded

variable {ε α β : Type*}

/-- The next call runs when the first one returns true; else the target is what stop makes
of the value so far. -/
def andThen (x : Decoded ε α) (stop : α → β) (next : α → Nat → Decoded ε β) : Decoded ε β :=
  if x.status = .ok then
    { next x.value x.pos with log := x.log ++ (next x.value x.pos).log }
  else ⟨x.status, stop x.value, x.pos, x.log⟩

def map (f : α → β) (x : Decoded ε α) : Decoded ε β := ⟨x.status, f x.value, x.pos, x.log⟩

/-- The call was preceded by these events. -/
def after (events : List ε) (x : Decoded ε α) : Decoded ε α := { x with log := events ++ x.log }

/-- The call returns true and leaves this value and cursor. -/
def Returns (x : Decoded ε α) (value : α) (pos : Nat) : Prop :=
  x.status = .ok ∧ x.value = value ∧ x.pos = pos

theorem Returns.andThen {x : Decoded ε α} {stop : α → β} {next : α → Nat → Decoded ε β} {a : α}
    {b : β} {p q : Nat} (h : x.Returns a p) (k : (next a p).Returns b q) :
    (x.andThen stop next).Returns b q := by
  obtain ⟨ok, rfl, rfl⟩ := h
  rw [Decoded.andThen, if_pos ok]
  exact k

theorem andThen_stopped {x : Decoded ε α} {stop : α → β} {next : α → Nat → Decoded ε β}
    (h : x.status ≠ .ok) : (x.andThen stop next).status = x.status := by
  rw [Decoded.andThen, if_neg h]

theorem andThen_ok {x : Decoded ε α} {stop : α → β} {next : α → Nat → Decoded ε β}
    (h : (x.andThen stop next).status = .ok) : x.status = .ok ∧
      x.andThen stop next =
        { next x.value x.pos with log := x.log ++ (next x.value x.pos).log } := by
  by_cases ok : x.status = .ok
  · exact ⟨ok, if_pos ok⟩
  · rw [andThen_stopped ok] at h
    exact absurd h ok

theorem Returns.map {x : Decoded ε α} {f : α → β} {a : α} {p : Nat} (h : x.Returns a p) :
    (x.map f).Returns (f a) p := by
  obtain ⟨ok, rfl, rfl⟩ := h
  exact ⟨ok, rfl, rfl⟩

/-- The call reads up to bound: it returns when these bytes lie within the limit, and does
not return true when they do not. -/
def ReturnsWithin (limit bound : Nat) (x : Decoded ε α) (value : α) (pos : Nat) : Prop :=
  (bound ≤ limit → x.Returns value pos) ∧ (limit < bound → x.status ≠ .ok)

theorem Returns.within {x : Decoded ε α} {a : α} {p limit bound : Nat} (h : x.Returns a p)
    (le : bound ≤ limit) : x.ReturnsWithin limit bound a p :=
  ⟨fun _ => h, fun lt => absurd le (Nat.not_le_of_lt lt)⟩

theorem ReturnsWithin.andThen {x : Decoded ε α} {stop : α → β} {next : α → Nat → Decoded ε β}
    {limit b c p q : Nat} {a : α} {v : β} (h : x.ReturnsWithin limit b a p) (le : b ≤ c)
    (k : b ≤ limit → (next a p).ReturnsWithin limit c v q) :
    (x.andThen stop next).ReturnsWithin limit c v q := by
  constructor
  · intro inside
    exact (h.1 (le.trans inside)).andThen ((k (le.trans inside)).1 inside)
  · intro outside
    by_cases first : b ≤ limit
    · obtain ⟨ok, rfl, rfl⟩ := h.1 first
      rw [Decoded.andThen, if_pos ok]
      exact (k first).2 outside
    · rw [Decoded.andThen, if_neg (h.2 (Nat.lt_of_not_le first))]
      exact h.2 (Nat.lt_of_not_le first)

theorem ReturnsWithin.after {x : Decoded ε α} {limit b p : Nat} {a : α}
    (h : x.ReturnsWithin limit b a p) (events : List ε) :
    (x.after events).ReturnsWithin limit b a p := h

theorem after_after (x : Decoded ε α) (first last : List ε) :
    (x.after last).after first = x.after (first ++ last) := by
  rw [after, after, after, List.append_assoc]

/-- Whatever value and cursor the call leaves when it returns true, they are like this. -/
def Gives (x : Decoded ε α) (post : α → Nat → Prop) : Prop := x.status = .ok → post x.value x.pos

theorem ReturnsWithin.gives {x : Decoded ε α} {limit bound p : Nat} {a : α}
    (h : x.ReturnsWithin limit bound a p) :
    x.Gives fun b q => b = a ∧ q = p ∧ bound ≤ limit := by
  intro ok
  by_cases inside : bound ≤ limit
  · obtain ⟨-, value, pos⟩ := h.1 inside
    exact ⟨value, pos, inside⟩
  · exact absurd ok (h.2 (Nat.lt_of_not_le inside))

theorem Gives.andThen {x : Decoded ε α} {stop : α → β} {next : α → Nat → Decoded ε β}
    {mid : α → Nat → Prop} {post : β → Nat → Prop} (h : x.Gives mid)
    (k : ∀ a p, mid a p → (next a p).Gives post) : (x.andThen stop next).Gives post := by
  intro ok
  obtain ⟨first, rest⟩ := andThen_ok ok
  rw [rest] at ok ⊢
  exact k _ _ (h first) ok

theorem Gives.mono {x : Decoded ε α} {post post' : α → Nat → Prop} (h : x.Gives post)
    (weaker : ∀ a p, post a p → post' a p) : x.Gives post' := fun ok => weaker _ _ (h ok)

theorem ReturnsWithin.andThen_gives {x : Decoded ε α} {stop : α → β}
    {next : α → Nat → Decoded ε β} {limit bound p : Nat} {a : α} {post : β → Nat → Prop}
    (h : x.ReturnsWithin limit bound a p) (k : bound ≤ limit → (next a p).Gives post) :
    (x.andThen stop next).Gives post := by
  refine h.gives.andThen fun b q same => ?_
  obtain ⟨rfl, rfl, inside⟩ := same
  exact k inside

theorem Returns.andThen_gives {x : Decoded ε α} {stop : α → β} {next : α → Nat → Decoded ε β}
    {p : Nat} {a : α} {post : β → Nat → Prop} (h : x.Returns a p) (k : (next a p).Gives post) :
    (x.andThen stop next).Gives post := by
  obtain ⟨ok, rfl, rfl⟩ := h
  rw [Decoded.andThen, if_pos ok]
  exact k

theorem Returns.gives_of_andThen {x : Decoded ε α} {stop : α → β}
    {next : α → Nat → Decoded ε β} {p : Nat} {a : α} {post : β → Nat → Prop} (h : x.Returns a p)
    (gives : (x.andThen stop next).Gives post) : (next a p).Gives post := by
  obtain ⟨ok, rfl, rfl⟩ := h
  rw [Decoded.andThen, if_pos ok] at gives
  exact gives

theorem Returns.gives {x : Decoded ε α} {p : Nat} {a : α} {post : α → Nat → Prop}
    (h : x.Returns a p) (k : post a p) : x.Gives post := by
  obtain ⟨-, rfl, rfl⟩ := h
  exact fun _ => k

/-- Where the call stops when it returns true. -/
def stop (x : Decoded ε α) : Option Nat := if x.status = .ok then some x.pos else none

theorem stop_andThen (x : Decoded ε α) (stop : α → β) (next : α → Nat → Decoded ε β) :
    (x.andThen stop next).stop = x.stop.bind fun p => (next x.value p).stop := by
  unfold Decoded.andThen
  split
  · case isTrue ok => simp [Decoded.stop, ok]
  · case isFalse stopped => simp [Decoded.stop, stopped]

theorem mem_log_andThen {x : Decoded ε α} {stop : α → β} {next : α → Nat → Decoded ε β} {e : ε} :
    e ∈ (x.andThen stop next).log ↔
      e ∈ x.log ∨ ∃ p ∈ x.stop, e ∈ (next x.value p).log := by
  unfold Decoded.andThen
  split
  · case isTrue ok => simp [Decoded.stop, ok]
  · case isFalse stopped => simp [Decoded.stop, stopped]

end Decoded

end HZRobot
