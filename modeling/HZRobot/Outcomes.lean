import Mathlib.Init

/-!
Programs with a state that may stop with an error. The state keeps an invariant; what a
program ends with is a result that it promises, or an error that is allowed for.
-/

namespace HZRobot

universe u
variable {σ ε α β : Type u}

/-- An outcome is a result with this property or one of these errors. -/
def Meets (allowed : ε → Prop) (promise : α → Prop) : Except ε α → Prop
  | .ok a => promise a
  | .error e => allowed e

theorem Meets.mono {allowed : ε → Prop} {promise promise' : α → Prop} {x : Except ε α}
    (h : Meets allowed promise x) (weaker : ∀ a, promise a → promise' a) :
    Meets allowed promise' x := by
  cases x with
  | ok a => exact weaker a h
  | error e => exact h

theorem Meets.allow {allowed allowed' : ε → Prop} {promise : α → Prop} {x : Except ε α}
    (h : Meets allowed promise x) (more : ∀ e, allowed e → allowed' e) :
    Meets allowed' promise x := by
  cases x with
  | ok a => exact h
  | error e => exact more e h

theorem Meets.map {allowed : ε → Prop} {promise : β → Prop} {f : α → β} {x : Except ε α}
    (h : Meets allowed (fun a => promise (f a)) x) : Meets allowed promise (x.map f) := by
  cases x with
  | ok a => exact h
  | error e => exact h

theorem Meets.bind {allowed : ε → Prop} {first : α → Prop} {promise : β → Prop}
    {x : Except ε α} {f : α → Except ε β} (h : Meets allowed first x)
    (k : ∀ a, first a → Meets allowed promise (f a)) : Meets allowed promise (x.bind f) := by
  cases x with
  | ok a => exact k a h
  | error e => exact h

/-- From every state with the precondition the program ends in a result and a state with the
postcondition, or stops with an allowed error. -/
def Ends (allowed : ε → Prop) (pre : σ → Prop) (m : StateT σ (Except ε) α)
    (post : α → σ → Prop) : Prop :=
  ∀ s, pre s → Meets allowed (fun r => post r.1 r.2) (m s)

variable {allowed : ε → Prop} {pre : σ → Prop}

theorem Ends.pure {post : α → σ → Prop} {a : α} (h : ∀ s, pre s → post a s) :
    Ends allowed pre (pure a) post :=
  fun s hs => h s hs

theorem Ends.bind {mid : α → σ → Prop} {post : β → σ → Prop} {m : StateT σ (Except ε) α}
    {k : α → StateT σ (Except ε) β} (hm : Ends allowed pre m mid)
    (hk : ∀ a, Ends allowed (mid a) (k a) post) : Ends allowed pre (m >>= k) post := by
  intro s hs
  have start := hm s hs
  show Meets allowed _ ((m s).bind fun r => k r.1 r.2)
  cases outcome : m s with
  | error e =>
      rw [outcome] at start
      exact start
  | ok r =>
      rw [outcome] at start
      exact hk r.1 r.2 start

theorem Ends.throw {post : α → σ → Prop} {e : ε} (h : allowed e) :
    Ends allowed pre (throw e : StateT σ (Except ε) α) post :=
  fun _ _ => h

/-- A computation without the state leaves it as it is. -/
theorem Ends.lift {promise : α → Prop} {x : Except ε α} (h : Meets allowed promise x) :
    Ends allowed pre (liftM x : StateT σ (Except ε) α) fun a s => promise a ∧ pre s := by
  intro s hs
  cases x with
  | ok a => exact ⟨h, hs⟩
  | error e => exact h

theorem Ends.mono {post post' : α → σ → Prop} {m : StateT σ (Except ε) α}
    (h : Ends allowed pre m post) (weaker : ∀ a s, post a s → post' a s) :
    Ends allowed pre m post' :=
  fun s hs => (h s hs).mono fun r => weaker r.1 r.2

end HZRobot
