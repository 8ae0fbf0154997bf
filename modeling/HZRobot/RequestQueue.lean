import HZRobot.Transition

/-!
The request queue between any number of threads. What a thread does between taking the
mutex and giving it back is one step, since every access of the list is made under it. A
thread that finds the list empty waits, and has to take the mutex again once it is woken,
whether by notify_one or for no reason.
-/

namespace HZRobot.RequestQueue

section Queue

variable {α τ : Type}

structure System (α τ : Type) where
  /-- m_list -/
  items : List α
  /-- The threads in m_condGet.wait. -/
  waiting : List τ
  /-- The threads that are woken and want the mutex. -/
  woken : List τ
  /-- What Put got, and what Get handed out and to whom. -/
  puts : List α
  gets : List (τ × α)
  deriving DecidableEq, Repr

def created : System α τ := ⟨[], [], [], [], []⟩

inductive Action (α τ : Type) where
  /-- notify_one wakes this thread, or none. -/
  | put (item : α) (wakes : Option τ)
  | get (thread : τ)
  /-- A woken thread has the mutex again. -/
  | resume (thread : τ)
  | spurious (thread : τ)
  | erase (item : α)
  | queueClean
  deriving DecidableEq, Repr

/-- The loop of Get, from where the thread has the mutex. -/
def takeOrWait (s : System α τ) (thread : τ) : System α τ :=
  match s.items with
  | [] => { s with waiting := s.waiting ++ [thread] }
  | item :: rest => { s with items := rest, gets := s.gets ++ [(thread, item)] }

def put (s : System α τ) (item : α) : System α τ := { s with
  items := s.items ++ [item]
  puts := s.puts ++ [item] }

variable [DecidableEq α] [DecidableEq τ]

def wake (s : System α τ) (thread : τ) : System α τ := { s with
  waiting := s.waiting.erase thread
  woken := s.woken ++ [thread] }

def step (s : System α τ) : Action α τ → Option (System α τ)
  | .put item none => if s.waiting = [] then some (put s item) else none
  | .put item (some thread) => if thread ∈ s.waiting then some (wake (put s item) thread) else none
  | .get thread =>
      if thread ∈ s.waiting ∨ thread ∈ s.woken then none else some (takeOrWait s thread)
  | .resume thread =>
      if thread ∈ s.woken then
        some (takeOrWait { s with woken := s.woken.erase thread } thread)
      else none
  | .spurious thread => if thread ∈ s.waiting then some (wake s thread) else none
  | .erase item => some { s with items := s.items.erase item }
  | .queueClean => some { s with items := [] }

end Queue

section Properties

variable {α τ : Type}

/-- What was handed out, in this order. -/
def System.taken (s : System α τ) : List α := s.gets.map Prod.snd

/-- Everything that was put is handed out or in the list, in the order of the puts. -/
def Complete (s : System α τ) : Prop := s.taken ++ s.items = s.puts

/-- What is handed out or in the list was put, in this order. -/
def Ordered (s : System α τ) : Prop := (s.taken ++ s.items).Sublist s.puts

/-- Where a thread waits, there is a woken one for each item of the list. -/
def Signalled (s : System α τ) : Prop := s.waiting = [] ∨ s.items.length ≤ s.woken.length

/-- Nothing that is in the list is erased or cleaned away. -/
def Spares (s : System α τ) : Action α τ → Prop
  | .erase item => item ∉ s.items
  | .queueClean => s.items = []
  | _ => True

theorem takeOrWait_keeps (s : System α τ) (thread : τ) :
    (takeOrWait s thread).taken ++ (takeOrWait s thread).items = s.taken ++ s.items ∧
      (takeOrWait s thread).puts = s.puts := by
  unfold takeOrWait
  cases items : s.items with
  | nil => exact ⟨by simp [System.taken], rfl⟩
  | cons item rest => exact ⟨by simp [System.taken], rfl⟩

theorem takeOrWait_signalled {s : System α τ} {thread : τ}
    (enough : s.waiting = [] ∨ s.items.length ≤ s.woken.length + 1) :
    Signalled (takeOrWait s thread) := by
  unfold takeOrWait
  cases items : s.items with
  | nil => exact .inr (Nat.zero_le _)
  | cons item rest =>
      rw [items] at enough
      exact enough.imp_right Nat.le_of_succ_le_succ

theorem put_taken (s : System α τ) (item : α) :
    (put s item).taken ++ (put s item).items = s.taken ++ s.items ++ [item] :=
  (List.append_assoc _ _ _).symm

end Properties

section Steps

variable {α τ : Type} [DecidableEq α] [DecidableEq τ]

/-- What each action does, where it is enabled. -/
theorem step_cases {s t : System α τ} {a : Action α τ} (taken : step s a = some t) :
    match a with
    | .put item none => s.waiting = [] ∧ t = put s item
    | .put item (some thread) => thread ∈ s.waiting ∧ t = wake (put s item) thread
    | .get thread => t = takeOrWait s thread
    | .resume thread => thread ∈ s.woken ∧
        t = takeOrWait { s with woken := s.woken.erase thread } thread
    | .spurious thread => thread ∈ s.waiting ∧ t = wake s thread
    | .erase item => t = { s with items := s.items.erase item }
    | .queueClean => t = { s with items := [] } := by
  cases a with
  | put item wakes =>
      cases wakes with
      | none =>
          rw [step] at taken
          split at taken
          · case isTrue none_ => exact ⟨none_, (Option.some.inj taken).symm⟩
          · cases taken
      | some thread =>
          rw [step] at taken
          split at taken
          · case isTrue waits => exact ⟨waits, (Option.some.inj taken).symm⟩
          · cases taken
  | get thread =>
      rw [step] at taken
      split at taken
      · cases taken
      · exact (Option.some.inj taken).symm
  | resume thread =>
      rw [step] at taken
      split at taken
      · case isTrue awake => exact ⟨awake, (Option.some.inj taken).symm⟩
      · cases taken
  | spurious thread =>
      rw [step] at taken
      split at taken
      · case isTrue waits => exact ⟨waits, (Option.some.inj taken).symm⟩
      · cases taken
  | erase item => exact (Option.some.inj taken).symm
  | queueClean => exact (Option.some.inj taken).symm

theorem step_ordered (s : System α τ) (a : Action α τ) (t : System α τ) (h : Ordered s)
    (taken : step s a = some t) : Ordered t := by
  have putting (item : α) : Ordered (put s item) := by
    rw [Ordered, put_taken]
    exact h.append (List.Sublist.refl [item])
  have what := step_cases taken
  cases a with
  | put item wakes =>
      cases wakes with
      | none =>
          rw [what.2]
          exact putting item
      | some thread =>
          rw [what.2]
          exact putting item
  | get thread =>
      obtain ⟨same, puts⟩ := takeOrWait_keeps s thread
      rw [what, Ordered, same, puts]
      exact h
  | resume thread =>
      obtain ⟨same, puts⟩ := takeOrWait_keeps { s with woken := s.woken.erase thread } thread
      rw [what.2, Ordered, same, puts]
      exact h
  | spurious thread =>
      rw [what.2]
      exact h
  | erase item =>
      rw [what]
      exact ((List.Sublist.refl s.taken).append List.erase_sublist).trans h
  | queueClean =>
      rw [what]
      exact ((List.Sublist.refl s.taken).append (List.nil_sublist s.items)).trans h

theorem step_signalled (s : System α τ) (a : Action α τ) (t : System α τ) (h : Signalled s)
    (taken : step s a = some t) : Signalled t := by
  have what := step_cases taken
  -- a waiting thread that is woken leaves the bound for the others
  have counted {thread : τ} (waits : thread ∈ s.waiting) : s.items.length ≤ s.woken.length :=
    h.resolve_left (List.ne_nil_of_mem waits)
  cases a with
  | put item wakes =>
      cases wakes with
      | none =>
          rw [what.2]
          exact .inl what.1
      | some thread =>
          rw [what.2]
          refine .inr ?_
          show (s.items ++ [item]).length ≤ (s.woken ++ [thread]).length
          rw [List.length_append, List.length_append]
          exact Nat.succ_le_succ (counted what.1)
  | get thread =>
      rw [what]
      exact takeOrWait_signalled (h.imp_right Nat.le_succ_of_le)
  | resume thread =>
      rw [what.2]
      refine takeOrWait_signalled (h.imp_right fun enough => ?_)
      have some_ := List.length_pos_of_mem what.1
      show s.items.length ≤ (s.woken.erase thread).length + 1
      rw [List.length_erase_of_mem what.1]
      omega
  | spurious thread =>
      rw [what.2]
      refine .inr ?_
      show s.items.length ≤ (s.woken ++ [thread]).length
      rw [List.length_append]
      exact Nat.le_succ_of_le (counted what.1)
  | erase item =>
      rw [what]
      exact h.imp_right (List.erase_sublist.length_le).trans
  | queueClean =>
      rw [what]
      exact .inr (Nat.zero_le _)

theorem step_complete_iff (s : System α τ) (a : Action α τ) (t : System α τ) (h : Complete s)
    (taken : step s a = some t) : Complete t ↔ Spares s a := by
  have putting (item : α) : Complete (put s item) := by
    rw [Complete, put_taken, h]
    rfl
  have what := step_cases taken
  cases a with
  | put item wakes =>
      cases wakes with
      | none =>
          rw [what.2]
          exact iff_of_true (putting item) trivial
      | some thread =>
          rw [what.2]
          exact iff_of_true (putting item) trivial
  | get thread =>
      obtain ⟨same, puts⟩ := takeOrWait_keeps s thread
      rw [what, Complete, same, puts]
      exact iff_of_true h trivial
  | resume thread =>
      obtain ⟨same, puts⟩ := takeOrWait_keeps { s with woken := s.woken.erase thread } thread
      rw [what.2, Complete, same, puts]
      exact iff_of_true h trivial
  | spurious thread =>
      rw [what.2]
      exact iff_of_true h trivial
  | erase item =>
      rw [what]
      show s.taken ++ s.items.erase item = s.puts ↔ item ∉ s.items
      rw [← show s.taken ++ s.items = s.puts from h, List.append_cancel_left_eq,
        List.erase_eq_self_iff]
  | queueClean =>
      rw [what]
      show s.taken ++ [] = s.puts ↔ s.items = []
      rw [← show s.taken ++ s.items = s.puts from h, List.append_cancel_left_eq]
      exact eq_comm

/-- Along every run items are handed out in the order of the puts, each at most once. Where
items are left and threads wait, one of them has been woken and gets the next item when it
has the mutex. Nothing is lost throughout exactly when nothing in the list is erased. -/
theorem queue_serves {schedule : List (Action α τ)} {s : System α τ}
    (run : runs step created schedule = some s) :
    (s.taken ++ s.items).Sublist s.puts ∧
      (∀ item rest, s.items = item :: rest → s.waiting ≠ [] →
        ∃ thread ∈ s.woken, ∃ t, step s (.resume thread) = some t ∧
          t.gets = s.gets ++ [(thread, item)] ∧ t.items = rest) ∧
      (Throughout step Complete created schedule ↔ StepsMeet step Spares created schedule) := by
  have signalled : Signalled s := runs_invariant step_signalled run (.inl rfl)
  refine ⟨runs_invariant step_ordered run (List.Sublist.refl []), ?_,
    throughout_iff_stepsMeet step_complete_iff run rfl⟩
  intro item rest items waits
  have enough := signalled.resolve_left waits
  rw [items] at enough
  obtain ⟨thread, awake⟩ := List.exists_mem_of_length_pos (Nat.lt_of_lt_of_le (Nat.succ_pos _) enough)
  refine ⟨thread, awake, _, if_pos awake, ?_, ?_⟩
  · rw [takeOrWait, items]
  · rw [takeOrWait, items]

/-- Two threads wait, and one is woken for the item that is put. -/
theorem queue_serves_two : ([] ++ [1]).Sublist [1] ∧
    (∀ item rest, [1] = item :: rest → [true] ≠ [] →
      ∃ thread ∈ [false], ∃ t,
        step ⟨[1], [true], [false], [1], []⟩ (.resume thread) = some t ∧
          t.gets = [] ++ [(thread, item)] ∧ t.items = rest) ∧
    (Throughout step Complete created [.get false, .get true, .put 1 (some false)] ↔
      StepsMeet step Spares created [.get false, .get true, .put 1 (some false)]) := by
  have run : runs step created [.get false, .get true, .put 1 (some false)] =
      some (⟨[1], [true], [false], [1], []⟩ : System Nat Bool) := by decide
  exact queue_serves run

end Steps

end HZRobot.RequestQueue
