import HZRobot.TaskMangerLocks

/-!
What the history of a run says about the tasks. Every task put in the list has
either been deleted, or is with the poller that owns task_mutex, or is still in
the list, in this order; the pushers' counters tell the put tasks from the
pending ones. execute_after is justified by an earlier valid execute and never
follows the deletion.
-/

namespace HZRobot.TaskManger

def Event.product? : Event → List Nat
  | .product t => [t]
  | _ => []

def Event.put? : Event → List Nat
  | .put t => [t]
  | _ => []

def Event.pop? : Event → List Nat
  | .pop t => [t]
  | _ => []

def Event.execute? : Event → List Nat
  | .execute t => [t]
  | _ => []

def Event.delete? : Event → List Nat
  | .delete t => [t]
  | _ => []

/-- The tasks in the order start_product was called with them. -/
def products (h : List Event) : List Nat := h.flatMap Event.product?

/-- The tasks in the order Put appended them. -/
def puts (h : List Event) : List Nat := h.flatMap Event.put?

/-- The tasks in the order Get took them. -/
def pops (h : List Event) : List Nat := h.flatMap Event.pop?

/-- The tasks in the order taskPoll executed them. -/
def executions (h : List Event) : List Nat := h.flatMap Event.execute?

/-- The finished tasks, in the order they were deleted. -/
def deletes (h : List Event) : List Nat := h.flatMap Event.delete?

section
variable (h : List Event) (e : Event)

@[simp] theorem products_log : products (h ++ [e]) = products h ++ e.product? := by
  simp [products]

@[simp] theorem puts_log : puts (h ++ [e]) = puts h ++ e.put? := by
  simp [puts]

@[simp] theorem pops_log : pops (h ++ [e]) = pops h ++ e.pop? := by
  simp [pops]

@[simp] theorem executions_log : executions (h ++ [e]) = executions h ++ e.execute? := by
  simp [executions]

@[simp] theorem deletes_log : deletes (h ++ [e]) = deletes h ++ e.delete? := by
  simp [deletes]

theorem mem_deletes {t : Nat} : t ∈ deletes h ↔ .delete t ∈ h := by
  simp only [deletes, List.mem_flatMap]
  constructor
  · rintro ⟨e, he, ht⟩
    cases e <;> simp [Event.delete?] at ht
    exact ht ▸ he
  · exact fun he => ⟨_, he, by simp [Event.delete?]⟩

end

def PusherPc.hasPut : PusherPc → Bool
  | .notifying | .unlocking | .done => true
  | _ => false

/-- The task between its Get and its delete. -/
def PollerPc.task : PollerPc → List Nat
  | .got t | .executing t | .executed t _ | .executingAfter t | .deleting t => [t]
  | _ => []

/-- The task whose execute has been entered. -/
def PollerPc.begun : PollerPc → List Nat
  | .executing t | .executed t _ | .executingAfter t | .deleting t => [t]
  | _ => []

/-- The task of the poller that owns task_mutex. -/
def System.current (s : System) : List Nat :=
  match s.taskMutex with
  | some i => (s.poller i).task
  | none => []

def System.begun (s : System) : List Nat :=
  match s.taskMutex with
  | some i => (s.poller i).begun
  | none => []

def Event.isAfter (t : Nat) (e : Event) : Prop :=
  e = .executeAfter t ∨ e = .executedAfter t

/-- Each execute_after event comes after a valid execute and before the delete. -/
def Justified (h : List Event) : Prop :=
  ∀ before e later t, h = before ++ e :: later → e.isAfter t →
    .executed t true ∈ before ∧ .delete t ∉ before

theorem justified_log {h : List Event} {e : Event} (hh : Justified h)
    (he : ∀ t, e.isAfter t → .executed t true ∈ h ∧ .delete t ∉ h) :
    Justified (h ++ [e]) := by
  intro before x later t split isAfter
  rcases List.eq_nil_or_concat later with rfl | ⟨later, last, rfl⟩
  · obtain ⟨rfl, hx⟩ := List.append_inj' split rfl
    cases hx
    exact he t isAfter
  · rw [List.concat_eq_append, ← List.cons_append, ← List.append_assoc] at split
    obtain ⟨rfl, -⟩ := List.append_inj' split rfl
    exact hh before x later t rfl isAfter

/-- The pushers' side: the list is what was put and not yet popped. -/
structure Listed (s : System) : Prop where
  produced : products s.history = List.range s.next
  listed : puts s.history = pops s.history ++ s.mList
  put : ∀ t, t ∈ puts s.history ↔ (s.pusher t).hasPut = true
  nodup : (puts s.history).Nodup

/-- The poller's side: what was popped is deleted or in hand. -/
structure Served (s : System) : Prop where
  served : pops s.history = deletes s.history ++ s.current
  begun : executions s.history = deletes s.history ++ s.begun
  vaild : ∀ i t, s.poller i = .executed t true ∨ s.poller i = .executingAfter t →
    .executed t true ∈ s.history

theorem listed_init : Listed init := by
  constructor <;> simp [init, products, puts, pops, PusherPc.hasPut]

theorem served_init : Served init := by
  constructor <;> simp [init, pops, executions, deletes, System.current, System.begun]

attribute [local grind] PollerPc.holdsTask PusherPc.hasPut PollerPc.task PollerPc.begun
  Event.product? Event.put? Event.pop? Event.execute? Event.delete? System.current System.begun
attribute [local grind =] Function.update_apply products_log puts_log pops_log executions_log
  deletes_log List.range_succ

theorem listed_step (s : System) (a : Action) (t : System) (hl : Locked s)
    (hs : Listed s) (h : step s a = some t) : Listed t := by
  obtain ⟨produced, listed, put, nodup⟩ := hs
  have fresh := hl.freshPusher
  cases a <;>
    simp only [step, System.setCaller, System.setPusher, System.setPoller, System.log,
      Option.ite_none_right_eq_some, Option.some.injEq] at h
  case getCheck i =>
      obtain ⟨g, h⟩ := h
      split at h <;> cases h
      all_goals constructor <;> grind
  case getPop i =>
      obtain ⟨g, h⟩ := h
      split at h <;> cases h
      all_goals constructor <;> grind
  case afterBegin i u valid =>
      obtain ⟨g, h⟩ := h
      cases valid <;> cases h
      all_goals constructor <;> grind
  all_goals
    obtain ⟨g, rfl⟩ := h
    constructor <;> grind

theorem served_step (s : System) (a : Action) (t : System) (hl : Locked s)
    (hs : Served s) (h : step s a = some t) : Served t := by
  obtain ⟨served, begun, vaild⟩ := hs
  have owner := hl.taskMutex
  have freshPoller := hl.freshPoller
  cases a <;>
    simp only [step, System.setCaller, System.setPusher, System.setPoller, System.log,
      Option.ite_none_right_eq_some, Option.some.injEq] at h
  case getCheck i =>
      obtain ⟨g, h⟩ := h
      split at h <;> cases h
      all_goals constructor <;> grind
  case getPop i =>
      obtain ⟨g, h⟩ := h
      have nonempty := hl.checked i g
      split at h
      · contradiction
      · cases h
        constructor <;> grind
  case afterBegin i u valid =>
      obtain ⟨g, h⟩ := h
      cases valid <;> cases h
      all_goals constructor <;> grind
  all_goals
    obtain ⟨g, rfl⟩ := h
    constructor <;> grind

/-- The poller past Get is the owner, so its task is the current one. -/
theorem current_of_task {s : System} (hl : Locked s) {i : Nat} {t : Nat}
    (ht : t ∈ (s.poller i).task) : s.current = (s.poller i).task := by
  have owner : s.taskMutex = some i := (hl.taskMutex i).mpr (by cases hpc : s.poller i <;> grind)
  simp [System.current, owner]

theorem current_not_deleted {s : System} (hp : Listed s) (hs : Served s) {t : Nat}
    (ht : t ∈ s.current) : t ∉ deletes s.history := by
  have nodup := hp.nodup
  rw [hp.listed, hs.served, List.append_assoc] at nodup
  intro deleted
  exact (List.nodup_append.mp nodup).2.2 t deleted t (List.mem_append_left _ ht) rfl

theorem justified_step (s : System) (a : Action) (t : System) (hl : Locked s)
    (hp : Listed s) (hs : Served s) (hj : Justified s.history) (h : step s a = some t) :
    Justified t.history := by
  cases a <;>
    simp only [step, System.setCaller, System.setPusher, System.setPoller, System.log,
      Option.ite_none_right_eq_some, Option.some.injEq] at h
  case getCheck i =>
      obtain ⟨g, h⟩ := h
      split at h <;> cases h <;> exact hj
  case getPop i =>
      obtain ⟨g, h⟩ := h
      split at h <;> cases h
      · exact hj
      · exact justified_log hj (by simp [Event.isAfter])
  case afterBegin i u valid =>
      obtain ⟨g, h⟩ := h
      cases valid <;> cases h
      · exact hj
      · have mem : u ∈ (s.poller i).task := by simp [g, PollerPc.task]
        have kept := current_not_deleted hp hs (current_of_task hl mem ▸ mem)
        refine justified_log hj fun v isAfter => ?_
        obtain rfl : u = v := by simpa [Event.isAfter] using isAfter
        exact ⟨hs.vaild i u (.inl g), (mem_deletes _).not.mp kept⟩
  case afterEnd i u =>
      obtain ⟨g, rfl⟩ := h
      have mem : u ∈ (s.poller i).task := by simp [g, PollerPc.task]
      have kept := current_not_deleted hp hs (current_of_task hl mem ▸ mem)
      refine justified_log hj fun v isAfter => ?_
      obtain rfl : u = v := by simpa [Event.isAfter] using isAfter
      exact ⟨hs.vaild i u (.inr g), (mem_deletes _).not.mp kept⟩
  all_goals
    obtain ⟨g, rfl⟩ := h
    first
    | exact hj
    | exact justified_log hj (by simp [Event.isAfter])

structure Sound (s : System) : Prop where
  locked : Locked s
  listed : Listed s
  served : Served s
  justified : Justified s.history

theorem sound_of_reachable {s : System} (h : Reachable step init s) : Sound s := by
  apply h.invariant
  · exact ⟨locked_init, listed_init, served_init, by simp [init, Justified]⟩
  · intro s a t hs ha
    exact ⟨locked_step s a t hs.locked ha, listed_step s a t hs.locked hs.listed ha,
      served_step s a t hs.locked hs.served ha,
      justified_step s a t hs.locked hs.listed hs.served hs.justified ha⟩

end HZRobot.TaskManger
