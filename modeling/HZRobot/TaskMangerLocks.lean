import HZRobot.TaskManger

/-!
Who holds which mutex. Each mutex owner is the one thread whose program counter
lies inside the matching scoped_lock, so t_mutex serialises the pushers,
m_mutex guards the list and task_mutex admits one poller for good. The pop of
Get therefore sees the list its emptiness check saw.
-/

namespace HZRobot.TaskManger

def PusherPc.holdsT : PusherPc → Bool
  | .locked | .ready | .putting | .notifying | .unlocking => true
  | .absent | .spawned | .done => false

def PusherPc.holdsM : PusherPc → Bool
  | .putting | .notifying => true
  | _ => false

def PollerPc.holdsM : PollerPc → Bool
  | .checking | .popping => true
  | _ => false

def PollerPc.holdsTask : PollerPc → Bool
  | .absent | .spawned => false
  | _ => true

/-- The owner recorded in each mutex is exactly the thread that holds it. -/
structure Locked (s : System) : Prop where
  tCaller : ∀ i, s.tMutex = some (.caller i) ↔ s.caller i ≠ .idle
  tPusher : ∀ t, s.tMutex = some (.pusher t) ↔ (s.pusher t).holdsT = true
  mCaller : ∀ i, s.mMutex ≠ some (.caller i)
  mPusher : ∀ t, s.mMutex = some (.pusher t) ↔ (s.pusher t).holdsM = true
  mPoller : ∀ i, s.mMutex = some (.poller i) ↔ (s.poller i).holdsM = true
  taskMutex : ∀ i, s.taskMutex = some i ↔ (s.poller i).holdsTask = true
  /-- A poller past the emptiness check still sees a task in the list. -/
  checked : ∀ i, s.poller i = .popping → s.mList ≠ []
  notEmpty : ∀ i, s.poller i ≠ .poppedEmpty
  /-- Threads that are not spawned yet have not started. -/
  freshPusher : ∀ t, s.pusher t = .absent ↔ s.next ≤ t
  freshPoller : ∀ i, s.poller i = .absent ↔ s.pollers ≤ i

theorem locked_init : Locked init := by
  constructor <;>
    simp [init, PusherPc.holdsT, PusherPc.holdsM, PollerPc.holdsM, PollerPc.holdsTask]

attribute [local grind] PusherPc.holdsT PusherPc.holdsM PollerPc.holdsM PollerPc.holdsTask
attribute [local grind =] Function.update_apply

/-- Each action moves one thread, takes or gives back at most one mutex, and
leaves every other thread where it was. -/
theorem locked_step (s : System) (a : Action) (t : System) (hs : Locked s)
    (h : step s a = some t) : Locked t := by
  obtain ⟨hCaller, hPusher, mCaller, mPusher, mPoller, hTask, checked, hEmpty, fp, fq⟩ := hs
  cases a <;>
    simp only [step, System.setCaller, System.setPusher, System.setPoller, System.log,
      Option.ite_none_right_eq_some, Option.some.injEq] at h
  case getCheck i =>
      obtain ⟨g, h⟩ := h
      split at h <;> cases h
      all_goals
        constructor <;> intro j <;> dsimp only <;> grind
  case getPop i =>
      obtain ⟨g, h⟩ := h
      -- the list was not empty at the check and m_mutex was kept since
      have nonempty := checked i g
      split at h
      · contradiction
      · cases h
        constructor <;> intro j <;> dsimp only <;> grind
  case afterBegin i t vaild =>
      obtain ⟨g, h⟩ := h
      cases vaild <;> cases h
      all_goals
        constructor <;> intro j <;> dsimp only <;> grind
  all_goals
    obtain ⟨g, rfl⟩ := h
    constructor <;> intro j <;> dsimp only <;> grind

/-- Only the owner of task_mutex is past the head of taskPoll. -/
theorem Locked.one_poller {s : System} (hs : Locked s) {i j : Nat}
    (hi : (s.poller i).holdsTask = true) (hj : (s.poller j).holdsTask = true) : i = j := by
  have oi := (hs.taskMutex i).mpr hi
  have oj := (hs.taskMutex j).mpr hj
  rw [oi] at oj
  exact Option.some.inj oj

end HZRobot.TaskManger
