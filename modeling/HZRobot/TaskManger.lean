import HZRobot.Transition
import Mathlib.Logic.Function.Basic
import Mathlib.Data.List.Nodup

/-!
The task manager as a system of threads. Callers run start_product and
start_del, every start_product spawns a detached pusher that runs taskpush, and
every start_del spawns a poller that runs taskPoll. The three mutexes
(t_mutex, task_mutex and the queue's m_mutex) have explicit owners, and the
history records what the threads did. A wake-up from m_condGet needs no
notification here, so spurious wake-ups are included.
-/

namespace HZRobot.TaskManger

/-- The threads. A pusher has its task, the number of the start_product call that made it. -/
inductive Thread where
  | caller (i : Nat)
  | pusher (t : Nat)
  | poller (i : Nat)
  deriving DecidableEq, Repr

inductive CallerPc where
  | idle
  | startProduct
  | startDel
  | returning
  deriving DecidableEq, Repr

/-- taskpush: take t_mutex, create_instance, then Put under m_mutex. -/
inductive PusherPc where
  | absent
  | spawned
  | locked
  | ready
  | putting
  | notifying
  | unlocking
  | done
  deriving DecidableEq, Repr

/-- taskPoll: take task_mutex for good, then Get, execute, execute_after and
delete in a loop. -/
inductive PollerPc where
  | absent
  | spawned
  | locked
  | idle
  | checking
  | sleeping
  | popping
  | poppedEmpty
  | got (t : Nat)
  | executing (t : Nat)
  | executed (t : Nat) (vaild : Bool)
  | executingAfter (t : Nat)
  | deleting (t : Nat)
  deriving DecidableEq, Repr

inductive Event where
  | product (t : Nat)
  | put (t : Nat)
  | pop (t : Nat)
  | execute (t : Nat)
  | executed (t : Nat) (vaild : Bool)
  | executeAfter (t : Nat)
  | executedAfter (t : Nat)
  | delete (t : Nat)
  deriving DecidableEq, Repr

structure System where
  next : Nat
  pollers : Nat
  caller : Nat → CallerPc
  pusher : Nat → PusherPc
  poller : Nat → PollerPc
  tMutex : Option Thread
  taskMutex : Option Nat
  mMutex : Option Thread
  mList : List Nat
  history : List Event

def init : System where
  next := 0
  pollers := 0
  caller _ := .idle
  pusher _ := .absent
  poller _ := .absent
  tMutex := none
  taskMutex := none
  mMutex := none
  mList := []
  history := []

def System.setCaller (s : System) (i : Nat) (pc : CallerPc) : System :=
  { s with caller := Function.update s.caller i pc }

def System.setPusher (s : System) (t : Nat) (pc : PusherPc) : System :=
  { s with pusher := Function.update s.pusher t pc }

def System.setPoller (s : System) (i : Nat) (pc : PollerPc) : System :=
  { s with poller := Function.update s.poller i pc }

def System.log (s : System) (e : Event) : System :=
  { s with history := s.history ++ [e] }

inductive Action where
  | callProduct (i : Nat)
  | spawnPusher (i : Nat)
  | callDel (i : Nat)
  | spawnPoller (i : Nat)
  | callReturn (i : Nat)
  | pusherLock (t : Nat)
  | pusherInstance (t : Nat)
  | putLock (t : Nat)
  | putPush (t : Nat)
  | putUnlock (t : Nat)
  | pusherUnlock (t : Nat)
  | pollerLock (i : Nat)
  | pollerInstance (i : Nat)
  | getLock (i : Nat)
  | getCheck (i : Nat)
  | getWake (i : Nat)
  | getPop (i : Nat)
  | executeBegin (i : Nat) (t : Nat)
  | executeEnd (i : Nat) (t : Nat) (vaild : Bool)
  | afterBegin (i : Nat) (t : Nat) (vaild : Bool)
  | afterEnd (i : Nat) (t : Nat)
  | deleteTask (i : Nat) (t : Nat)
  deriving DecidableEq, Repr

/-- One step of one thread; none when the thread is elsewhere or blocked. -/
def step (s : System) : Action → Option System
  | .callProduct i =>
      if s.caller i = .idle ∧ s.tMutex = none then
        some { s.setCaller i .startProduct with tMutex := some (.caller i) }
      else none
  | .spawnPusher i =>
      if s.caller i = .startProduct then
        some { ((s.setCaller i .returning).setPusher s.next .spawned).log (.product s.next) with
          next := s.next + 1 }
      else none
  | .callDel i =>
      if s.caller i = .idle ∧ s.tMutex = none then
        some { s.setCaller i .startDel with tMutex := some (.caller i) }
      else none
  | .spawnPoller i =>
      if s.caller i = .startDel then
        some { (s.setCaller i .returning).setPoller s.pollers .spawned with
          pollers := s.pollers + 1 }
      else none
  | .callReturn i =>
      if s.caller i = .returning then some { s.setCaller i .idle with tMutex := none }
      else none
  | .pusherLock t =>
      if s.pusher t = .spawned ∧ s.tMutex = none then
        some { s.setPusher t .locked with tMutex := some (.pusher t) }
      else none
  | .pusherInstance t =>
      if s.pusher t = .locked ∧ s.mMutex = none then some (s.setPusher t .ready)
      else none
  | .putLock t =>
      if s.pusher t = .ready ∧ s.mMutex = none then
        some { s.setPusher t .putting with mMutex := some (.pusher t) }
      else none
  | .putPush t =>
      if s.pusher t = .putting then
        some { (s.setPusher t .notifying).log (.put t) with mList := s.mList ++ [t] }
      else none
  | .putUnlock t =>
      if s.pusher t = .notifying then some { s.setPusher t .unlocking with mMutex := none }
      else none
  | .pusherUnlock t =>
      if s.pusher t = .unlocking then some { s.setPusher t .done with tMutex := none }
      else none
  | .pollerLock i =>
      if s.poller i = .spawned ∧ s.taskMutex = none then
        some { s.setPoller i .locked with taskMutex := some i }
      else none
  | .pollerInstance i =>
      if s.poller i = .locked ∧ s.mMutex = none then some (s.setPoller i .idle)
      else none
  | .getLock i =>
      if s.poller i = .idle ∧ s.mMutex = none then
        some { s.setPoller i .checking with mMutex := some (.poller i) }
      else none
  | .getCheck i =>
      if s.poller i = .checking then
        -- while (IsEmpty()) m_condGet.wait(lock): the wait gives m_mutex back
        if s.mList = [] then some { s.setPoller i .sleeping with mMutex := none }
        else some (s.setPoller i .popping)
      else none
  | .getWake i =>
      if s.poller i = .sleeping ∧ s.mMutex = none then
        some { s.setPoller i .checking with mMutex := some (.poller i) }
      else none
  | .getPop i =>
      if s.poller i = .popping then
        match s.mList with
        | [] => some { s.setPoller i .poppedEmpty with mMutex := none }
        | t :: rest =>
            some { (s.setPoller i (.got t)).log (.pop t) with mMutex := none, mList := rest }
      else none
  | .executeBegin i t =>
      if s.poller i = .got t then some ((s.setPoller i (.executing t)).log (.execute t))
      else none
  | .executeEnd i t vaild =>
      if s.poller i = .executing t then
        some ((s.setPoller i (.executed t vaild)).log (.executed t vaild))
      else none
  | .afterBegin i t vaild =>
      if s.poller i = .executed t vaild then
        if vaild then some ((s.setPoller i (.executingAfter t)).log (.executeAfter t))
        else some (s.setPoller i (.deleting t))
      else none
  | .afterEnd i t =>
      if s.poller i = .executingAfter t then
        some ((s.setPoller i (.deleting t)).log (.executedAfter t))
      else none
  | .deleteTask i t =>
      if s.poller i = .deleting t then some ((s.setPoller i .idle).log (.delete t))
      else none

end HZRobot.TaskManger
