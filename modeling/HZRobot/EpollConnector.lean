import HZRobot.Transition

/-!
A connector that reconnects. close gives its socket back and sets a timer; the timer tries
async_connect until that returns true. async_connect gives the socket back as well, but
forgets neither a timer nor that the socket was bound to the epoll. Closing once for each
connection keeps that harmless.
-/

namespace HZRobot.EpollConnector

/-- The types of peer that a connector has. -/
inductive PeerType where
  | connector
  | connection
  deriving DecidableEq, Repr

structure System where
  /-- add_connector has been called. -/
  started : Bool
  type : PeerType
  socketFd : Option Nat
  /-- Sockets are numbered in the order of their creation. -/
  next : Nat
  closed : List Nat
  bindEpoll : Bool
  /-- The epoll knows the socket. -/
  registered : Bool
  /-- ::connect has answered that it is in process. -/
  connecting : Bool
  /-- The reconnect timers that close has set. -/
  timers : Nat
  deriving DecidableEq, Repr

def created : System where
  started := false
  type := .connector
  socketFd := none
  next := 0
  closed := []
  bindEpoll := false
  registered := false
  connecting := false
  timers := 0

/-- What an attempt meets: no socket, a failure of ::bind or ::connect, or one of the two
answers of ::connect that are no failures. -/
inductive Attempt where
  | noSocket
  | failed
  | inProcess
  | success
  deriving DecidableEq, Repr

inductive Action where
  | add (attempt : Attempt)
  | timer (attempt : Attempt)
  /-- EPOLLOUT. -/
  | writable
  /-- EPOLLERR or EPOLLHUP. -/
  | error
  /-- Any other call of close: at the end of the stream, by a callback, by the application. -/
  | close
  /-- Any other call of do_monitor_events, as async_recv makes it. -/
  | monitor
  deriving DecidableEq, Repr

/-- EPOLL_CTL_MOD fails for a socket that the epoll does not know. -/
def doMonitorEvents (s : System) : System :=
  if s.bindEpoll then s else { s with bindEpoll := true, registered := s.socketFd.isSome }

/-- close of a connector whose reconnect flag is set. -/
def close (s : System) : System :=
  match s.socketFd with
  | some fd => { s with
      socketFd := none
      closed := s.closed ++ [fd]
      bindEpoll := false
      registered := false
      connecting := false
      timers := s.timers + 1 }
  | none => { s with timers := s.timers + 1 }

/-- async_connect up to the new socket. -/
def dropSocket (s : System) : System := { s with
  socketFd := none
  closed := s.closed ++ s.socketFd.toList
  registered := false
  connecting := false
  type := .connector }

def createSocket (s : System) : System := { s with socketFd := some s.next, next := s.next + 1 }

def asyncConnect (s : System) : Attempt → System × Bool
  | .noSocket => (dropSocket s, false)
  | .failed => (createSocket (dropSocket s), false)
  | .inProcess => ({ doMonitorEvents (createSocket (dropSocket s)) with connecting := true }, true)
  | .success => ({ createSocket (dropSocket s) with type := .connection }, true)

def addConnector (s : System) (attempt : Attempt) : System :=
  let result := asyncConnect s attempt
  if result.2 then result.1 else close result.1

/-- A timer whose callback returns true stays. -/
def fire (s : System) (attempt : Attempt) : System :=
  let result := asyncConnect s attempt
  if result.2 then { result.1 with timers := s.timers - 1 } else result.1

def step (s : System) : Action → Option System
  | .add attempt => if s.started then none else some (addConnector { s with started := true } attempt)
  | .timer attempt => if 0 < s.timers then some (fire s attempt) else none
  | .writable =>
      if s.registered ∧ s.connecting then
        some { s with type := .connection, connecting := false }
      else none
  | .error => if s.registered then some (close s) else none
  | .close => if s.started then some (close s) else none
  | .monitor => if s.started then some (doMonitorEvents s) else none

/-- There is a connection, or one in process. -/
def System.live (s : System) : Bool :=
  s.socketFd.isSome && (s.type == .connection || s.connecting)

section Attempts

variable {s : System}

end Attempts

section Steps

/-- What each action does, where it is enabled. -/
theorem step_cases {s t : System} {a : Action} (taken : step s a = some t) :
    match a with
    | .add attempt => s.started = false ∧ t = addConnector { s with started := true } attempt
    | .timer attempt => 0 < s.timers ∧ t = fire s attempt
    | .writable => s.registered = true ∧ t = { s with type := .connection, connecting := false }
    | .error => s.registered = true ∧ t = close s
    | .close => s.started = true ∧ t = close s
    | .monitor => s.started = true ∧ t = doMonitorEvents s := by
  cases a with
  | add attempt =>
      rw [step] at taken
      split at taken
      · cases taken
      · case isFalse new => exact ⟨Bool.eq_false_iff.mpr new, (Option.some.inj taken).symm⟩
  | timer attempt =>
      rw [step] at taken
      split at taken
      · case isTrue waits => exact ⟨waits, (Option.some.inj taken).symm⟩
      · cases taken
  | writable =>
      rw [step] at taken
      split at taken
      · case isTrue ready => exact ⟨ready.1, (Option.some.inj taken).symm⟩
      · cases taken
  | error =>
      rw [step] at taken
      split at taken
      · case isTrue known => exact ⟨known, (Option.some.inj taken).symm⟩
      · cases taken
  | close =>
      rw [step] at taken
      split at taken
      · case isTrue started => exact ⟨started, (Option.some.inj taken).symm⟩
      · cases taken
  | monitor =>
      rw [step] at taken
      split at taken
      · case isTrue started => exact ⟨started, (Option.some.inj taken).symm⟩
      · cases taken

end Steps

/-- A connection closed twice is tried for twice, and the epoll never hears of the second one. -/
example : (runs step created [.add .inProcess, .close, .close, .timer .inProcess,
    .timer .inProcess]).map (fun s => (s.connecting, s.registered, s.timers)) =
      some (true, false, 0) := by
  decide

end HZRobot.EpollConnector
