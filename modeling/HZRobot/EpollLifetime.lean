import HZRobot.Transition

/-!
The lifetime of a connection of the engine. close deletes the object, while the functions
that call it, the events that epoll_wait has reported and the timers still refer to it. A
fault is an access of the engine after the deletion. The close callback leaves the
connection as it is, and nothing sets the timer of the sends.
-/

namespace HZRobot.EpollLifetime

structure Events where
  error : Bool
  readable : Bool
  writable : Bool
  deriving DecidableEq, Repr

structure Connection where
  alive : Bool
  fault : Bool
  /-- recv_timeout is not 0. -/
  timed : Bool
  /-- The timer whose id is recv_timeout_timer_id is set. -/
  armed : Bool
  /-- The timers of the connection whose id was overwritten. -/
  strays : Nat
  /-- What epoll_wait has reported and the loop of run has not come to. -/
  reported : Option Events
  deriving DecidableEq, Repr

def opened (timed : Bool) : Connection where
  alive := true
  fault := false
  timed := timed
  armed := false
  strays := 0
  reported := none

/-- What a callback does with its connection. -/
inductive Effect where
  | nothing
  /-- async_recv, which sets the timer anew. -/
  | receives
  /-- A call that ends in close, as async_send does when the peer has reset. -/
  | closes
  deriving DecidableEq, Repr

structure Callback where
  effect : Effect
  keep : Bool
  deriving DecidableEq, Repr

/-- What a ::recv answers that has no error for which do_recv waits. -/
inductive Received where
  | data (full : Bool) (callback : Callback)
  | ended
  | failed
  deriving DecidableEq, Repr

/-- What do_send comes to: nothing is sent, the peer is gone, or something is sent. -/
inductive Sent where
  | nothing
  | gone
  | some_ (callback : Callback)
  deriving DecidableEq, Repr

/-- An access of a member. -/
def touch (c : Connection) : Connection := { c with fault := c.fault || !c.alive }

def close (c : Connection) : Connection := { touch c with alive := false, armed := false }

/-- start_recv_timeout_timer; the timer set before is cancelled. -/
def startTimer (c : Connection) : Connection := { touch c with armed := c.timed }

def Effect.run (c : Connection) : Effect → Connection
  | .nothing => c
  | .receives => startTimer c
  | .closes => close c

/-- do_recv on what ::recv answers until it would block. -/
def doRecv (c : Connection) : List Received → Connection
  | [] => startTimer (touch c)
  | .data full callback :: rest =>
      let c := callback.effect.run (touch c)
      if callback.keep then if full then doRecv c rest else startTimer c
      else close c
  | .ended :: _ => close (touch c)
  | .failed :: _ => startTimer (close (touch c))

/-- do_send; the buffer is looked at again behind the callback. -/
def doSend (c : Connection) : Sent → Connection
  | .nothing => touch c
  | .gone => close (touch c)
  | .some_ callback =>
      let c := callback.effect.run (touch c)
      touch (if callback.keep then c else close c)

/-- run on the events of the connection. -/
def handle (c : Connection) (events : Events) (received : List Received) (sent : Sent) :
    Connection :=
  let c := touch c
  if events.error then close c
  else
    let c := if events.readable then doRecv c received else c
    if events.writable then doSend c sent else c

/-- The timer whose id is stored; do_timer has taken it out before the callback runs, and
puts it back when that returns true. -/
def fire (c : Connection) (callback : Callback) : Connection :=
  let c := callback.effect.run (touch { c with armed := false })
  if callback.keep then if c.armed then { c with strays := c.strays + 1 } else { c with armed := true }
  else touch (close c)

def fireStray (c : Connection) (callback : Callback) : Connection :=
  let c := callback.effect.run (touch { c with strays := c.strays - 1 })
  if callback.keep then { c with strays := c.strays + 1 } else touch (close c)

inductive Action where
  | wait (events : Events)
  | handle (received : List Received) (sent : Sent)
  | fire (callback : Callback)
  | fireStray (callback : Callback)
  /-- The application calls async_recv, async_send or close outside of a callback of the
  connection. -/
  | asyncRecv
  | asyncSend (sent : Sent)
  | close
  deriving DecidableEq, Repr

def step (c : Connection) : Action → Option Connection
  | .wait events => if c.alive ∧ c.reported = none then some { c with reported := some events } else none
  | .handle received sent =>
      c.reported.map fun events => handle { c with reported := none } events received sent
  | .fire callback => if c.armed then some (fire c callback) else none
  | .fireStray callback => if 0 < c.strays then some (fireStray c callback) else none
  | .asyncRecv => if c.alive then some (startTimer c) else none
  | .asyncSend sent => if c.alive then some (doSend c sent) else none
  | .close => if c.alive then some (close c) else none

/-- No fault, and nothing refers to a connection that is deleted. -/
structure Sound (c : Connection) : Prop where
  safe : c.fault = false
  forgotten : c.alive = false → c.armed = false ∧ c.strays = 0 ∧ c.reported = none

/-- The callback leaves the connection to the engine. -/
def Callback.Leaves (callback : Callback) : Prop := callback.effect ≠ .closes

/-- No callback that runs closes, and no ::recv fails. -/
def Quiet : List Received → Prop
  | [] => True
  | .data full callback :: rest =>
      callback.Leaves ∧ (callback.keep = true → full = true → Quiet rest)
  | .ended :: _ => True
  | .failed :: _ => False

/-- do_recv ends in close. -/
def closes : List Received → Bool
  | [] => false
  | .data full callback :: rest => !callback.keep || full && closes rest
  | .ended :: _ => true
  | .failed :: _ => true

/-- do_send does not close beside timers that close does not know, and its callback
keeps the connection. -/
def Sent.Safe (strays : Nat) : Sent → Prop
  | .nothing => True
  | .gone => strays = 0
  | .some_ callback => callback.Leaves ∧ callback.keep = true

/-- The events are handled without a close that something behind it forgets. -/
def HandlesSafely (strays : Nat) (events : Events) (received : List Received) (sent : Sent) :
    Prop :=
  if events.error = true then strays = 0
  else
    (events.readable = true → Quiet received ∧
      (closes received = true → strays = 0 ∧ events.writable = false)) ∧
    (events.writable = true → sent.Safe strays)

def Careful (c : Connection) : Action → Prop
  | .handle received sent => ∀ events ∈ c.reported, HandlesSafely c.strays events received sent
  | .fire callback => callback.Leaves ∧ callback.keep = true
  | .fireStray callback => callback.Leaves ∧ callback.keep = true
  | .asyncSend sent => sent.Safe c.strays ∧ (sent = .gone → c.reported = none)
  | .close => c.strays = 0 ∧ c.reported = none
  | _ => True

section Functions

variable {c : Connection}

theorem touch_alive (alive : c.alive = true) : touch c = c := by
  have same : (c.fault || !c.alive) = c.fault := by
    rw [alive, Bool.not_true, Bool.or_false]
  rw [touch, same]

theorem touch_dead (dead : c.alive = false) : (touch c).fault = true := by
  rw [touch, dead, Bool.not_false]
  exact Bool.or_true _

theorem touch_fault (fault : c.fault = true) : (touch c).fault = true := by
  rw [touch, fault]
  rfl

theorem Effect.run_fault (fault : c.fault = true) (effect : Effect) :
    (effect.run c).fault = true := by
  cases effect with
  | nothing => exact fault
  | receives | closes => exact touch_fault fault

theorem doRecv_fault (fault : c.fault = true) (script : List Received) :
    (doRecv c script).fault = true := by
  induction script generalizing c with
  | nil => exact touch_fault (touch_fault fault)
  | cons received rest ih =>
      cases received with
      | data full callback =>
          have later := Effect.run_fault (touch_fault fault) callback.effect
          rw [doRecv]
          split
          · split
            · exact ih later
            · exact touch_fault later
          · exact touch_fault later
      | ended => exact touch_fault (touch_fault fault)
      | failed => exact touch_fault (touch_fault (touch_fault fault))

theorem touch_touch (c : Connection) : touch (touch c) = touch c := by
  have same : (c.fault || !c.alive || !c.alive) = (c.fault || !c.alive) := by
    rw [Bool.or_assoc, Bool.or_self]
  exact congrArg (fun fault => { c with fault := fault }) same

theorem doRecv_touch (script : List Received) : doRecv (touch c) script = doRecv c script := by
  cases script with
  | nil => rw [doRecv, doRecv, touch_touch]
  | cons received rest => cases received <;> rw [doRecv, doRecv, touch_touch]

/-- do_recv does not begin with a connection that is deleted. -/
theorem doRecv_dead (dead : c.alive = false) (script : List Received) :
    (doRecv c script).fault = true := by
  rw [← doRecv_touch script]
  exact doRecv_fault (touch_dead dead) script

/-- What a callback that leaves the connection to the engine does to it. -/
theorem Effect.run_alive (alive : c.alive = true) {effect : Effect} (leaves : effect ≠ .closes) :
    (effect.run c).alive = true ∧ (effect.run c).fault = c.fault ∧
      (effect.run c).strays = c.strays ∧ (effect.run c).reported = c.reported := by
  cases effect with
  | nothing => exact ⟨alive, rfl, rfl, rfl⟩
  | receives =>
      rw [Effect.run, startTimer, touch_alive alive]
      exact ⟨alive, rfl, rfl, rfl⟩
  | closes => exact absurd rfl leaves

/-- do_recv goes on with its connection when a callback has closed it. -/
theorem doRecv_closing (c : Connection) (full keep : Bool) (rest : List Received) :
    (doRecv c (.data full ⟨.closes, keep⟩ :: rest)).fault = true := by
  have gone : (Effect.run (touch c) .closes).alive = false := rfl
  rw [doRecv]
  split
  · split
    · exact doRecv_dead gone rest
    · exact touch_dead gone
  · exact touch_dead gone

/-- What do_recv does to a connection that is there. -/
theorem doRecv_spec (alive : c.alive = true) (safe : c.fault = false) (script : List Received) :
    ((doRecv c script).fault = false ↔ Quiet script) ∧
      (Quiet script → (doRecv c script).alive = !closes script ∧
        ((doRecv c script).alive = false → (doRecv c script).armed = false) ∧
        (doRecv c script).strays = c.strays ∧ (doRecv c script).reported = c.reported) := by
  induction script generalizing c with
  | nil =>
      rw [doRecv, startTimer, touch_alive alive, touch_alive alive]
      exact ⟨iff_of_true safe trivial, fun _ => ⟨alive, (fun dead => by cases alive.symm.trans dead), rfl, rfl⟩⟩
  | cons received rest ih =>
      cases received with
      | data full callback =>
          obtain ⟨effect, keep⟩ := callback
          rw [doRecv, touch_alive alive]
          by_cases leaves : effect = .closes
          · subst leaves
            have fault := doRecv_closing c full keep rest
            rw [doRecv, touch_alive alive] at fault
            refine ⟨iff_of_false (fun none_ => ?_) fun quiet => quiet.1 rfl,
              fun quiet => absurd rfl quiet.1⟩
            cases fault.symm.trans none_
          · obtain ⟨alive', safe', strays, reported⟩ := Effect.run_alive alive leaves
            have safe'' := safe'.trans safe
            cases keep with
            | false =>
                have same : close (effect.run c) =
                    { effect.run c with alive := false, armed := false } := by
                  rw [close, touch_alive alive']
                dsimp only
                rw [if_neg Bool.false_ne_true, same]
                exact ⟨iff_of_true safe'' ⟨leaves, nofun⟩, fun _ => ⟨rfl, fun _ => rfl, strays, reported⟩⟩
            | true =>
                cases full with
                | false =>
                    have same : startTimer (effect.run c) =
                        { effect.run c with armed := (effect.run c).timed } := by
                      rw [startTimer, touch_alive alive']
                    dsimp only
                    rw [if_pos rfl, if_neg Bool.false_ne_true, same]
                    exact ⟨iff_of_true safe'' ⟨leaves, fun _ => nofun⟩, fun _ => ⟨alive',
                      (fun dead => by cases alive'.symm.trans dead), strays, reported⟩⟩
                | true =>
                    obtain ⟨exact_, what⟩ := ih alive' safe''
                    dsimp only
                    rw [if_pos rfl, if_pos rfl]
                    refine ⟨exact_.trans ⟨fun quiet => ⟨leaves, fun _ _ => quiet⟩,
                      fun quiet => quiet.2 rfl rfl⟩, fun quiet => ?_⟩
                    have later := what (quiet.2 rfl rfl)
                    rw [strays, reported] at later
                    exact later
      | ended =>
          rw [doRecv, close, touch_alive alive, touch_alive alive]
          exact ⟨iff_of_true safe trivial, fun _ => ⟨rfl, fun _ => rfl, rfl, rfl⟩⟩
      | failed =>
          have gone : (close (touch c)).alive = false := rfl
          refine ⟨iff_of_false (fun none_ => ?_) id, fun quiet => quiet.elim⟩
          have fault : (doRecv c (.failed :: rest)).fault = true := touch_dead gone
          cases fault.symm.trans none_

theorem doSend_fault (fault : c.fault = true) (sent : Sent) : (doSend c sent).fault = true := by
  cases sent with
  | nothing => exact touch_fault fault
  | gone => exact touch_fault (touch_fault fault)
  | some_ callback =>
      have later := Effect.run_fault (touch_fault fault) callback.effect
      rw [doSend]
      refine touch_fault ?_
      split
      · exact later
      · exact touch_fault later

theorem doSend_touch (sent : Sent) : doSend (touch c) sent = doSend c sent := by
  cases sent <;> rw [doSend, doSend, touch_touch]

theorem doSend_dead (dead : c.alive = false) (sent : Sent) : (doSend c sent).fault = true := by
  rw [← doSend_touch sent]
  exact doSend_fault (touch_dead dead) sent

end Functions

section Soundness

variable {c : Connection}

theorem Sound.of_alive (alive : c.alive = true) (safe : c.fault = false) : Sound c :=
  ⟨safe, fun dead => by cases alive.symm.trans dead⟩

theorem not_sound (fault : c.fault = true) : ¬ Sound c := fun sound => by
  cases fault.symm.trans sound.safe

theorem close_sound_iff (alive : c.alive = true) (safe : c.fault = false) :
    Sound (close c) ↔ c.strays = 0 ∧ c.reported = none := by
  rw [close, touch_alive alive]
  exact ⟨fun sound => (sound.forgotten rfl).2, fun none_ => ⟨safe, fun _ => ⟨rfl, none_⟩⟩⟩

theorem doSend_sound_iff (alive : c.alive = true) (safe : c.fault = false) (sent : Sent) :
    Sound (doSend c sent) ↔ sent.Safe c.strays ∧ (sent = .gone → c.reported = none) := by
  cases sent with
  | nothing =>
      rw [doSend, touch_alive alive]
      exact iff_of_true (.of_alive alive safe) ⟨trivial, nofun⟩
  | gone =>
      rw [doSend, touch_alive alive, close_sound_iff alive safe]
      exact and_congr_right' ⟨fun none_ _ => none_, fun none_ => none_ rfl⟩
  | some_ callback =>
      obtain ⟨effect, keep⟩ := callback
      rw [doSend, touch_alive alive]
      by_cases leaves : effect = .closes
      · subst leaves
        have gone : (Effect.run c .closes).alive = false := rfl
        refine iff_of_false ?_ fun safely => safely.1.1 rfl
        cases keep with
        | true => exact not_sound (touch_dead gone)
        | false => exact not_sound (touch_dead rfl)
      · obtain ⟨alive', safe', -⟩ := Effect.run_alive alive leaves
        cases keep with
        | true =>
            refine iff_of_true ?_ ⟨⟨leaves, rfl⟩, nofun⟩
            show Sound (touch (effect.run c))
            rw [touch_alive alive']
            exact .of_alive alive' (safe'.trans safe)
        | false =>
            exact iff_of_false (not_sound (touch_dead rfl)) fun safely => by cases safely.1.2

theorem send_sound_iff (alive : c.alive = true) (safe : c.fault = false)
    (handled : c.reported = none) (writable : Bool) (sent : Sent) :
    Sound (if writable = true then doSend c sent else c) ↔
      (writable = true → sent.Safe c.strays) := by
  cases writable with
  | true =>
      rw [if_pos rfl, doSend_sound_iff alive safe, and_iff_left fun _ => handled]
      exact ⟨fun safely _ => safely, fun safely => safely rfl⟩
  | false =>
      rw [if_neg Bool.false_ne_true]
      exact iff_of_true (.of_alive alive safe) nofun

/-- do_recv and what run does behind it. -/
theorem recv_sound_iff (alive : c.alive = true) (safe : c.fault = false)
    (handled : c.reported = none) (received : List Received) (writable : Bool) (sent : Sent) :
    Sound (if writable = true then doSend (doRecv c received) sent else doRecv c received) ↔
      (Quiet received ∧ (closes received = true → c.strays = 0 ∧ writable = false)) ∧
        (writable = true → sent.Safe c.strays) := by
  obtain ⟨exact_, what⟩ := doRecv_spec alive safe received
  by_cases quiet : Quiet received
  · obtain ⟨open_, armed, strays, reported⟩ := what quiet
    have safe' := exact_.mpr quiet
    rw [and_iff_right quiet]
    cases ends : closes received with
    | false =>
        rw [ends] at open_
        rw [send_sound_iff open_ safe' (reported.trans handled), strays]
        exact (and_iff_right nofun).symm
    | true =>
        rw [ends] at open_
        cases writable with
        | true =>
            rw [if_pos rfl]
            exact iff_of_false (not_sound (doSend_dead open_ sent)) fun safely => by
              cases (safely.1 rfl).2
        | false =>
            rw [if_neg Bool.false_ne_true]
            constructor
            · intro sound
              exact ⟨fun _ => ⟨strays.symm.trans (sound.forgotten open_).2.1, rfl⟩, nofun⟩
            · intro safely
              exact ⟨safe', fun _ => ⟨armed open_, strays.trans (safely.1 rfl).1,
                reported.trans handled⟩⟩
  · have fault : (doRecv c received).fault = true :=
      eq_true_of_ne_false (mt exact_.mp quiet)
    refine iff_of_false ?_ fun safely => quiet safely.1.1
    split
    · exact not_sound (doSend_fault fault sent)
    · exact not_sound fault

theorem handle_sound_iff (alive : c.alive = true) (safe : c.fault = false)
    (handled : c.reported = none) (events : Events) (received : List Received) (sent : Sent) :
    Sound (handle c events received sent) ↔ HandlesSafely c.strays events received sent := by
  obtain ⟨error, readable, writable⟩ := events
  rw [handle, touch_alive alive, HandlesSafely]
  cases error with
  | true =>
      rw [if_pos rfl, if_pos rfl, close_sound_iff alive safe]
      exact and_iff_left handled
  | false =>
      rw [if_neg Bool.false_ne_true, if_neg Bool.false_ne_true]
      cases readable with
      | false =>
          have behind := send_sound_iff alive safe handled writable sent
          exact behind.trans (and_iff_right nofun).symm
      | true =>
          have behind := recv_sound_iff alive safe handled received writable sent
          exact behind.trans (and_congr_left' ⟨fun safely _ => safely, fun safely => safely rfl⟩)

theorem fire_sound_iff (alive : c.alive = true) (safe : c.fault = false) (callback : Callback) :
    Sound (fire c callback) ↔ callback.Leaves ∧ callback.keep = true := by
  obtain ⟨effect, keep⟩ := callback
  have alive₀ : ({ c with armed := false } : Connection).alive = true := alive
  rw [fire, touch_alive alive₀]
  cases keep with
  | false => exact iff_of_false (not_sound (touch_dead rfl)) fun safely => by cases safely.2
  | true =>
      by_cases leaves : effect = .closes
      · subst leaves
        refine iff_of_false (fun sound => ?_) fun safely => safely.1 rfl
        have forgotten := sound.forgotten rfl
        cases forgotten.1
      · obtain ⟨alive', safe', -⟩ := Effect.run_alive alive₀ leaves
        refine iff_of_true ?_ ⟨leaves, rfl⟩
        rw [if_pos rfl]
        split
        · exact .of_alive alive' (safe'.trans safe)
        · exact .of_alive alive' (safe'.trans safe)

theorem fireStray_sound_iff (alive : c.alive = true) (safe : c.fault = false)
    (callback : Callback) : Sound (fireStray c callback) ↔
      callback.Leaves ∧ callback.keep = true := by
  obtain ⟨effect, keep⟩ := callback
  have alive₀ : ({ c with strays := c.strays - 1 } : Connection).alive = true := alive
  rw [fireStray, touch_alive alive₀]
  cases keep with
  | false => exact iff_of_false (not_sound (touch_dead rfl)) fun safely => by cases safely.2
  | true =>
      by_cases leaves : effect = .closes
      · subst leaves
        refine iff_of_false (fun sound => ?_) fun safely => safely.1 rfl
        have forgotten := sound.forgotten rfl
        cases forgotten.2.1
      · obtain ⟨alive', safe', -⟩ := Effect.run_alive alive₀ leaves
        refine iff_of_true ?_ ⟨leaves, rfl⟩
        rw [if_pos rfl]
        exact .of_alive alive' (safe'.trans safe)

theorem step_sound_iff (c : Connection) (a : Action) (d : Connection) (sound : Sound c)
    (taken : step c a = some d) : Sound d ↔ Careful c a := by
  -- whatever still refers to the connection finds it there
  have refers {P : Prop} (other : c.alive = false → P) (not_P : ¬ P) : c.alive = true :=
    eq_true_of_ne_false (mt other not_P)
  cases a with
  | wait events =>
      rw [step] at taken
      split at taken
      · case isTrue ready =>
          cases taken
          exact iff_of_true (.of_alive ready.1 sound.safe) trivial
      · cases taken
  | handle received sent =>
      obtain ⟨events, reported, rfl⟩ := Option.map_eq_some_iff.mp taken
      have alive : c.alive = true := refers (fun dead => (sound.forgotten dead).2.2) (by
        rw [reported]
        exact Option.some_ne_none events)
      have exact_ := @handle_sound_iff { c with reported := none } alive sound.safe rfl events
        received sent
      rw [exact_, Careful, reported]
      exact ⟨fun safely e same => Option.some.inj same ▸ safely, fun safely => safely events rfl⟩
  | fire callback =>
      rw [step] at taken
      split at taken
      · case isTrue armed =>
          cases taken
          have alive := refers (fun dead => (sound.forgotten dead).1) (Bool.not_eq_false _ ▸ armed)
          exact fire_sound_iff alive sound.safe callback
      · cases taken
  | fireStray callback =>
      rw [step] at taken
      split at taken
      · case isTrue some_ =>
          cases taken
          have alive := refers (fun dead => (sound.forgotten dead).2.1) (Nat.pos_iff_ne_zero.mp some_)
          exact fireStray_sound_iff alive sound.safe callback
      · cases taken
  | asyncRecv =>
      rw [step] at taken
      split at taken
      · case isTrue alive =>
          cases taken
          rw [startTimer, touch_alive alive]
          exact iff_of_true (.of_alive alive sound.safe) trivial
      · cases taken
  | asyncSend sent =>
      rw [step] at taken
      split at taken
      · case isTrue alive =>
          cases taken
          exact doSend_sound_iff alive sound.safe sent
      · cases taken
  | close =>
      rw [step] at taken
      split at taken
      · case isTrue alive =>
          cases taken
          exact close_sound_iff alive sound.safe
      · cases taken

end Soundness

/-- Along a run the engine never refers to a connection that is deleted exactly when every
step closes it with care. -/
theorem lifetime_exact {timed : Bool} {schedule : List Action} {c : Connection}
    (run : runs step (opened timed) schedule = some c) :
    Throughout step Sound (opened timed) schedule ↔
      StepsMeet step Careful (opened timed) schedule :=
  throughout_iff_stepsMeet step_sound_iff run (.of_alive rfl rfl)

/-- The application sends, then the peer ends while there is room to send. -/
def endedWhileWritable : List Action :=
  [.asyncRecv, .asyncSend (.some_ ⟨.nothing, true⟩), .wait ⟨false, true, true⟩,
    .handle [.ended] .nothing]

theorem lifetime_exact_endedWhileWritable :
    Throughout step Sound (opened true) endedWhileWritable ↔
      StepsMeet step Careful (opened true) endedWhileWritable := by
  have run : runs step (opened true) endedWhileWritable = some
      { opened true with alive := false, fault := true } := by decide
  exact lifetime_exact run

end HZRobot.EpollLifetime
