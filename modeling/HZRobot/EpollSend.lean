import HZRobot.Transition
import Mathlib.Tactic.Ring

/-!
The asynchronous send path of a connection on epoll. async_sendv appends to the send
buffer, do_send offers it to the kernel in a loop with five exits and flushes what was
taken; EPOLLOUT stays monitored while something is left. The outcomes of ::send and the
answer of the send callback come with each call.
-/

namespace HZRobot.Epoll

def epollOut : BitVec 32 := 0x004#32
def epollHup : BitVec 32 := 0x010#32
def epollEt : BitVec 32 := 0x80000000#32

inductive Control where
  | add
  | mod
  deriving DecidableEq, Repr

structure Connection where
  buf : List UInt8
  monitorEvents : BitVec 32
  bindEpoll : Bool
  control : List (Control × BitVec 32)
  closed : Bool
  /-- What the kernel accepted so far. -/
  kernel : List UInt8
  appended : List UInt8
  deriving DecidableEq

def opened (monitorEvents : BitVec 32) (bindEpoll : Bool) (control : List (Control × BitVec 32)) :
    Connection where
  buf := []
  monitorEvents := monitorEvents
  bindEpoll := bindEpoll
  control := control
  closed := false
  kernel := []
  appended := []

/-- What one ::send returns; `other` is any error without a branch of its own. -/
inductive Outcome where
  | accepted (k : Nat)
  | wouldBlock
  | connReset
  | interrupted
  | other
  deriving DecidableEq, Repr

inductive Exit where
  | flush
  | close
  | fail
  deriving DecidableEq, Repr

/-- The conversion of a size_t to int. -/
def asInt (n : Nat) : Int := (BitVec.ofNat 32 n).toInt

/-- The loop of do_send. It does not return while outcomes are missing, and the
kernel takes no more than it is offered. -/
def sendLoop (len : Int) (data : List UInt8) (total : Nat) (kernel : List UInt8) :
    List Outcome → Option (Exit × Nat × List UInt8)
  | [] => if (total : Int) < len then none else some (.flush, total, kernel)
  | outcome :: outcomes =>
      if (total : Int) < len then
        match outcome with
        | .wouldBlock => some (.flush, total, kernel)
        | .connReset => some (.close, total, kernel)
        | .interrupted => sendLoop len data total kernel outcomes
        | .other => some (.fail, total, kernel)
        | .accepted k =>
            if k = 0 then some (.close, total, kernel)
            else if ((total + k : Nat) : Int) ≤ len then
              sendLoop len (data.drop k) (total + k) (kernel ++ data.take k) outcomes
            else none
      else some (.flush, total, kernel)

def Connection.close (s : Connection) : Connection := { s with closed := true }

def doMonitorEvents (s : Connection) (events : BitVec 32) : Connection :=
  let events := events ||| epollEt ||| epollHup
  { s with
    control := s.control ++ [(if s.bindEpoll then .mod else .add, events)]
    bindEpoll := true
    monitorEvents := events }

/-- The end of do_send, from the flush on. -/
def settle (s : Connection) (total : Nat) (keep : Bool) : Connection :=
  let s := { s with buf := s.buf.drop total }
  let s := if 0 < total ∧ keep = false then s.close else s
  if 0 < s.buf.length then
    if s.monitorEvents &&& epollOut ≠ epollOut then doMonitorEvents s (s.monitorEvents ||| epollOut)
    else s
  else if s.monitorEvents &&& epollOut = epollOut then
    doMonitorEvents s (s.monitorEvents &&& ~~~epollOut)
  else s

def doSend (s : Connection) (outcomes : List Outcome) (keep : Bool) : Option Connection :=
  let len := asInt s.buf.length
  if len = 0 then some s
  else
    match sendLoop len s.buf 0 s.kernel outcomes with
    | none => none
    | some (.flush, total, kernel) => some (settle { s with kernel := kernel } total keep)
    | some (.close, _, kernel) => some { s with kernel := kernel }.close
    | some (.fail, _, kernel) => some { s with kernel := kernel }

def Connection.append (s : Connection) (iov : List (List UInt8)) : Connection :=
  { s with buf := s.buf ++ iov.flatten, appended := s.appended ++ iov.flatten }

def asyncSendv (s : Connection) (iov : List (List UInt8)) (flush : Bool)
    (outcomes : List Outcome) (keep : Bool) : Option Connection :=
  let s := s.append iov
  if flush = false then some s
  else if s.monitorEvents &&& epollOut ≠ 0 then some s
  else doSend s outcomes keep

inductive Action where
  | asyncSendv (iov : List (List UInt8)) (outcomes : List Outcome) (keep : Bool)
  | doSend (outcomes : List Outcome) (keep : Bool)

/-- Calls that flush, on a connection that is not closed. -/
def step (s : Connection) (a : Action) : Option Connection :=
  if s.closed then none
  else
    match a with
    | .asyncSendv iov outcomes keep => asyncSendv s iov true outcomes keep
    | .doSend outcomes keep => doSend s outcomes keep

def Armed (s : Connection) : Prop := s.monitorEvents &&& epollOut = epollOut

instance (s : Connection) : Decidable (Armed s) := inferInstanceAs (Decidable (_ = _))

/-- Nothing lost, repeated or stranded, as long as the connection is not closed. -/
def Kept (s : Connection) : Prop :=
  s.closed = false → s.kernel ++ s.buf = s.appended ∧ (s.buf ≠ [] → Armed s)

theorem epollOut_eq : epollOut = BitVec.twoPow 32 2 := by decide

theorem armed_iff_bit {s : Connection} : Armed s ↔ s.monitorEvents.getLsbD 2 = true := by
  rw [Armed, epollOut_eq, BitVec.and_twoPow]
  cases s.monitorEvents.getLsbD 2 with
  | true => simp
  | false => decide

/-- The two tests of the source for EPOLLOUT agree. -/
theorem armed_iff_ne {s : Connection} : Armed s ↔ s.monitorEvents &&& epollOut ≠ 0 := by
  rw [armed_iff_bit, epollOut_eq, BitVec.and_twoPow]
  cases s.monitorEvents.getLsbD 2 with
  | true => decide
  | false => decide

theorem armed_doMonitorEvents (s : Connection) (events : BitVec 32) :
    Armed (doMonitorEvents s (events ||| epollOut)) := by
  rw [armed_iff_bit]
  simp [doMonitorEvents, epollOut]

theorem asInt_le (n : Nat) : asInt n ≤ n := by
  have mod : (BitVec.ofNat 32 n).toNat ≤ n := by
    rw [BitVec.toNat_ofNat]
    exact Nat.mod_le _ _
  rw [asInt, BitVec.toInt_eq_toNat_cond]
  split <;> omega

/-- An unhandled error is met after the kernel accepted so many bytes. -/
inductive ErrorAfter : Nat → List Outcome → Prop
  | here {outcomes : List Outcome} : ErrorAfter 0 (.other :: outcomes)
  | interrupted {n : Nat} {outcomes : List Outcome} (later : ErrorAfter n outcomes) :
      ErrorAfter n (.interrupted :: outcomes)
  | accepted {n k : Nat} {outcomes : List Outcome} (some : k ≠ 0) (later : ErrorAfter n outcomes) :
      ErrorAfter (k + n) (.accepted k :: outcomes)

/-- The kernel gets a front part of the data, no longer than the length asked for. -/
theorem sendLoop_taken {len : Int} {data : List UInt8} {total sent : Nat} {kernel taken : List UInt8}
    {outcomes : List Outcome} {exit : Exit}
    (h : sendLoop len data total kernel outcomes = some (exit, sent, taken)) :
    total ≤ sent ∧ (sent = total ∨ (sent : Int) ≤ len) ∧
      taken = kernel ++ data.take (sent - total) := by
  induction outcomes generalizing data total kernel with
  | nil =>
      simp only [sendLoop] at h
      split at h
      · cases h
      · cases h
        simp
  | cons outcome outcomes ih =>
      simp only [sendLoop] at h
      split at h
      · cases outcome with
        | interrupted => exact ih h
        | accepted k =>
            simp only at h
            split at h
            · cases h
              simp
            · split at h
              · case isTrue fits =>
                  obtain ⟨le, bound, rfl⟩ := ih h
                  refine ⟨by omega, .inr ?_, ?_⟩
                  · rcases bound with rfl | bound
                    · exact fits
                    · exact bound
                  · have more : sent - total = k + (sent - (total + k)) := by omega
                    rw [more, List.take_add, List.append_assoc]
              · cases h
        | _ =>
            cases h
            simp
      · cases h
        simp

theorem sendLoop_fail_iff {len : Int} {data : List UInt8} {total sent : Nat}
    {kernel taken : List UInt8} {outcomes : List Outcome} {exit : Exit}
    (h : sendLoop len data total kernel outcomes = some (exit, sent, taken)) (n : Nat) :
    (exit = .fail ∧ sent = total + n) ↔
      ErrorAfter n outcomes ∧ ((total + n : Nat) : Int) < len := by
  induction outcomes generalizing data total kernel n with
  | nil =>
      simp only [sendLoop] at h
      split at h
      · cases h
      · cases h
        exact ⟨fun fail => (by cases fail.1), fun error => (by cases error.1)⟩
  | cons outcome outcomes ih =>
      simp only [sendLoop] at h
      split at h
      · case isTrue more =>
        cases outcome with
        | wouldBlock =>
            cases h
            exact ⟨fun fail => (by cases fail.1), fun error => (by cases error.1)⟩
        | connReset =>
            cases h
            exact ⟨fun fail => (by cases fail.1), fun error => (by cases error.1)⟩
        | interrupted =>
            rw [ih h n]
            exact ⟨fun error => ⟨.interrupted error.1, error.2⟩, fun error => by
              cases error.1 with
              | interrupted later => exact ⟨later, error.2⟩⟩
        | other =>
            cases h
            constructor
            · intro fail
              have : n = 0 := by omega
              subst this
              exact ⟨.here, more⟩
            · intro error
              cases error.1
              exact ⟨rfl, rfl⟩
        | accepted k =>
            simp only at h
            split at h
            · case isTrue zero =>
                cases h
                exact ⟨fun fail => (by cases fail.1), fun error => by
                  cases error.1 with
                  | accepted positive later => exact absurd zero positive⟩
            · case isFalse positive =>
                split at h
                · case isTrue fits =>
                    have le := (sendLoop_taken h).1
                    constructor
                    · intro fail
                      have split : n = k + (n - k) := by omega
                      have error := (ih h (n - k)).mp ⟨fail.1, by omega⟩
                      rw [split]
                      exact ⟨.accepted positive error.1, by omega⟩
                    · intro ⟨error, below⟩
                      cases error with
                      | accepted _ later =>
                          have fail := (ih h _).mpr ⟨later, by omega⟩
                          exact ⟨fail.1, by omega⟩
                · cases h
      · case isFalse full =>
          cases h
          exact ⟨fun fail => (by cases fail.1), fun error => absurd error.2 (by omega)⟩

/-- do_send on this state with these outcomes meets no unhandled error but one before
the first byte with EPOLLOUT monitored, and the size of a buffer to send is not 0 as int. -/
def Calm (s : Connection) (outcomes : List Outcome) : Prop :=
  (asInt s.buf.length = 0 → s.buf ≠ [] → Armed s) ∧
    ∀ n, ErrorAfter n outcomes → (n : Int) < asInt s.buf.length → n = 0 ∧ Armed s

theorem settle_kept {s : Connection} {kernel : List UInt8} {total : Nat} {keep : Bool}
    (conserved : s.kernel ++ s.buf = s.appended) (taken : kernel = s.kernel ++ s.buf.take total) :
    Kept (settle { s with kernel := kernel } total keep) := by
  have whole : kernel ++ s.buf.drop total = s.appended := by
    rw [taken, List.append_assoc, List.take_append_drop, conserved]
  unfold settle
  by_cases refused : 0 < total ∧ keep = false
  · intro notClosed
    simp only [refused, and_self, if_true, Connection.close] at notClosed
    split at notClosed
    · split at notClosed <;> cases notClosed
    · split at notClosed <;> cases notClosed
  · simp only [refused, if_false]
    split
    · split
      · exact fun _ => ⟨whole, fun _ => armed_doMonitorEvents _ _⟩
      · case isFalse armed => exact fun _ => ⟨whole, fun _ => not_not.mp armed⟩
    · case isFalse empty =>
        have nil : s.buf.drop total = [] := by simpa using empty
        split
        · exact fun _ => ⟨whole, fun left => absurd nil left⟩
        · exact fun _ => ⟨whole, fun left => absurd nil left⟩

theorem doSend_kept_iff {s t : Connection} {outcomes : List Outcome} {keep : Bool}
    (running : s.closed = false) (conserved : s.kernel ++ s.buf = s.appended)
    (call : doSend s outcomes keep = some t) : Kept t ↔ Calm s outcomes := by
  unfold doSend at call
  by_cases zero : asInt s.buf.length = 0
  · simp only [zero, if_true] at call
    cases call
    constructor
    · intro kept
      exact ⟨fun _ => (kept running).2, fun n _ below => absurd below (by omega)⟩
    · intro calm _
      exact ⟨conserved, calm.1 zero⟩
  · simp only [zero, if_false] at call
    cases loop : sendLoop (asInt s.buf.length) s.buf 0 s.kernel outcomes with
    | none =>
        rw [loop] at call
        cases call
    | some result =>
        obtain ⟨exit, sent, taken⟩ := result
        rw [loop] at call
        obtain ⟨-, bound, part⟩ := sendLoop_taken loop
        have fails := sendLoop_fail_iff loop
        rw [Nat.sub_zero] at part
        have calm_of : exit ≠ .fail → Calm s outcomes := fun other =>
          ⟨fun size => absurd size zero, fun n error below =>
            absurd ((fails n).mpr ⟨error, by omega⟩).1 other⟩
        cases exit with
        | flush =>
            cases call
            exact ⟨fun _ => calm_of (by decide), fun _ => settle_kept conserved part⟩
        | close =>
            cases call
            exact ⟨fun _ => calm_of (by decide), fun _ notClosed => by cases notClosed⟩
        | fail =>
            cases call
            have error := (fails sent).mp ⟨rfl, by omega⟩
            have size := asInt_le s.buf.length
            have some_ : s.buf ≠ [] := by
              intro nil
              rw [nil] at zero
              exact zero (by decide)
            constructor
            · intro kept
              obtain ⟨whole, armed⟩ := kept running
              have lengths := congrArg List.length (whole.trans conserved.symm)
              simp only [part, List.length_append, List.length_take] at lengths
              have none_ : sent = 0 := by omega
              refine ⟨fun size => absurd size zero, fun n later below => ?_⟩
              have same := ((fails n).mpr ⟨later, by omega⟩).2
              exact ⟨by omega, armed some_⟩
            · intro calm _
              obtain ⟨none_, armed⟩ := calm.2 sent error.1 (by omega)
              refine ⟨?_, fun _ => armed⟩
              simp only [part, none_, List.take_zero, List.append_nil]
              exact conserved

/-- Nothing is done about an append while EPOLLOUT is monitored. -/
def StepCalm (s : Connection) : Action → Prop
  | .asyncSendv iov outcomes _ => ¬ Armed s → Calm (s.append iov) outcomes
  | .doSend outcomes _ => Calm s outcomes

theorem append_conserved {s : Connection} (conserved : s.kernel ++ s.buf = s.appended)
    (iov : List (List UInt8)) :
    (s.append iov).kernel ++ (s.append iov).buf = (s.append iov).appended := by
  simp only [Connection.append, ← conserved, List.append_assoc]

theorem step_kept_iff {s t : Connection} {a : Action} (kept : Kept s)
    (taken : step s a = some t) : Kept t ↔ StepCalm s a := by
  unfold step at taken
  split at taken
  · cases taken
  · case isFalse open_ =>
    have running : s.closed = false := by simpa using open_
    have conserved := (kept running).1
    cases a with
    | doSend outcomes keep => exact doSend_kept_iff running conserved taken
    | asyncSendv iov outcomes keep =>
        have after := append_conserved conserved iov
        simp only [asyncSendv, Bool.true_eq_false, if_false] at taken
        split at taken
        · case isTrue monitored =>
            cases taken
            have armed : Armed s := armed_iff_ne.mpr monitored
            exact ⟨fun _ quiet => absurd armed quiet, fun _ _ => ⟨after, fun _ => armed⟩⟩
        · case isFalse quiet =>
            have notArmed : ¬ Armed s := fun armed => quiet (armed_iff_ne.mp armed)
            rw [doSend_kept_iff (s := s.append iov) running after taken]
            exact ⟨fun calm _ => calm, fun calm => calm notArmed⟩

/-- Along every run the bytes are kept exactly when each call is calm. -/
theorem send_path_exact {monitorEvents : BitVec 32} {bindEpoll : Bool}
    {control : List (Control × BitVec 32)} {schedule : List Action} {s : Connection}
    (run : runs step (opened monitorEvents bindEpoll control) schedule = some s) :
    Throughout step Kept (opened monitorEvents bindEpoll control) schedule ↔
      StepsMeet step StepCalm (opened monitorEvents bindEpoll control) schedule :=
  throughout_iff_stepsMeet (fun _ _ _ kept taken => step_kept_iff kept taken) run
    fun _ => ⟨rfl, fun some_ => absurd rfl some_⟩

def resumed : List Action :=
  [.asyncSendv [[1, 2], [3]] [.accepted 2, .interrupted, .wouldBlock] true,
    .asyncSendv [[4]] [] true, .doSend [.accepted 1, .accepted 1] true]

/-- Where no error is among the outcomes, none is met. -/
theorem not_errorAfter {outcomes : List Outcome} (none_ : .other ∉ outcomes) (n : Nat) :
    ¬ ErrorAfter n outcomes := by
  intro error
  induction error with
  | here => exact none_ List.mem_cons_self
  | interrupted later ih => exact ih fun inside => none_ (List.mem_cons_of_mem _ inside)
  | accepted some later ih => exact ih fun inside => none_ (List.mem_cons_of_mem _ inside)

theorem send_path_exact_resumed : Throughout step Kept (opened 1#32 true []) resumed := by
  have run : runs step (opened 1#32 true []) resumed = some
      { buf := []
        monitorEvents := 0x80000011#32
        bindEpoll := true
        control := [(.mod, 0x80000015#32), (.mod, 0x80000011#32)]
        closed := false
        kernel := [1, 2, 3, 4]
        appended := [1, 2, 3, 4] } := by decide
  have calm {s : Connection} {outcomes : List Outcome} (size : asInt s.buf.length ≠ 0)
      (none_ : .other ∉ outcomes) : Calm s outcomes :=
    ⟨fun zero => absurd zero size, fun n error => absurd error (not_errorAfter none_ n)⟩
  refine (send_path_exact run).mpr ⟨fun _ => calm (by decide) (by decide), fun s hs => ?_⟩
  obtain rfl := Option.some.inj hs
  refine ⟨fun quiet => absurd (by decide) quiet, fun s hs => ?_⟩
  obtain rfl := Option.some.inj hs
  exact ⟨calm (by decide) (by decide), fun s hs => trivial⟩

/-- The kernel takes one of two bytes, then send fails with an error such as EPIPE:
the buffer still holds both. -/
theorem send_repeats_byte :
    ∃ schedule s, runs step (opened 1#32 true []) schedule = some s ∧ ¬ Kept s := by
  refine ⟨[.asyncSendv [[1, 2]] [.accepted 1, .other] true], _, rfl, ?_⟩
  intro kept
  exact absurd (kept rfl).1 (by decide)

end HZRobot.Epoll
