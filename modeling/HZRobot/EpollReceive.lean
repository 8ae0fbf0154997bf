import HZRobot.Blocks
import HZRobot.Transition

/-!
The receive path of a connection on an edge-triggered epoll. do_recv goes on as long as
::recv fills the buffer; any other answer ends it. What is left in the socket then is not
reported again before more arrives or the registration is modified. Bytes and the end of
the stream arrive at any time, between two calls of ::recv as well.
-/

namespace HZRobot.EpollReceive

/-- The size of the receive buffer. -/
def recvSome : Nat := 1024

/-- Outside do_recv, or at its next ::recv. -/
inductive Pc where
  | idle
  | receiving
  deriving DecidableEq, Repr

structure System where
  /-- What is in the socket. -/
  pending : List UInt8
  /-- The peer will send no more. -/
  ended : Bool
  /-- epoll_wait will report EPOLLIN. -/
  edge : Bool
  pc : Pc
  closed : Bool
  arrived : List UInt8
  /-- The chunks that the receive callback got. -/
  delivered : List (List UInt8)
  deriving DecidableEq, Repr

def opened : System where
  pending := []
  ended := false
  edge := false
  pc := .idle
  closed := false
  arrived := []
  delivered := []

/-- What a ::recv meets besides the socket: the answer of the callback, should there be
one, a signal, or an error that is neither EINTR nor that there is nothing to read. -/
inductive Outcome where
  | answered (keep : Bool)
  | interrupted
  | failed
  deriving DecidableEq, Repr

inductive Action where
  | arrive (bytes : List UInt8)
  | finish
  /-- do_monitor_events on the registered connection, or room to send while it is watched for
  that: what is ready is reported again. -/
  | modify
  | dispatch
  | recv (outcome : Outcome)
  deriving DecidableEq, Repr

def System.close (s : System) : System := { s with pc := .idle, closed := true }

/-- One ::recv of do_recv with what is done about its result. -/
def doRecv (s : System) : Outcome → System
  | .failed => s.close
  | .interrupted => { s with pc := .idle }
  | .answered keep =>
      if s.pending = [] then
        if s.ended then s.close else { s with pc := .idle }
      else
        let chunk := s.pending.take recvSome
        let s := { s with
          pending := s.pending.drop recvSome
          delivered := s.delivered ++ [chunk] }
        if keep = false then s.close
        else if chunk.length = recvSome then s
        else { s with pc := .idle }

def step (s : System) (a : Action) : Option System :=
  if s.closed then none
  else
    match a with
    | .arrive bytes =>
        if bytes = [] ∨ s.ended then none
        else some { s with
          pending := s.pending ++ bytes
          arrived := s.arrived ++ bytes
          edge := true }
    | .finish => if s.ended then none else some { s with ended := true, edge := true }
    | .modify => some { s with edge := s.edge || s.ended || !s.pending.isEmpty }
    | .dispatch =>
        if s.pc = .idle ∧ s.edge then some { s with pc := .receiving, edge := false } else none
    | .recv outcome => if s.pc = .receiving then some (doRecv s outcome) else none

/-- The callback has got the stream up to what is in the socket. -/
def Received (s : System) : Prop := s.delivered.flatten ++ s.pending = s.arrived

/-- There is something for do_recv to do: bytes or the end of the stream. -/
def Waiting (s : System) : Prop := s.pending ≠ [] ∨ s.ended = true

/-- What waits for do_recv is reported to it. -/
def Served (s : System) : Prop :=
  s.closed = false → s.pc = .idle → Waiting s → s.edge = true

/-- Where nothing has arrived since epoll_wait, a signal finds nothing to do, and a chunk
that does not fill the buffer is not followed by the end of the stream. -/
def Drains (s : System) : Action → Prop
  | .recv .interrupted => s.edge = false → ¬ Waiting s
  | .recv (.answered true) => s.edge = false → s.ended = true → s.pending ≠ [] →
      recvSome ≤ s.pending.length
  | _ => True

/-- What each action does, where it is enabled. -/
theorem step_cases {s t : System} {a : Action} (taken : step s a = some t) : s.closed = false ∧
    match a with
    | .arrive bytes => s.ended = false ∧ t = { s with
        pending := s.pending ++ bytes
        arrived := s.arrived ++ bytes
        edge := true }
    | .finish => s.ended = false ∧ t = { s with ended := true, edge := true }
    | .modify => t = { s with edge := s.edge || s.ended || !s.pending.isEmpty }
    | .dispatch => s.pc = .idle ∧ t = { s with pc := .receiving, edge := false }
    | .recv outcome => s.pc = .receiving ∧ t = doRecv s outcome := by
  unfold step at taken
  split at taken
  · cases taken
  · case isFalse closed =>
      refine ⟨Bool.eq_false_iff.mpr closed, ?_⟩
      cases a with
      | arrive bytes =>
          dsimp only at taken
          split at taken
          · cases taken
          · case isFalse open_ => exact ⟨by simpa using (not_or.mp open_).2, (Option.some.inj taken).symm⟩
      | finish =>
          dsimp only at taken
          split at taken
          · cases taken
          · case isFalse open_ => exact ⟨Bool.eq_false_iff.mpr open_, (Option.some.inj taken).symm⟩
      | modify => exact (Option.some.inj taken).symm
      | dispatch =>
          dsimp only at taken
          split at taken
          · case isTrue ready => exact ⟨ready.1, (Option.some.inj taken).symm⟩
          · cases taken
      | recv outcome =>
          dsimp only at taken
          split at taken
          · case isTrue here => exact ⟨here, (Option.some.inj taken).symm⟩
          · cases taken

/-- What a ::recv that is neither interrupted nor fails does. -/
theorem doRecv_answered (s : System) (keep : Bool) :
    (s.pending = [] ∧ s.ended = true ∧ doRecv s (.answered keep) = s.close) ∨
    (s.pending = [] ∧ s.ended = false ∧ doRecv s (.answered keep) = { s with pc := .idle }) ∨
    (s.pending ≠ [] ∧ ∃ pc closed, doRecv s (.answered keep) = { s with
        pending := s.pending.drop recvSome
        delivered := s.delivered ++ [s.pending.take recvSome]
        pc := pc
        closed := closed } ∧
      (keep = false → closed = true) ∧ (keep = true → closed = s.closed) ∧
      (keep = true → pc = if recvSome ≤ s.pending.length then s.pc else .idle)) := by
  by_cases empty : s.pending = []
  · cases ended : s.ended with
    | true => exact .inl ⟨empty, rfl, by simp [doRecv, empty, ended]⟩
    | false => exact .inr (.inl ⟨empty, rfl, by simp [doRecv, empty, ended]⟩)
  · refine .inr (.inr ⟨empty, ?_⟩)
    have full : (s.pending.take recvSome).length = recvSome ↔ recvSome ≤ s.pending.length := by
      rw [List.length_take]
      omega
    cases keep with
    | false => exact ⟨.idle, true, by simp [doRecv, empty, System.close], by simp, nofun, nofun⟩
    | true =>
        by_cases more : recvSome ≤ s.pending.length
        · refine ⟨s.pc, s.closed, ?_, nofun, by simp, by simp [more]⟩
          simp only [doRecv, if_neg empty, Bool.true_eq_false, if_false, if_pos (full.mpr more)]
        · refine ⟨.idle, s.closed, ?_, nofun, by simp, by simp [more]⟩
          simp only [doRecv, if_neg empty, Bool.true_eq_false, if_false,
            if_neg (mt full.mp more)]

theorem doRecv_received {s : System} (h : Received s) (outcome : Outcome) :
    Received (doRecv s outcome) := by
  cases outcome with
  | failed | interrupted => exact h
  | answered keep =>
      obtain ⟨-, -, same⟩ | ⟨-, -, same⟩ | ⟨-, pc, closed, same, -⟩ := doRecv_answered s keep
      · rw [same]
        exact h
      · rw [same]
        exact h
      · have chunk : (s.delivered ++ [s.pending.take recvSome]).flatten ++
            s.pending.drop recvSome = s.arrived := by
          rw [List.flatten_append, List.flatten_singleton, List.append_assoc,
            List.take_append_drop]
          exact h
        rw [same]
        exact chunk

theorem step_received (s : System) (a : Action) (t : System) (h : Received s)
    (taken : step s a = some t) : Received t := by
  obtain ⟨-, what⟩ := step_cases taken
  cases a with
  | arrive bytes =>
      rw [what.2]
      show s.delivered.flatten ++ (s.pending ++ bytes) = s.arrived ++ bytes
      rw [← List.append_assoc, show s.delivered.flatten ++ s.pending = s.arrived from h]
  | finish =>
      rw [what.2]
      exact h
  | modify =>
      rw [what]
      exact h
  | dispatch =>
      rw [what.2]
      exact h
  | recv outcome =>
      rw [what.2]
      exact doRecv_received h outcome

/-- A ::recv leaves something that is not reported exactly when it does not drain. -/
theorem doRecv_served_iff {s : System} (open_ : s.closed = false) (here : s.pc = .receiving)
    (outcome : Outcome) : Served (doRecv s outcome) ↔ Drains s (.recv outcome) := by
  cases outcome with
  | failed => exact ⟨fun _ => trivial, fun _ => nofun⟩
  | interrupted =>
      constructor
      · intro served noEdge waiting
        have edge : s.edge = true := served open_ rfl waiting
        rw [noEdge] at edge
        cases edge
      · intro drains _ _ waiting
        by_contra noEdge
        exact drains (Bool.eq_false_iff.mpr noEdge) waiting
  | answered keep =>
      obtain ⟨empty, ended, same⟩ | ⟨empty, ended, same⟩ |
        ⟨some_, pc, closed, same, refused, kept, goes⟩ := doRecv_answered s keep
      · rw [same]
        refine ⟨fun _ => ?_, fun _ => nofun⟩
        cases keep with
        | true => exact fun _ _ some_ => absurd empty some_
        | false => trivial
      · rw [same]
        constructor
        · intro _
          cases keep with
          | true => exact fun _ _ some_ => absurd empty some_
          | false => trivial
        · rintro _ _ _ (some_ | finished)
          · exact absurd empty some_
          · cases ended.symm.trans finished
      · rw [same]
        cases keep with
        | false =>
            refine ⟨fun _ => trivial, fun _ stillOpen => ?_⟩
            cases (refused rfl).symm.trans stillOpen
        | true =>
            rw [kept rfl, goes rfl, here]
            by_cases more : recvSome ≤ s.pending.length
            · rw [if_pos more]
              exact ⟨fun _ _ _ _ => more, fun _ _ => nofun⟩
            · rw [if_neg more]
              have nothing : s.pending.drop recvSome = [] :=
                List.drop_eq_nil_iff.mpr (by omega)
              constructor
              · intro served noEdge ended _
                have edge : s.edge = true := served open_ rfl (.inr ended)
                rw [noEdge] at edge
                cases edge
              · rintro drains _ _ (left | ended)
                · exact absurd nothing left
                · by_contra noEdge
                  exact more (drains (Bool.eq_false_iff.mpr noEdge) ended some_)

theorem step_served_iff (s : System) (a : Action) (t : System) (_ : Served s)
    (taken : step s a = some t) : Served t ↔ Drains s a := by
  obtain ⟨open_, what⟩ := step_cases taken
  cases a with
  | arrive bytes =>
      rw [what.2]
      exact ⟨fun _ => trivial, fun _ _ _ _ => rfl⟩
  | finish =>
      rw [what.2]
      exact ⟨fun _ => trivial, fun _ _ _ _ => rfl⟩
  | modify =>
      refine ⟨fun _ => trivial, fun _ _ _ waiting => ?_⟩
      rw [what] at waiting ⊢
      rcases waiting with some_ | ended
      · simp [List.isEmpty_eq_false_iff.mpr some_]
      · simp [show s.ended = true from ended]
  | dispatch =>
      rw [what.2]
      exact ⟨fun _ => trivial, fun _ _ => nofun⟩
  | recv outcome =>
      rw [what.2]
      exact doRecv_served_iff open_ what.1 outcome

/-- Along every run the callback gets the stream in order, and what waits is reported
throughout exactly when every step drains the socket. -/
theorem receive_path_exact {schedule : List Action} {s : System}
    (run : runs step opened schedule = some s) :
    s.delivered.flatten ++ s.pending = s.arrived ∧
      (Throughout step Served opened schedule ↔ StepsMeet step Drains opened schedule) :=
  ⟨runs_invariant step_received run rfl,
    throughout_iff_stepsMeet step_served_iff run fun _ _ waiting => by
      rcases waiting with some_ | ended
      · exact absurd rfl some_
      · cases ended⟩

/-- The end of the stream comes with the last bytes and is not seen. -/
def unseenEnd : List Action := [.arrive [1, 2], .finish, .dispatch, .recv (.answered true)]

theorem receive_path_exact_unseenEnd : [[(1 : UInt8), 2]].flatten ++ [] = [1, 2] ∧
    (Throughout step Served opened unseenEnd ↔ StepsMeet step Drains opened unseenEnd) := by
  have run : runs step opened unseenEnd = some
      { opened with ended := true, arrived := [1, 2], delivered := [[1, 2]] } := by decide
  exact receive_path_exact run

open Blocks in
/-- Full buffers, and what is left behind them. -/
def chunks (pending : List UInt8) : List (List UInt8) :=
  whole recvSome pending ++
    if rest recvSome pending = [] then [] else [rest recvSome pending]

theorem recvSome_pos : 0 < recvSome := by decide

open Blocks in
theorem chunks_of_lt {pending : List UInt8} (some_ : pending ≠ [])
    (short : pending.length < recvSome) : chunks pending = [pending] := by
  rw [chunks, whole_of_lt short, rest_of_lt short, if_neg some_, List.nil_append]

open Blocks in
theorem chunks_of_le {pending : List UInt8} (full : recvSome ≤ pending.length) :
    chunks pending = pending.take recvSome :: chunks (pending.drop recvSome) := by
  have size : (pending.take recvSome).length = recvSome := by
    rw [List.length_take]
    exact Nat.min_eq_left full
  have fits : recvSome ∣ (pending.take recvSome).length := ⟨1, by rw [size, Nat.mul_one]⟩
  have first := whole_append recvSome_pos fits (pending.drop recvSome)
  have last := rest_append recvSome_pos fits (pending.drop recvSome)
  rw [List.take_append_drop] at first last
  rw [chunks, first, last, whole_single recvSome_pos size, List.append_assoc, chunks]
  rfl

/-- A do_recv that is left alone hands over all there is in the socket. It sees the end of
the stream behind it only when the last chunk fills the buffer. -/
theorem doRecv_alone {s : System} (open_ : s.closed = false) (here : s.pc = .receiving) :
    runs step s
        (List.replicate (s.pending.length / recvSome + 1) (.recv (.answered true))) =
      some { s with
        pending := []
        delivered := s.delivered ++ chunks s.pending
        pc := .idle
        closed := s.ended && decide (s.pending.length % recvSome = 0) } := by
  have once (s : System) (open_ : s.closed = false) (here : s.pc = .receiving) :
      step s (.recv (.answered true)) = some (doRecv s (.answered true)) := by
    rw [step, if_neg (Bool.eq_false_iff.mp open_)]
    exact if_pos here
  induction n : s.pending.length using Nat.strong_induction_on generalizing s with
  | _ n ih =>
      subst n
      rw [List.replicate_succ, runs, once s open_ here, Option.bind_some]
      obtain ⟨empty, ended, same⟩ | ⟨empty, ended, same⟩ |
        ⟨some_, pc, closed, same, -, kept, goes⟩ := doRecv_answered s true
      · rw [same, empty]
        simp [runs, System.close, ended, empty, chunks, Blocks.whole, Blocks.blocks, Blocks.rest]
      · rw [same, empty]
        simp [runs, ended, open_, chunks, Blocks.whole, Blocks.blocks, Blocks.rest]
      · rw [same, kept rfl, goes rfl, here, open_]
        by_cases full : recvSome ≤ s.pending.length
        · have count := Nat.div_eq_sub_div recvSome_pos full
          have left : (s.pending.drop recvSome).length = s.pending.length - recvSome :=
            List.length_drop
          have later := ih (s.pending.drop recvSome).length
            (by rw [left]; exact Nat.sub_lt (Nat.lt_of_lt_of_le recvSome_pos full) recvSome_pos)
            (s := { s with
              pending := s.pending.drop recvSome
              delivered := s.delivered ++ [s.pending.take recvSome]
              pc := .receiving
              closed := false }) rfl rfl rfl
          rw [if_pos full, count, ← left, later, chunks_of_le full, Nat.mod_eq_sub_mod full, left]
          simp
        · have short := Nat.lt_of_not_le full
          have none_ : s.pending.drop recvSome = [] :=
            List.drop_eq_nil_iff.mpr (Nat.le_of_lt short)
          have odd : ¬ s.pending.length % recvSome = 0 := by
            rw [Nat.mod_eq_of_lt short]
            simpa using some_
          rw [if_neg full, Nat.div_eq_of_lt short, none_, chunks_of_lt some_ short,
            List.take_of_length_le (Nat.le_of_lt short), decide_eq_false odd, Bool.and_false]
          rfl

theorem doRecv_alone_short :
    runs step { opened with pending := [1, 2], ended := true, pc := .receiving }
        (List.replicate (2 / recvSome + 1) (.recv (.answered true))) =
      some { opened with ended := true, delivered := [[1, 2]] } :=
  doRecv_alone (s := { opened with pending := [1, 2], ended := true, pc := .receiving }) rfl rfl

end HZRobot.EpollReceive
