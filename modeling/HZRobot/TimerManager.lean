import HZRobot.Transition
import Mathlib.Algebra.Group.Nat.Defs
import Mathlib.Data.List.Nodup

/-!
The timer manager. do_timer takes an entry out of the multimap, runs its callback
and puts a copy back when the callback returns true; while a callback runs, user code
may call set_timer, cancel_timer and clear_all. The clock gives any value at each
reading, and sums of uint64 are taken modulo 2^64.
-/

namespace HZRobot.TimerManager

structure Timer where
  id : Nat
  delay : Nat
  timestamp : Nat
  relative : Bool
  deriving DecidableEq, Repr

/-- Where the thread is: outside do_timer, at the head of its loop, or in a callback. -/
inductive Pc where
  | idle
  | looping (now : Nat)
  | running (item : Timer) (now : Nat)
  deriving DecidableEq, Repr

inductive Event where
  | set (id : Nat)
  | cancelled (id : Nat)
  | started (id : Nat)
  | finished (id : Nat) (again : Bool)
  | returned (wait : Nat)
  deriving DecidableEq, Repr

structure System where
  entries : List (Nat × Timer)
  id : Nat
  pc : Pc
  history : List Event
  deriving DecidableEq, Repr

def init : System where
  entries := []
  id := 0
  pc := .idle
  history := []

/-- Addition of uint64. -/
def add64 (a b : Nat) : Nat := (a + b) % 2 ^ 64

/-- multimap::insert, behind the entries with the same key. -/
def insert (key : Nat) (item : Timer) : List (Nat × Timer) → List (Nat × Timer)
  | [] => [(key, item)]
  | e :: es => if key < e.1 then (key, item) :: e :: es else e :: insert key item es

/-- The loop of cancel_timer. -/
def eraseId (id : Nat) : List (Nat × Timer) → List (Nat × Timer)
  | [] => []
  | e :: es => if e.2.id = id then es else e :: eraseId id es

def cancelEntries (id : Nat) (entries : List (Nat × Timer)) : List (Nat × Timer) :=
  if id = 0 then entries else eraseId id entries

def Timer.again (item : Timer) (now : Nat) : Timer :=
  { item with timestamp :=
      if item.relative then add64 now item.delay
      else max (add64 item.timestamp item.delay) now }

def System.log (s : System) (e : Event) : System :=
  { s with history := s.history ++ [e] }

inductive Action where
  | setTimer (now delay : Nat) (relative : Bool)
  | cancelTimer (id : Nat)
  | clearAll
  | doTimer (now : Nat)
  | loop
  | finish (again : Bool) (now : Nat)
  deriving DecidableEq, Repr

/-- User code runs outside do_timer and in a callback. -/
def System.userCode (s : System) : Bool :=
  match s.pc with
  | .looping _ => false
  | _ => true

def setTimer (s : System) (now delay : Nat) (relative : Bool) : System :=
  if delay = 0 then s
  else
    let id := add64 s.id 1
    let item : Timer := ⟨id, delay, add64 now delay, relative⟩
    { s with id := id, entries := insert item.timestamp item s.entries }.log (.set id)

def step (s : System) : Action → Option System
  | .setTimer now delay relative =>
      if s.userCode then some (setTimer s now delay relative) else none
  | .cancelTimer id =>
      if s.userCode then
        some ({ s with entries := cancelEntries id s.entries }.log (.cancelled id))
      else none
  | .clearAll => if s.userCode then some { s with entries := [] } else none
  | .doTimer now =>
      match s.pc with
      | .idle =>
          if s.entries = [] then some (s.log (.returned 0)) else some { s with pc := .looping now }
      | _ => none
  | .loop =>
      match s.pc, s.entries with
      | .looping _, [] => some ({ s with pc := .idle }.log (.returned 0))
      | .looping now, (key, item) :: es =>
          if key ≤ now then
            some ({ s with entries := es, pc := .running item now }.log (.started item.id))
          else some ({ s with pc := .idle }.log (.returned (key - now)))
      | _, _ => none
  | .finish again now =>
      match s.pc with
      | .running item before =>
          if again then
            let item := item.again now
            some ({ s with entries := insert item.timestamp item s.entries, pc := .looping now }.log
              (.finished item.id true))
          else some ({ s with pc := .looping before }.log (.finished item.id false))
      | _ => none

theorem mem_insert {key : Nat} {item : Timer} {entries : List (Nat × Timer)} {e : Nat × Timer} :
    e ∈ insert key item entries ↔ e = (key, item) ∨ e ∈ entries := by
  induction entries with
  | nil => simp [insert]
  | cons d entries ih =>
      rw [insert]
      split
      · exact List.mem_cons
      · rw [List.mem_cons, ih, List.mem_cons]
        exact or_left_comm

theorem insert_perm (key : Nat) (item : Timer) (entries : List (Nat × Timer)) :
    (insert key item entries).Perm ((key, item) :: entries) := by
  induction entries with
  | nil => exact List.Perm.refl _
  | cons d entries ih =>
      rw [insert]
      split
      · exact List.Perm.refl _
      · exact (ih.cons d).trans (List.Perm.swap _ _ _)

theorem eraseId_sublist (id : Nat) (entries : List (Nat × Timer)) :
    (eraseId id entries).Sublist entries := by
  induction entries with
  | nil => exact List.Sublist.refl _
  | cons e entries ih =>
      rw [eraseId]
      split
      · exact List.sublist_cons_self e entries
      · exact ih.cons_cons e

theorem cancelEntries_sublist (id : Nat) (entries : List (Nat × Timer)) :
    (cancelEntries id entries).Sublist entries := by
  unfold cancelEntries
  split
  · exact List.Sublist.refl _
  · exact eraseId_sublist id entries

def ids (entries : List (Nat × Timer)) : List Nat := entries.map fun e => e.2.id

theorem mem_ids {id : Nat} {entries : List (Nat × Timer)} :
    id ∈ ids entries ↔ ∃ e ∈ entries, e.2.id = id := List.mem_map

/-- With distinct ids the first entry with an id is the only one. -/
theorem eraseId_eq_filter {entries : List (Nat × Timer)} (distinct : (ids entries).Nodup)
    (id : Nat) : eraseId id entries = entries.filter fun e => e.2.id ≠ id := by
  induction entries with
  | nil => rfl
  | cons e entries ih =>
      rw [ids, List.map_cons, List.nodup_cons] at distinct
      rw [eraseId]
      by_cases here : e.2.id = id
      · have others : ∀ d ∈ entries, d.2.id ≠ id := fun d hd same =>
          distinct.1 (List.mem_map.mpr ⟨d, hd, same.trans here.symm⟩)
        rw [if_pos here, List.filter_cons_of_neg (by simpa using here)]
        exact (List.filter_eq_self.mpr fun d hd => by simpa using others d hd).symm
      · rw [if_neg here, List.filter_cons_of_pos (by simpa using here), ih distinct.2]

/-- The timer whose callback runs. -/
def Pc.item : Pc → Option Timer
  | .running item _ => some item
  | _ => none

structure Identified (s : System) : Prop where
  key : ∀ e ∈ s.entries, e.1 = e.2.timestamp
  distinct : (ids s.entries).Nodup
  issued : ∀ e ∈ s.entries, 0 < e.2.id ∧ e.2.id ≤ s.id
  running : ∀ item ∈ s.pc.item, 0 < item.id ∧ item.id ≤ s.id ∧ item.id ∉ ids s.entries

theorem identified_init : Identified init := by
  refine ⟨?_, List.nodup_nil, ?_, ?_⟩
  · intro e he
    cases he
  · intro e he
    cases he
  · intro item running
    cases running

/-- The entries and the item come from before, so do their ids. -/
theorem Identified.of_sublist {s t : System} (h : Identified s)
    (entries : t.entries.Sublist s.entries) (id : t.id = s.id) (pc : t.pc.item = s.pc.item) :
    Identified t := by
  refine ⟨fun e he => h.key e (entries.subset he), h.distinct.sublist (entries.map _),
    fun e he => id ▸ h.issued e (entries.subset he), fun item running => ?_⟩
  rw [pc] at running
  obtain ⟨pos, le, out⟩ := h.running item running
  exact ⟨pos, id ▸ le, fun inside => out ((entries.map _).subset inside)⟩

theorem identified_setTimer {s : System} (h : Identified s) (now delay : Nat) (relative : Bool)
    (room : s.id + 1 < 2 ^ 64) : Identified (setTimer s now delay relative) := by
  unfold setTimer
  split
  · exact h
  · have id : add64 s.id 1 = s.id + 1 := Nat.mod_eq_of_lt room
    have fresh : s.id + 1 ∉ ids s.entries := fun inside => by
      obtain ⟨e, he, same⟩ := mem_ids.mp inside
      have := (h.issued e he).2
      omega
    rw [id]
    refine ⟨fun e he => ?_, ?_, fun e he => ?_, fun item running => ?_⟩
    · rcases mem_insert.mp he with rfl | old
      · rfl
      · exact h.key e old
    · refine ((insert_perm _ _ s.entries).map _).nodup_iff.mpr ?_
      rw [List.map_cons, List.nodup_cons]
      exact ⟨fresh, h.distinct⟩
    · rcases mem_insert.mp he with rfl | old
      · exact ⟨Nat.succ_pos _, Nat.le_refl _⟩
      · exact ⟨(h.issued e old).1, Nat.le_succ_of_le (h.issued e old).2⟩
    · obtain ⟨pos, le, out⟩ := h.running item running
      refine ⟨pos, Nat.le_succ_of_le le, fun inside => ?_⟩
      obtain ⟨e, he, same⟩ := mem_ids.mp inside
      rcases mem_insert.mp he with rfl | old
      · have : s.id + 1 = item.id := same
        omega
      · exact out (mem_ids.mpr ⟨e, old, same⟩)

/-- What the head of the loop does. -/
theorem loop_cases {s t : System} (h : step s .loop = some t) :
    ∃ now, s.pc = .looping now ∧
      ((s.entries = [] ∧ t = { s with pc := .idle }.log (.returned 0)) ∨
        (∃ key item es, s.entries = (key, item) :: es ∧ key ≤ now ∧
          t = { s with entries := es, pc := .running item now }.log (.started item.id)) ∨
        ∃ key item es, s.entries = (key, item) :: es ∧ now < key ∧
          t = { s with pc := .idle }.log (.returned (key - now))) := by
  simp only [step] at h
  split at h
  · case h_1 now pc entries =>
      exact ⟨now, pc, .inl ⟨entries, (Option.some.inj h).symm⟩⟩
  · case h_2 now key item es pc entries =>
      refine ⟨now, pc, .inr ?_⟩
      split at h
      · case isTrue due =>
          exact .inl ⟨key, item, es, entries, due, (Option.some.inj h).symm⟩
      · case isFalse early =>
          exact .inr ⟨key, item, es, entries, by omega, (Option.some.inj h).symm⟩
  · cases h

/-- What the end of a callback does. -/
theorem finish_cases {s t : System} {again : Bool} {now : Nat}
    (h : step s (.finish again now) = some t) :
    ∃ item before, s.pc = .running item before ∧
      ((again = true ∧
          t = { s with
            entries := insert (item.again now).timestamp (item.again now) s.entries,
            pc := .looping now }.log (.finished item.id true)) ∨
        (again = false ∧ t = { s with pc := .looping before }.log (.finished item.id false))) := by
  simp only [step] at h
  split at h
  · case h_1 item before pc =>
      refine ⟨item, before, pc, ?_⟩
      split at h
      · case isTrue yes => exact .inl ⟨yes, (Option.some.inj h).symm⟩
      · case isFalse no => exact .inr ⟨by simpa using no, (Option.some.inj h).symm⟩
  · cases h

theorem doTimer_cases {s t : System} {now : Nat} (h : step s (.doTimer now) = some t) :
    s.pc = .idle ∧ (t = s.log (.returned 0) ∨ t = { s with pc := .looping now }) := by
  simp only [step] at h
  split at h
  · case h_1 pc =>
      refine ⟨pc, ?_⟩
      split at h
      · exact .inl (Option.some.inj h).symm
      · exact .inr (Option.some.inj h).symm
  · cases h

theorem user_cases {s t u : System} (h : (if s.userCode then some u else none) = some t) :
    s.userCode = true ∧ t = u := by
  split at h
  · case isTrue user => exact ⟨user, (Option.some.inj h).symm⟩
  · cases h

theorem identified_step {s t : System} {a : Action} (room : s.id + 1 < 2 ^ 64)
    (h : Identified s) (taken : step s a = some t) : Identified t := by
  cases a with
  | setTimer now delay relative =>
      obtain ⟨-, rfl⟩ := user_cases taken
      exact identified_setTimer h now delay relative room
  | cancelTimer id =>
      obtain ⟨-, rfl⟩ := user_cases taken
      exact h.of_sublist (cancelEntries_sublist id s.entries) rfl rfl
  | clearAll =>
      obtain ⟨-, rfl⟩ := user_cases taken
      exact h.of_sublist (List.nil_sublist _) rfl rfl
  | doTimer now =>
      obtain ⟨pc, rfl | rfl⟩ := doTimer_cases taken
      · exact h.of_sublist (List.Sublist.refl _) rfl rfl
      · exact h.of_sublist (List.Sublist.refl _) rfl (by rw [pc]; rfl)
  | loop =>
      obtain ⟨now, pc, ⟨-, rfl⟩ | ⟨key, item, es, entries, -, rfl⟩ | ⟨-, -, -, -, -, rfl⟩⟩ :=
        loop_cases taken
      · exact h.of_sublist (List.Sublist.refl _) rfl (by rw [pc]; rfl)
      · have distinct := h.distinct
        have issued := h.issued
        rw [entries, ids, List.map_cons, List.nodup_cons] at distinct
        rw [entries] at issued
        refine ⟨fun e he => h.key e ?_, distinct.2, fun e he => ?_, fun i running => ?_⟩
        · rw [entries]
          exact List.mem_cons_of_mem _ he
        · exact issued e (List.mem_cons_of_mem _ he)
        · cases running
          exact ⟨(issued _ List.mem_cons_self).1, (issued _ List.mem_cons_self).2, distinct.1⟩
      · exact h.of_sublist (List.Sublist.refl _) rfl (by rw [pc]; rfl)
  | finish again now =>
      obtain ⟨item, before, pc, ⟨-, rfl⟩ | ⟨-, rfl⟩⟩ := finish_cases taken
      · obtain ⟨pos, le, out⟩ := h.running item (by rw [pc]; rfl)
        refine ⟨fun e he => ?_, ?_, fun e he => ?_, fun i running => ?_⟩
        · rcases mem_insert.mp he with rfl | old
          · rfl
          · exact h.key e old
        · refine ((insert_perm _ _ s.entries).map _).nodup_iff.mpr ?_
          rw [List.map_cons, List.nodup_cons]
          exact ⟨out, h.distinct⟩
        · rcases mem_insert.mp he with rfl | old
          · exact ⟨pos, le⟩
          · exact h.issued e old
        · cases running
      · refine ⟨h.key, h.distinct, h.issued, fun i running => ?_⟩
        cases running

def Action.isSet : Action → Bool
  | .setTimer _ _ _ => true
  | _ => false

def setCalls (schedule : List Action) : Nat := schedule.countP Action.isSet

/-- Only set_timer moves the counter, by one at most. -/
theorem id_step {s t : System} {a : Action} (taken : step s a = some t) :
    t.id ≤ s.id + setCalls [a] := by
  cases a with
  | setTimer now delay relative =>
      obtain ⟨-, rfl⟩ := user_cases taken
      unfold setTimer
      split
      · exact Nat.le_add_right _ _
      · exact Nat.mod_le _ _
  | cancelTimer id =>
      obtain ⟨-, rfl⟩ := user_cases taken
      exact Nat.le_refl _
  | clearAll =>
      obtain ⟨-, rfl⟩ := user_cases taken
      exact Nat.le_refl _
  | doTimer now =>
      obtain ⟨-, rfl | rfl⟩ := doTimer_cases taken
      · exact Nat.le_refl _
      · exact Nat.le_refl _
  | loop =>
      obtain ⟨-, -, ⟨-, rfl⟩ | ⟨-, -, -, -, -, rfl⟩ | ⟨-, -, -, -, -, rfl⟩⟩ := loop_cases taken
      · exact Nat.le_refl _
      · exact Nat.le_refl _
      · exact Nat.le_refl _
  | finish again now =>
      obtain ⟨-, -, -, ⟨-, rfl⟩ | ⟨-, rfl⟩⟩ := finish_cases taken
      · exact Nat.le_refl _
      · exact Nat.le_refl _

theorem identified_runs {s t : System} {schedule : List Action} (h : Identified s)
    (few : s.id + setCalls schedule < 2 ^ 64 - 1) (run : runs step s schedule = some t) :
    Identified t := by
  induction schedule generalizing s with
  | nil =>
      cases run
      exact h
  | cons a as ih =>
      obtain ⟨u, hu, rest⟩ := Option.bind_eq_some_iff.mp run
      have more : setCalls (a :: as) = setCalls [a] + setCalls as := by
        rw [setCalls, ← List.singleton_append, List.countP_append]
        rfl
      have moved := id_step hu
      exact ih (identified_step (by omega) h hu) (by omega) rest

/-- In every reachable state the timers are identified, so cancel_timer drops the
one entry with its id or none. -/
theorem timer_identity {schedule : List Action} {s : System}
    (few : setCalls schedule < 2 ^ 64 - 1) (run : runs step init schedule = some s) :
    Identified s ∧
      ∀ id, cancelEntries id s.entries = s.entries.filter fun e => e.2.id ≠ id := by
  have h : Identified s := identified_runs identified_init (by simpa [init] using few) run
  refine ⟨h, fun id => ?_⟩
  by_cases zero : id = 0
  · have kept : ∀ e ∈ s.entries, e.2.id ≠ id := fun e he => by
      have := (h.issued e he).1
      omega
    rw [cancelEntries, if_pos zero]
    exact (List.filter_eq_self.mpr fun e he => by simpa using kept e he).symm
  · rw [cancelEntries, if_neg zero]
    exact eraseId_eq_filter h.distinct id

def repeatingSchedule : List Action :=
  [.setTimer 0 5 false, .setTimer 0 5 true, .doTimer 6, .loop, .setTimer 6 1 false,
    .cancelTimer 2, .finish true 7]

theorem timer_identity_repeating :
    ∃ s : System, runs step init repeatingSchedule = some s ∧ Identified s ∧
      ∀ id, cancelEntries id s.entries = s.entries.filter fun e => e.2.id ≠ id := by
  have few : setCalls repeatingSchedule < 2 ^ 64 - 1 := by decide
  exact ⟨_, rfl, timer_identity few rfl⟩

end HZRobot.TimerManager
