import HZRobot.CNumbers
import Mathlib.Data.List.GetD

/-!
CSerialPortImp::read. Each turn of the loop asks for the length of the input queue and
then reads or looks at the clock; what these calls return is taken from a list. The state
also keeps every copy into the caller's buffer and every result of a read.
-/

namespace HZRobot.SerialRead

/-- What SerialNonBlockRead returns for 1024 bytes; none is -1. -/
abbrev ReadResult := Option { bytes : List UInt8 // bytes.length ≤ 1024 }

/-- What the calls of one turn return, SerialDataInInputQueue, SerialNonBlockRead and
hn_difftime. -/
structure Poll where
  queue : Int
  read : ReadResult
  elapsed : Nat

structure State where
  total_read_size : Int
  b_start_read : Bool
  buf : Int → UInt8
  /-- Offset and size of every memcpy to buf. -/
  copies : List (Int × Int)
  reads : List ReadResult

section Model

def start (buf : Int → UInt8) : State where
  total_read_size := 0
  b_start_read := false
  buf := buf
  copies := []
  reads := []

def onceReadSize : ReadResult → Int
  | none => -1
  | some once_read_buff => once_read_buff.1.length

def readBytes : ReadResult → List UInt8
  | none => []
  | some once_read_buff => once_read_buff.1

/-- memcpy; with a size of -1, which has no defined effect, it is left out here. -/
def copy (buf : Int → UInt8) (offset : Int) (bytes : List UInt8) : Int → UInt8 := fun i =>
  if offset ≤ i ∧ i < offset + bytes.length then bytes.getD (i - offset).toNat 0 else buf i

def State.take (s : State) (read : ReadResult) : State where
  total_read_size := s.total_read_size + onceReadSize read
  b_start_read := true
  buf := copy s.buf s.total_read_size (readBytes read)
  copies := (s.total_read_size, onceReadSize read) :: s.copies
  reads := s.reads ++ [read]

/-- m_nTimeOut * 1000, an int, against an unsigned long long. -/
def timeLimit (m_nTimeOut : Int) : Nat := (toInt32 (m_nTimeOut * 1000) % 2 ^ 64).toNat

/-- One turn of the loop, none where it is left. -/
def turn (m_nTimeOut : Int) (s : State) (p : Poll) : Option State :=
  if 0 < p.queue then
    if 1024 ≤ s.total_read_size then none else some (s.take p.read)
  else if s.b_start_read then none
  else if timeLimit m_nTimeOut < p.elapsed then none
  else some s

/-- CSerialPortImp::read over so many turns, and whether it has returned; it returns
total_read_size. -/
def readPort (m_nTimeOut : Int) : State → List Poll → Bool × State
  | s, [] => (false, s)
  | s, p :: polls =>
      match turn m_nTimeOut s p with
      | none => (true, s)
      | some s => readPort m_nTimeOut s polls

end Model

/-- The bytes the reads brought, in order. -/
def received (reads : List ReadResult) : List UInt8 := reads.flatMap readBytes

/-- The copies lie in a buffer of this length, and a call that has returned n has the bytes
received in the first n places. -/
structure Respects (len : Nat) (call : Bool × State) : Prop where
  inside : ∀ c ∈ call.2.copies, 0 ≤ c.2 ∧ 0 ≤ c.1 ∧ c.1 + c.2 ≤ len
  returns : call.1 = true →
    0 ≤ call.2.total_read_size ∧ call.2.total_read_size ≤ len ∧
      call.2.total_read_size = (received call.2.reads).length ∧
      ∀ i < (received call.2.reads).length, call.2.buf i = (received call.2.reads).getD i 0

section Ledger

/-- No read made has failed and the bytes fit. -/
def Clean (len : Nat) (reads : List ReadResult) : Prop :=
  none ∉ reads ∧ (received reads).length ≤ len

/-- The copies against the reads. -/
structure Ledger (s : State) : Prop where
  failed : none ∈ s.reads → ∃ c ∈ s.copies, c.2 < 0
  reaches : s.total_read_size = 0 ∨ ∃ c ∈ s.copies, c.1 + c.2 = s.total_read_size
  whole : none ∉ s.reads →
    s.total_read_size = (received s.reads).length ∧
      (∀ c ∈ s.copies, 0 ≤ c.2 ∧ 0 ≤ c.1 ∧ c.1 + c.2 ≤ s.total_read_size) ∧
      ∀ i < (received s.reads).length, s.buf i = (received s.reads).getD i 0

theorem ledger_start (buf : Int → UInt8) : Ledger (start buf) where
  failed h := by cases h
  reaches := .inl rfl
  whole _ := by
    refine ⟨rfl, ?_, ?_⟩
    · intro c mem
      cases mem
    · intro i less
      cases less

variable {s : State}

theorem received_append (front back : List ReadResult) :
    received (front ++ back) = received front ++ received back :=
  List.flatMap_append

theorem received_single (read : ReadResult) : received [read] = readBytes read :=
  List.flatMap_singleton _ _

/-- Behind what is there a copy appends. -/
theorem copy_appends {buf : Int → UInt8} {front : List UInt8}
    (held : ∀ i < front.length, buf i = front.getD i 0) (bytes : List UInt8) :
    ∀ i < (front ++ bytes).length, copy buf front.length bytes i = (front ++ bytes).getD i 0 := by
  intro i less
  rw [copy]
  by_cases here : i < front.length
  · rw [if_neg (by omega), held i here, List.getD_append _ _ _ _ here]
  · rw [List.length_append] at less
    have place : ((i : Int) - front.length).toNat = i - front.length := by omega
    rw [if_pos (by omega), place, List.getD_append_right _ _ _ _ (by omega)]

theorem Ledger.take (h : Ledger s) (read : ReadResult) : Ledger (s.take read) where
  failed mem := by
    rcases List.mem_append.mp mem with before | now
    · obtain ⟨c, inside, negative⟩ := h.failed before
      exact ⟨c, List.mem_cons_of_mem _ inside, negative⟩
    · cases List.mem_singleton.mp now
      exact ⟨_, List.mem_cons_self, by simp [onceReadSize]⟩
  reaches := .inr ⟨_, List.mem_cons_self, rfl⟩
  whole clean := by
    simp only [State.take, List.mem_append, List.mem_singleton, not_or] at clean ⊢
    obtain ⟨total, inside, held⟩ := h.whole clean.1
    cases read with
    | none => exact absurd rfl clean.2
    | some once =>
        have size : onceReadSize (some once) = (readBytes (some once)).length := rfl
        refine ⟨?_, fun c mem => ?_, ?_⟩
        · rw [received_append, received_single, List.length_append, total, size]
          push_cast
          rfl
        · rcases List.mem_cons.mp mem with rfl | before
          · rw [size]
            omega
          · have := inside c before
            omega
        · rw [received_append, received_single, total]
          exact copy_appends held _

/-- A turn behind which the loop goes on has read, or has waited. -/
theorem turn_cases {m_nTimeOut : Int} {p : Poll} {t : State}
    (next : turn m_nTimeOut s p = some t) : t = s.take p.read ∨ t = s := by
  unfold turn at next
  split at next
  · split at next
    · cases next
    · exact .inl (Option.some.inj next).symm
  · split at next
    · cases next
    · split at next
      · cases next
      · exact .inr (Option.some.inj next).symm

theorem ledger_turn {m_nTimeOut : Int} {p : Poll} {t : State} (h : Ledger s)
    (next : turn m_nTimeOut s p = some t) : Ledger t := by
  rcases turn_cases next with rfl | rfl
  · exact h.take p.read
  · exact h

theorem ledger_readPort (m_nTimeOut : Int) (polls : List Poll) (h : Ledger s) :
    Ledger (readPort m_nTimeOut s polls).2 := by
  induction polls generalizing s with
  | nil => exact h
  | cons p polls ih =>
      rw [readPort]
      cases next : turn m_nTimeOut s p with
      | none => exact h
      | some t => exact ih (ledger_turn h next)

theorem respects_iff {len : Nat} (returned : Bool) (h : Ledger s) :
    Respects len (returned, s) ↔ Clean len s.reads := by
  constructor
  · intro respects
    have clean : none ∉ s.reads := by
      intro failed
      obtain ⟨c, mem, negative⟩ := h.failed failed
      have := (respects.inside c mem).1
      omega
    refine ⟨clean, ?_⟩
    obtain ⟨total, -, -⟩ := h.whole clean
    rcases h.reaches with nothing | ⟨c, mem, ends⟩
    · omega
    · have := (respects.inside c mem).2.2
      omega
  · rintro ⟨clean, small⟩
    obtain ⟨total, inside, held⟩ := h.whole clean
    have bound : s.total_read_size ≤ len := by omega
    have positive : 0 ≤ s.total_read_size := by omega
    refine ⟨fun c mem => ?_, fun _ => ⟨positive, bound, total, held⟩⟩
    obtain ⟨size, offset, ends⟩ := inside c mem
    exact ⟨size, offset, ends.trans bound⟩

end Ledger

section Arrivals

/-- Before the first bytes are there read waits, until its time is over. -/
def waits (m_nTimeOut : Int) (p : Poll) : Bool :=
  p.queue ≤ 0 && p.elapsed ≤ timeLimit m_nTimeOut

/-- The reads there are to make while the queue stays filled. -/
def burst (polls : List Poll) : List ReadResult :=
  (polls.takeWhile fun p => 0 < p.queue).map Poll.read

/-- What the device offers in time, up to the first empty queue. -/
def arrivals (m_nTimeOut : Int) (polls : List Poll) : List ReadResult :=
  burst (polls.dropWhile (waits m_nTimeOut))

/-- No read fails that comes while fewer than 1024 bytes are there, and none of these brings
the bytes over the length. -/
def Fits (len : Nat) (seen ahead : List ReadResult) : Prop :=
  ∀ before read, before ++ [read] <+: ahead → (received (seen ++ before)).length < 1024 →
    read ≠ none ∧ (received (seen ++ before ++ [read])).length ≤ len

theorem fits_nil (len : Nat) (seen : List ReadResult) : Fits len seen [] := by
  intro before read front
  have := front.length_le
  simp at this

theorem fits_full {len : Nat} {seen : List ReadResult} (full : 1024 ≤ (received seen).length)
    (ahead : List ReadResult) : Fits len seen ahead := by
  intro before read _ less
  rw [received_append, List.length_append] at less
  omega

theorem fits_cons {len : Nat} {seen : List ReadResult} (read : ReadResult)
    (ahead : List ReadResult) (room : (received seen).length < 1024) :
    Fits len seen (read :: ahead) ↔
      read ≠ none ∧ (received (seen ++ [read])).length ≤ len ∧ Fits len (seen ++ [read]) ahead := by
  constructor
  · intro fits
    obtain ⟨works, small⟩ := fits [] read (by simp) (by simpa using room)
    refine ⟨works, by simpa using small, fun before next front less => ?_⟩
    have later := fits (read :: before) next (List.cons_prefix_cons.mpr ⟨rfl, front⟩)
    simpa using later (by simpa using less)
  · rintro ⟨works, small, fits⟩ before next front less
    cases before with
    | nil =>
        obtain ⟨rfl, -⟩ := List.cons_prefix_cons.mp front
        exact ⟨works, by simpa using small⟩
    | cons first before =>
        obtain ⟨rfl, later⟩ := List.cons_prefix_cons.mp front
        simpa using fits before next later (by simpa using less)

variable {s : State}

theorem reads_kept (m_nTimeOut : Int) (polls : List Poll) (s : State) :
    s.reads <+: (readPort m_nTimeOut s polls).2.reads := by
  induction polls generalizing s with
  | nil => exact List.prefix_rfl
  | cons p polls ih =>
      rw [readPort]
      cases next : turn m_nTimeOut s p with
      | none => exact List.prefix_rfl
      | some t =>
          refine List.IsPrefix.trans ?_ (ih t)
          rcases turn_cases next with rfl | rfl
          · exact List.prefix_append _ _
          · exact List.prefix_rfl

theorem Clean.of_prefix {len : Nat} {front reads : List ReadResult} (h : Clean len reads)
    (kept : front <+: reads) : Clean len front := by
  obtain ⟨back, rfl⟩ := kept
  obtain ⟨works, small⟩ := h
  rw [received_append, List.length_append] at small
  exact ⟨fun failed => works (List.mem_append_left _ failed), by omega⟩

theorem clean_take {len : Nat} {read : ReadResult} (clean : Clean len s.reads) :
    Clean len (s.take read).reads ↔
      read ≠ none ∧ (received (s.reads ++ [read])).length ≤ len := by
  simp [Clean, State.take, clean.1, eq_comm]

/-- The reads that are made are clean exactly when what lies ahead fits. -/
theorem clean_iff_fits {len : Nat} (m_nTimeOut : Int) (polls : List Poll) (h : Ledger s)
    (clean : Clean len s.reads) :
    Clean len (readPort m_nTimeOut s polls).2.reads ↔
      Fits len s.reads (if s.b_start_read then burst polls else arrivals m_nTimeOut polls) := by
  induction polls generalizing s with
  | nil =>
      refine iff_of_true clean ?_
      split <;> exact fits_nil len _
  | cons p polls ih =>
      obtain ⟨total, -⟩ := h.whole clean.1
      rw [readPort, turn]
      by_cases filled : 0 < p.queue
      · have ahead : (if s.b_start_read then burst (p :: polls) else arrivals m_nTimeOut (p :: polls))
            = p.read :: burst polls := by
          have stays : waits m_nTimeOut p = false := by simp [waits, filled]
          simp [arrivals, burst, filled, stays]
        rw [ahead, if_pos filled]
        by_cases full : 1024 ≤ s.total_read_size
        · rw [if_pos full]
          exact iff_of_true clean (fits_full (by omega) _)
        · rw [if_neg full, fits_cons p.read _ (by omega), ← and_assoc, ← clean_take clean]
          constructor
          · intro after
            have now := after.of_prefix (reads_kept m_nTimeOut polls _)
            exact ⟨now, (ih (h.take p.read) now).mp after⟩
          · rintro ⟨now, fits⟩
            exact (ih (h.take p.read) now).mpr fits
      · rw [if_neg filled]
        cases started : s.b_start_read with
        | true =>
            refine iff_of_true clean ?_
            have nothing : burst (p :: polls) = [] := by simp [burst, filled]
            simp only [if_true, nothing, fits_nil]
        | false =>
            rw [if_neg Bool.false_ne_true, if_neg Bool.false_ne_true]
            by_cases late : timeLimit m_nTimeOut < p.elapsed
            · rw [if_pos late]
              refine iff_of_true clean ?_
              have nothing : arrivals m_nTimeOut (p :: polls) = [] := by
                simp [arrivals, waits, burst, filled, late]
              simp only [nothing, fits_nil]
            · rw [if_neg late]
              have later : arrivals m_nTimeOut (p :: polls) = arrivals m_nTimeOut polls := by
                have waiting : waits m_nTimeOut p = true := by
                  simp [waits, Int.not_lt.mp filled, Nat.not_lt.mp late]
                simp [arrivals, waiting]
              have rest := ih h clean
              rw [started, if_neg Bool.false_ne_true] at rest
              rw [later]
              exact rest

theorem clean_start (len : Nat) (m_nTimeOut : Int) (buf : Int → UInt8) (polls : List Poll) :
    Clean len (readPort m_nTimeOut (start buf) polls).2.reads ↔
      Fits len [] (arrivals m_nTimeOut polls) :=
  clean_iff_fits m_nTimeOut polls (ledger_start buf) ⟨List.not_mem_nil, Nat.zero_le len⟩

end Arrivals

/-- read keeps to the caller's buffer, at every turn and where it returns, exactly where no
read fails that the device answers before 1024 bytes are there, and none of these brings more
than the buffer holds. -/
theorem read_respects_iff (m_nTimeOut : Int) (len : Nat) (buf : Int → UInt8) (polls : List Poll) :
    Respects len (readPort m_nTimeOut (start buf) polls) ↔
      Fits len [] (arrivals m_nTimeOut polls) :=
  (respects_iff _ (ledger_readPort m_nTimeOut polls (ledger_start buf))).trans
    (clean_start len m_nTimeOut buf polls)

/-- A buffer of 2047 bytes is large enough for every device whose reads do not fail. -/
theorem large_buffer_respected (m_nTimeOut : Int) {len : Nat} (large : 2047 ≤ len)
    (buf : Int → UInt8) (polls : List Poll) (works : none ∉ arrivals m_nTimeOut polls) :
    Respects len (readPort m_nTimeOut (start buf) polls) := by
  refine (respects_iff _ (ledger_readPort m_nTimeOut polls (ledger_start buf))).mpr
    ((clean_start len m_nTimeOut buf polls).mpr fun before read front less => ⟨?_, ?_⟩)
  · rintro rfl
    exact works (front.subset (by simp))
  · have once : (received [read]).length ≤ 1024 := by
      cases read with
      | none => decide
      | some bytes => exact received_single (some bytes) ▸ bytes.2
    rw [received_append, List.length_append]
    omega

/-- Five bytes for a buffer of four. -/
def fiveBytes : List Poll := [⟨5, some ⟨[1, 2, 3, 4, 5], by decide⟩, 0⟩, ⟨0, none, 0⟩]

theorem fiveBytes_overrun :
    ¬ Respects 4 (readPort 200 (start fun _ => 0) fiveBytes) := by
  intro respects
  have := (respects.inside (0, 5) List.mem_cons_self).2.2
  omega

end HZRobot.SerialRead
