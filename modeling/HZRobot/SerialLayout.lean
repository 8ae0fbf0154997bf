import HZRobot.SerialVarint

/-!
Where encodings lie in a buffer. The layout of a field type says, from the bytes
alone, where an encoding that starts at a position ends, and whether the lengths and
integers on the way are short enough to be shifted into 64 bits. Decoding follows it,
whatever the target holds.
-/

namespace HZRobot.Serial

/-- How many continuation bytes follow each other. -/
def run (data : List UInt8) (pos : Nat) : Nat :=
  ((data.drop pos).takeWhile fun b => b &&& 0x80 ≠ 0).length

/-- The end of a length or an integer. -/
def varintEnd (data : List UInt8) (pos : Nat) : Option Nat :=
  if pos + run data pos < data.length then some (pos + run data pos + 1) else none

/-- There are not k continuation bytes with a byte behind them. -/
def ShortAt (k : Nat) (data : List UInt8) (pos : Nat) : Prop :=
  ¬ (k ≤ run data pos ∧ pos + k < data.length)

structure Layout where
  ends : Nat → Option Nat
  short : Nat → Prop

namespace Layout

variable (data : List UInt8)

def bytes (n : Nat) : Layout where
  ends pos := if pos + n ≤ data.length then some (pos + n) else none
  short _ := True

def varint (k : Nat) : Layout where
  ends := varintEnd data
  short := ShortAt k data

/-- One encoding and then another. -/
def append (l l' : Layout) : Layout where
  ends pos := (l.ends pos).bind l'.ends
  short pos := l.short pos ∧ ∀ p ∈ l.ends pos, l'.short p

/-- A length and what stands behind it. -/
def sized (body : Nat → Layout) : Layout where
  ends pos := (varintEnd data pos).bind (body (decodeSize data pos).value).ends
  short pos := ShortAt 10 data pos ∧
    ∀ p ∈ varintEnd data pos, (body (decodeSize data pos).value).short p

def nothing : Layout := ⟨some, fun _ => True⟩

/-- The call does not return true. -/
def fails : Layout := ⟨fun _ => none, fun _ => True⟩

def times (l : Layout) : Nat → Layout
  | 0 => nothing
  | n + 1 => l.append (l.times n)

def sequence (l : Layout) : Layout :=
  sized data fun n => if maxSize < n then fails else l.times n

/-- The last field in the frame, with the jump to its end. -/
def lastField (l : Layout) (flag size : Nat) : Layout where
  ends pos := (l.ends pos).map fun p => if size ≤ p - flag then p else flag + size
  short := l.short

def nextField (l : Layout) (rest : Nat → Nat → Layout) (flag size : Nat) : Layout where
  ends pos := (l.ends pos).bind fun p =>
    if size ≤ p - flag then some p else (rest flag size).ends p
  short pos := l.short pos ∧
    ∀ p ∈ l.ends pos, ¬ size ≤ p - flag → (rest flag size).short p

/-- What stands behind the length of a record. -/
def frame (fields : Nat → Nat → Layout) (size : Nat) : Layout where
  ends flag :=
    if size = 0 then some flag
    else if data.length - flag < size then none
    else (fields flag size).ends flag
  short flag := size ≠ 0 → size ≤ data.length - flag → (fields flag size).short flag

def struct (fields : Nat → Nat → Layout) : Layout where
  ends pos := if pos = data.length then some pos else (sized data (frame data fields)).ends pos
  short pos := pos ≠ data.length → (sized data (frame data fields)).short pos

end Layout

mutual

def layout (data : List UInt8) : Ty → Layout
  | .bool => .bytes data 1
  | .char => .bytes data 1
  | .integer _ => .varint data 11
  | .floating kind => .bytes data kind.size
  | .string => .sized data (.bytes data)
  | .map _ key value => .sized data ((layout data key).append (layout data value)).times
  | .sequence _ element => .sequence data (layout data element)
  | .forwardList element => .sized data (layout data element).times
  | .set _ element => .sized data (layout data element).times
  | .struct fields => .struct data (fieldsLayout data fields)

def fieldsLayout (data : List UInt8) : Fields → Nat → Nat → Layout
  | .one field => (layout data field).lastField
  | .cons field rest => (layout data field).nextField (fieldsLayout data rest)

end

variable {α κ ν σ : Type} {data : List UInt8}

/-- A call from a position: where it stops, that it reads inside the buffer and before
its stop, and when its shifts are defined. -/
structure Tracks (data : List UInt8) (pos : Nat) (x : Decoded Event α) (stop : Option Nat)
    (short : Prop) : Prop where
  stop_eq : x.stop = stop
  forward : ∀ p ∈ stop, pos ≤ p ∧ p ≤ data.length
  reads : ∀ s e, .read s e ∈ x.log → e ≤ data.length ∧ ∀ p ∈ stop, e ≤ p
  shifts : (∀ a, .shift a ∈ x.log → a < 64) ↔ short

/-- A decoder for a layout. -/
def Follows (data : List UInt8) (decode : Nat → Decoded Event α) (l : Layout) : Prop :=
  ∀ pos ≤ data.length, Tracks data pos (decode pos) (l.ends pos) (l.short pos)

theorem Tracks.andThen {pos : Nat} {x : Decoded Event α} {stop : Option Nat} {short : Prop}
    {ends : Nat → Option Nat} {short' : Nat → Prop} {f : α → σ} {next : α → Nat → Decoded Event σ}
    (h : Tracks data pos x stop short)
    (k : ∀ p ∈ stop, Tracks data p (next x.value p) (ends p) (short' p)) :
    Tracks data pos (x.andThen f next) (stop.bind ends) (short ∧ ∀ p ∈ stop, short' p) := by
  have beyond : ∀ q ∈ stop.bind ends, ∃ p ∈ stop, q ∈ ends p := fun q hq =>
    Option.bind_eq_some_iff.mp hq
  refine ⟨?_, ?_, ?_, ?_⟩
  · rw [Decoded.stop_andThen, h.stop_eq]
    cases stop with
    | none => rfl
    | some p => exact (k p rfl).stop_eq
  · intro q hq
    obtain ⟨p, hp, hq⟩ := beyond q hq
    exact ⟨(h.forward p hp).1.trans ((k p hp).forward q hq).1, ((k p hp).forward q hq).2⟩
  · intro s e read
    rcases Decoded.mem_log_andThen.mp read with first | ⟨p, hp, later⟩
    · refine ⟨(h.reads s e first).1, fun q hq => ?_⟩
      obtain ⟨p, hp, hq⟩ := beyond q hq
      exact ((h.reads s e first).2 p hp).trans ((k p hp).forward q hq).1
    · rw [h.stop_eq] at hp
      refine ⟨((k p hp).reads s e later).1, fun q hq => ?_⟩
      obtain ⟨p', hp', hq⟩ := beyond q hq
      cases Option.mem_unique hp hp'
      exact ((k p hp).reads s e later).2 q hq
  · rw [← h.shifts]
    constructor
    · intro all
      refine ⟨fun a ha => all a (Decoded.mem_log_andThen.mpr (.inl ha)), fun p hp => ?_⟩
      refine (k p hp).shifts.mp fun a ha => all a (Decoded.mem_log_andThen.mpr (.inr ⟨p, ?_, ha⟩))
      rw [h.stop_eq]
      exact hp
    · intro ⟨first, later⟩ a ha
      rcases Decoded.mem_log_andThen.mp ha with here | ⟨p, hp, there⟩
      · exact first a here
      · rw [h.stop_eq] at hp
        exact (k p hp).shifts.mpr (later p hp) a there

theorem Tracks.map {pos : Nat} {x : Decoded Event α} {stop : Option Nat} {short : Prop}
    (h : Tracks data pos x stop short) (f : α → σ) : Tracks data pos (x.map f) stop short :=
  ⟨h.stop_eq, h.forward, h.reads, h.shifts⟩

/-- Events in front that read before the stop and shift nothing. -/
theorem Tracks.after {pos : Nat} {x : Decoded Event α} {stop : Option Nat} {short : Prop}
    (h : Tracks data pos x stop short) {events : List Event}
    (reads : ∀ s e, .read s e ∈ events → e ≤ data.length ∧ ∀ p ∈ stop, e ≤ p)
    (shifts : ∀ a, .shift a ∉ events) : Tracks data pos (x.after events) stop short := by
  refine ⟨h.stop_eq, h.forward, fun s e read => ?_, ?_⟩
  · rcases List.mem_append.mp read with before | here
    · exact reads s e before
    · exact h.reads s e here
  · rw [← h.shifts]
    refine ⟨fun all a ha => all a (List.mem_append_right _ ha), fun all a ha => ?_⟩
    rcases List.mem_append.mp ha with before | here
    · exact absurd before (shifts a)
    · exact all a here

/-- The call stops with false or an exception and has done nothing. -/
theorem tracks_stopped {pos p : Nat} {status : Status} (stopped : status ≠ .ok) (val : α) :
    Tracks data pos (⟨status, val, p, []⟩ : Decoded Event α) none True := by
  refine ⟨if_neg stopped, fun _ none_ => (by cases none_), fun _ _ none_ => (by cases none_), ?_⟩
  exact ⟨fun _ => trivial, fun _ _ none_ => by cases none_⟩

/-- The call stops with true and has done nothing more. -/
theorem tracks_ok {pos p : Nat} (le : pos ≤ p) (inside : p ≤ data.length) (val : α) :
    Tracks data pos (⟨.ok, val, p, []⟩ : Decoded Event α) (some p) True := by
  refine ⟨rfl, fun q hq => ?_, fun _ _ none_ => (by cases none_), ?_⟩
  · cases hq
    exact ⟨le, inside⟩
  · exact ⟨fun _ => trivial, fun _ _ none_ => by cases none_⟩

theorem Tracks.congr {pos : Nat} {x : Decoded Event α} {stop stop' : Option Nat}
    {short short' : Prop} (h : Tracks data pos x stop short) (same : stop = stop')
    (iff_ : short ↔ short') : Tracks data pos x stop' short' := by
  subst same
  exact ⟨h.stop_eq, h.forward, h.reads, h.shifts.trans iff_⟩

/-- The call is followed by a return of true at e. -/
theorem Tracks.finish {pos : Nat} {x : Decoded Event α} {stop : Option Nat} {short : Prop}
    {f : α → σ} {v : α → Nat → σ} {e : Nat → Nat} (h : Tracks data pos x stop short)
    (inside : ∀ p ∈ stop, p ≤ e p ∧ e p ≤ data.length) :
    Tracks data pos (x.andThen f fun val p => ⟨.ok, v val p, e p, []⟩) (stop.map e) short := by
  have ends : stop.bind (fun p => some (e p)) = stop.map e := by
    cases stop with
    | none => rfl
    | some p => rfl
  have both : Tracks data pos (x.andThen f fun val p => ⟨.ok, v val p, e p, []⟩)
      (stop.bind fun p => some (e p)) (short ∧ ∀ p ∈ stop, True) :=
    h.andThen fun p hp => tracks_ok (inside p hp).1 (inside p hp).2 _
  exact both.congr ends (and_iff_left fun _ _ => trivial)

theorem run_of_length_le {pos : Nat} (h : data.length ≤ pos) : run data pos = 0 := by
  rw [run, List.drop_of_length_le h]
  rfl

theorem drop_eq_byteAt {pos : Nat} (h : pos < data.length) :
    data.drop pos = byteAt data pos :: data.drop (pos + 1) := by
  rw [List.drop_eq_getElem_cons h, byteAt, List.getD_eq_getElem _ _ h]

theorem run_continued {pos : Nat} (h : pos < data.length) (goes : byteAt data pos &&& 0x80 ≠ 0) :
    run data pos = run data (pos + 1) + 1 := by
  rw [run, drop_eq_byteAt h, List.takeWhile_cons_of_pos (by simpa using goes), List.length_cons]
  rfl

theorem run_last {pos : Nat} (h : pos < data.length) (stop : byteAt data pos &&& 0x80 = 0) :
    run data pos = 0 := by
  rw [run, drop_eq_byteAt h, List.takeWhile_cons_of_neg (by simpa using stop)]
  rfl

/-- What a turn of the loops that read groups of bits does. -/
theorem read_mem_turn {pos amount s e : Nat} :
    .read s e ∈ [Event.read pos (pos + 1), .shift amount] ↔ s = pos ∧ e = pos + 1 := by
  simp

theorem shift_mem_turn {pos amount a : Nat} :
    .shift a ∈ [Event.read pos (pos + 1), .shift amount] ↔ a = amount := by
  simp

/-- A byte is read and its group shifted before the loop goes on behind it. -/
theorem Tracks.turn {pos : Nat} {x : Decoded Event α} {stop : Option Nat} {short : Prop}
    (h : Tracks data (pos + 1) x stop short) (inside : pos < data.length) {amount : Nat}
    (small : short → amount < 64) :
    Tracks data pos (x.after [.read pos (pos + 1), .shift amount]) stop short := by
  refine ⟨h.stop_eq, fun p hp => ?_, fun s e read => ?_, ?_⟩
  · have := h.forward p hp
    exact ⟨by omega, this.2⟩
  · rcases List.mem_append.mp read with here | later
    · obtain ⟨rfl, rfl⟩ := read_mem_turn.mp here
      exact ⟨inside, fun p hp => (h.forward p hp).1⟩
    · exact h.reads s e later
  · constructor
    · intro all
      exact h.shifts.mp fun a ha => all a (List.mem_append_right _ ha)
    · intro fits a ha
      rcases List.mem_append.mp ha with here | later
      · rw [shift_mem_turn.mp here]
        exact small fits
      · exact h.shifts.mpr fits a later

theorem varintLoop_tracks (bits : Nat) (signed : Bool) {w : Nat} {cost_len avail i : Nat}
    (avail_eq : avail = data.length - cost_len) (inside : cost_len + i < data.length)
    (val : BitVec w) :
    Tracks data (cost_len + i) (varintLoop bits signed data cost_len avail i val)
      (varintEnd data (cost_len + i))
      (bits * (i + min (run data (cost_len + i)) (avail - 1 - i)) < 64) := by
  induction m : avail - i using Nat.strongRecOn generalizing i val with
  | ind m ih =>
      by_cases goes : byteAt data (cost_len + i) &&& 0x80 ≠ 0
      · have more := run_continued inside goes
        have same : cost_len + (i + 1) = cost_len + i + 1 := rfl
        by_cases last : avail ≤ i + 1
        · have none_ : run data (cost_len + i + 1) = 0 := run_of_length_le (by omega)
          have stop : varintEnd data (cost_len + i) = none := by
            rw [varintEnd, if_neg (by omega)]
          have here : i + min (run data (cost_len + i)) (avail - 1 - i) = i := by omega
          rw [varintLoop_fails goes last, stop, here]
          refine ⟨rfl, fun _ none_ => (by cases none_), fun s e read => ?_, by simp⟩
          obtain ⟨rfl, rfl⟩ := read_mem_turn.mp read
          exact ⟨inside, fun _ none_ => by cases none_⟩
        · have stop : varintEnd data (cost_len + (i + 1)) = varintEnd data (cost_len + i) := by
            rw [varintEnd, varintEnd, more, same]
            congr 1
            · exact propext ⟨fun h => by omega, fun h => by omega⟩
            · congr 1
              omega
          have far : i + 1 + min (run data (cost_len + (i + 1))) (avail - 1 - (i + 1)) =
              i + min (run data (cost_len + i)) (avail - 1 - i) := by
            rw [more, same]
            omega
          have next := ih (avail - (i + 1)) (by omega) (i := i + 1) (by omega)
            (orGroup bits signed (byteAt data (cost_len + i)) (bits * i) val) rfl
          rw [stop, far] at next
          rw [varintLoop_continues goes last]
          refine next.turn inside fun small => lt_of_le_of_lt ?_ small
          exact Nat.mul_le_mul_left _ (Nat.le_add_right _ _)
      · have none_ := run_last inside (not_not.mp goes)
        have stop : varintEnd data (cost_len + i) = some (cost_len + i + 1) := by
          rw [varintEnd, none_, if_pos (by omega)]
        rw [varintLoop_stops (not_not.mp goes), stop, none_, Nat.zero_min, Nat.add_zero]
        refine ⟨rfl, fun p hp => ?_, fun s e read => ?_, by simp⟩
        · cases hp
          exact ⟨by omega, by omega⟩
        · obtain ⟨rfl, rfl⟩ := read_mem_turn.mp read
          refine ⟨inside, fun p hp => ?_⟩
          cases hp
          exact Nat.le_refl _

theorem follows_size (fits : data.length ≤ maxSize) :
    Follows data (decodeSize data) (.varint data 10) := by
  intro pos inside
  refine Tracks.after ?_ (fun _ _ read => by simp at read) (fun _ shift => by simp at shift)
  rw [add64_eq (by omega)]
  by_cases empty : data.length < pos + 1
  · have stop : varintEnd data pos = none := by
      rw [varintEnd, if_neg (by omega)]
    have short : ShortAt 10 data pos ↔ True := iff_of_true (fun long => by omega) trivial
    rw [if_pos empty]
    have stopped : Tracks data pos (⟨.failed, 0, pos, []⟩ : Decoded Event Nat) none True :=
      tracks_stopped (by decide) 0
    rw [← stop] at stopped
    exact ⟨stopped.stop_eq, stopped.forward, stopped.reads, stopped.shifts.trans short.symm⟩
  · rw [if_neg empty]
    have avail := sub64_eq inside fits
    have loop := (varintLoop_tracks 7 false (i := 0) avail (by omega)
      (0 : BitVec 64)).map BitVec.toNat
    refine ⟨loop.stop_eq, loop.forward, loop.reads, loop.shifts.trans ?_⟩
    show _ ↔ ¬ _
    rw [Nat.add_zero, avail]
    omega

theorem follows_integer (fits : data.length ≤ maxSize) (signed : Bool) {w : Nat} (val : BitVec w) :
    Follows data (decodeInteger signed data val) (.varint data 11) := by
  intro pos inside
  refine Tracks.after ?_ (fun _ _ read => by simp at read) (fun _ shift => by simp at shift)
  have avail := sub64_eq inside fits
  by_cases empty : sub64 data.length pos < 1
  · have stop : varintEnd data pos = none := by
      rw [varintEnd, if_neg (by omega)]
    have short : ShortAt 11 data pos ↔ True := iff_of_true (fun long => by omega) trivial
    rw [if_pos empty]
    have stopped : Tracks data pos (⟨.failed, val, pos, []⟩ : Decoded Event (BitVec w)) none True :=
      tracks_stopped (by decide) val
    rw [← stop] at stopped
    exact ⟨stopped.stop_eq, stopped.forward, stopped.reads, stopped.shifts.trans short.symm⟩
  · rw [if_neg empty]
    have loop := varintLoop_tracks 6 signed (i := 0) avail (by omega) (0 : BitVec w)
    have short : 6 * (0 + min (run data (pos + 0)) (sub64 data.length pos - 1 - 0)) < 64 ↔
        ShortAt 11 data pos := by
      show _ ↔ ¬ _
      rw [Nat.add_zero, avail]
      omega
    refine Tracks.after ?_ (fun s e read => ?_) (fun _ shift => by simp at shift)
    · refine (loop.finish fun p hp => ⟨Nat.le_refl p, (loop.forward p hp).2⟩).congr ?_ short
      exact congrFun Option.map_id_fun' (varintEnd data pos)
    · simp only [List.mem_cons, Event.read.injEq, List.not_mem_nil, or_false] at read
      refine ⟨by omega, fun p hp => ?_⟩
      have ended : varintEnd data pos = some p := hp
      rw [varintEnd] at ended
      split at ended
      · cases ended
        omega
      · cases ended

/-- Reading so many bytes and nothing else. -/
theorem tracks_bytes {pos n : Nat} (inside : pos + n ≤ data.length) (val : α) :
    Tracks data pos (⟨.ok, val, pos + n, [.read pos (pos + n)]⟩ : Decoded Event α)
      ((Layout.bytes data n).ends pos) True := by
  have stop : (Layout.bytes data n).ends pos = some (pos + n) := if_pos inside
  rw [stop]
  refine ⟨rfl, fun p hp => ?_, fun s e read => ?_, by simp⟩
  · cases hp
    exact ⟨Nat.le_add_right _ _, inside⟩
  · simp only [List.mem_singleton, Event.read.injEq] at read
    refine ⟨by omega, fun p hp => ?_⟩
    cases hp
    exact Nat.le_of_eq read.2

theorem bytes_ends_none {pos n : Nat} (outside : ¬ pos + n ≤ data.length) :
    none = (Layout.bytes data n).ends pos :=
  (if_neg outside).symm

/-- A decoder of a fixed number of bytes. -/
theorem tracks_fixed (fits : data.length ≤ maxSize) {pos n : Nat} (inside : pos ≤ data.length)
    (small : n ≤ 16) (val new : α) :
    Tracks data pos
      (if data.length < add64 pos n then ⟨.failed, val, pos, []⟩
      else ⟨.ok, new, pos + n, [.read pos (pos + n)]⟩ : Decoded Event α)
      ((Layout.bytes data n).ends pos) ((Layout.bytes data n).short pos) := by
  rw [add64_eq (by omega)]
  split
  · exact (tracks_stopped (by decide) val).congr (bytes_ends_none (by omega)) Iff.rfl
  · exact tracks_bytes (by omega) new

theorem follows_sized (fits : data.length ≤ maxSize) {stop : Nat → σ}
    {next : Nat → Nat → Decoded Event σ} {body : Nat → Layout}
    (h : ∀ n, Follows data (next n) (body n)) :
    Follows data (fun pos => (decodeSize data pos).andThen stop next) (.sized data body) := by
  intro pos inside
  have size := follows_size fits pos inside
  exact size.andThen fun p hp => h _ p (size.forward p hp).2

theorem follows_string (fits : data.length ≤ maxSize) (val : List UInt8) :
    Follows data (decodeString data val) (.sized data (.bytes data)) := by
  refine follows_sized fits fun n pos inside => ?_
  have wide : maxSize + maxSize < 2 ^ 64 := by decide
  split
  · case isTrue long =>
      refine (tracks_stopped (by decide) val).congr (bytes_ends_none fun room => ?_) Iff.rfl
      rw [add64_eq (by omega)] at long
      omega
  · case isFalse short =>
      split
      · exact (tracks_stopped (by decide) val).congr (bytes_ends_none (by omega)) Iff.rfl
      · rw [add64, Nat.mod_eq_of_lt (by omega)] at short
        exact tracks_bytes (by omega) _

theorem follows_times {decode : Nat → Decoded Event α} {l : Layout} (h : Follows data decode l)
    (put : α → σ → σ) (n : Nat) (val : σ) :
    Follows data (decodeTimes decode put n val) (l.times n) := by
  induction n generalizing val with
  | zero => exact fun pos inside => tracks_ok (Nat.le_refl _) inside val
  | succ n ih =>
      intro pos inside
      have first := h pos inside
      exact first.andThen fun p hp => ih _ p (first.forward p hp).2

theorem follows_pair {decodeKey : Nat → Decoded Event κ} {decodeValue : ν → Nat → Decoded Event ν}
    {l l' : Layout} (h : Follows data decodeKey l) (h' : ∀ v, Follows data (decodeValue v) l')
    (new : ν) : Follows data (decodePair decodeKey decodeValue new) (l.append l') := by
  intro pos inside
  have first := h pos inside
  exact first.andThen fun p hp => (h' new p (first.forward p hp).2).map _

theorem follows_map [DecidableEq κ] (fits : data.length ≤ maxSize)
    {decodeKey : Nat → Decoded Event κ} {decodeValue : ν → Nat → Decoded Event ν} {l l' : Layout}
    (h : Follows data decodeKey l) (h' : ∀ v, Follows data (decodeValue v) l') (new : ν)
    (val : Finmap fun _ : κ => ν) :
    Follows data (decodeMap decodeKey decodeValue new data val) (.sized data (l.append l').times) :=
  follows_sized fits fun n => follows_times (follows_pair h h' new) _ n val

theorem follows_forwardList (fits : data.length ≤ maxSize) {decode : Nat → Decoded Event α}
    {l : Layout} (h : Follows data decode l) (val : List α) :
    Follows data (decodeForwardList decode data val) (.sized data l.times) :=
  follows_sized fits fun n => follows_times h _ n val

theorem follows_set [DecidableEq α] (fits : data.length ≤ maxSize) {decode : Nat → Decoded Event α}
    {l : Layout} (h : Follows data decode l) (val : Finset α) :
    Follows data (decodeSet decode data val) (.sized data l.times) :=
  follows_sized fits fun n => follows_times h _ n val

theorem follows_elements {decode : α → Nat → Decoded Event α} {l : Layout}
    (h : ∀ x, Follows data (decode x) l) (vals : List α) :
    Follows data (decodeElements decode vals) (l.times vals.length) := by
  induction vals with
  | nil => exact fun pos inside => tracks_ok (Nat.le_refl _) inside _
  | cons x vals ih =>
      intro pos inside
      have first := h x pos inside
      exact first.andThen fun p hp => (ih p (first.forward p hp).2).map _

theorem follows_sequence (fits : data.length ≤ maxSize) {decode : α → Nat → Decoded Event α}
    {l : Layout} (h : ∀ x, Follows data (decode x) l) (new : α) (val : List α) :
    Follows data (decodeSequence decode new data val) (l.sequence data) := by
  refine follows_sized fits fun n => ?_
  split
  · exact fun pos _ => tracks_stopped (by decide) val
  · have all := follows_elements h (resize n new val)
    rw [length_resize] at all
    exact all

/-- The fields of a record with this frame. -/
def FollowsFields (data : List UInt8) (decode : Nat → Nat → α → Nat → Decoded Event α)
    (fields : Nat → Nat → Layout) : Prop :=
  ∀ flag size val pos, flag ≤ pos → pos ≤ data.length → flag + size ≤ data.length →
    Tracks data pos (decode flag size val pos) ((fields flag size).ends pos)
      ((fields flag size).short pos)

theorem follows_last (fits : data.length ≤ maxSize) {decode : α → Nat → Decoded Event α}
    {l : Layout} (h : ∀ x, Follows data (decode x) l) :
    FollowsFields data (decodeLastField decode) l.lastField := by
  intro flag size val pos behind inside frame
  have first := h val pos inside
  have distance : ∀ p ∈ l.ends pos, sub64 p flag = p - flag := fun p hp => by
    have := first.forward p hp
    exact sub64_eq (by omega) (by omega)
  refine (first.finish fun p hp => ?_).congr ?_ Iff.rfl
  · have := first.forward p hp
    rw [distance p hp]
    constructor
    · split <;> omega
    · split <;> omega
  · refine Option.map_congr fun p hp => ?_
    rw [distance p hp]

theorem follows_next (fits : data.length ≤ maxSize) {decode : α → Nat → Decoded Event α}
    {l : Layout} {decodeRest : Nat → Nat → κ → Nat → Decoded Event κ} {rest : Nat → Nat → Layout}
    (h : ∀ x, Follows data (decode x) l) (h' : FollowsFields data decodeRest rest) :
    FollowsFields data (decodeNextField decode decodeRest) (l.nextField rest) := by
  intro flag size val pos behind inside frame
  have first := h val.1 pos inside
  refine first.andThen fun p hp => ?_
  have := first.forward p hp
  rw [sub64_eq (by omega) (by omega)]
  by_cases full : size ≤ p - flag
  · rw [if_pos full, if_pos full]
    exact (tracks_ok (Nat.le_refl _) this.2 _).congr rfl
      (iff_of_true trivial fun more => absurd full more)
  · rw [if_neg full, if_neg full]
    exact ((h' flag size val.2 p (by omega) this.2 frame).map _).congr rfl
      ⟨fun short _ => short, fun short => short full⟩

theorem follows_struct (fits : data.length ≤ maxSize)
    {decodeFields : Nat → Nat → α → Nat → Decoded Event α} {fields : Nat → Nat → Layout}
    (h : FollowsFields data decodeFields fields) (val : α) :
    Follows data (decodeStruct decodeFields data val) (.struct data fields) := by
  intro pos inside
  unfold decodeStruct
  rw [sub64_eq inside fits]
  by_cases empty : pos = data.length
  · have stop : (Layout.struct data fields).ends pos = some pos := if_pos empty
    rw [if_pos (by omega), stop]
    exact (tracks_ok (Nat.le_refl _) inside val).congr rfl
      (iff_of_true trivial fun more => absurd empty more)
  · have stop : (Layout.struct data fields).ends pos =
        (Layout.sized data (.frame data fields)).ends pos := if_neg empty
    rw [if_neg (by omega), stop]
    refine (follows_sized fits (fun size flag inside => ?_) pos inside).congr rfl
      ⟨fun short _ => short, fun short => short empty⟩
    have frame (s : Nat) : (Layout.frame data fields s).ends flag =
        if s = 0 then some flag
        else if data.length - flag < s then none
        else (fields flag s).ends flag := rfl
    rw [frame, sub64_eq inside fits]
    by_cases zero : size = 0
    · rw [if_pos zero, if_pos zero]
      exact (tracks_ok (Nat.le_refl _) inside val).congr rfl
        (iff_of_true trivial fun some_ => absurd zero some_)
    · rw [if_neg zero, if_neg zero]
      by_cases long : data.length - flag < size
      · rw [if_pos long, if_pos long]
        exact (tracks_stopped (by decide) val).congr rfl
          (iff_of_true trivial fun _ room => absurd long (Nat.not_lt.mpr room))
      · rw [if_neg long, if_neg long]
        exact (h flag size val flag (Nat.le_refl _) inside (by omega)).congr rfl
          ⟨fun short _ _ => short, fun short => short zero (Nat.not_lt.mp long)⟩

mutual

/-- Every field is decoded along its layout, whatever the target holds. -/
theorem follows_field (fits : data.length ≤ maxSize) :
    (t : Ty) → (x : Val t) → Follows data (decodeField data t x) (layout data t)
  | .bool, _ => fun _ inside => tracks_fixed fits inside (by decide) _ _
  | .char, _ => fun _ inside => tracks_fixed fits inside (by decide) _ _
  | .integer kind, x => follows_integer fits kind.signed x
  | .floating kind, _ => fun _ inside => tracks_fixed fits inside (by cases kind <;> decide) _ _
  | .string, x => follows_string fits x
  | .map _ key value, x =>
      follows_map fits (follows_field fits key (fresh key)) (follows_field fits value) (fresh value) x
  | .sequence _ element, x => follows_sequence fits (follows_field fits element) (fresh element) x
  | .forwardList element, x => follows_forwardList fits (follows_field fits element (fresh element)) x
  | .set _ element, x => follows_set fits (follows_field fits element (fresh element)) x
  | .struct fields, x => follows_struct fits (follows_fields fits fields) x

theorem follows_fields (fits : data.length ≤ maxSize) :
    (f : Fields) → FollowsFields data (decodeFields data f) (fieldsLayout data f)
  | .one field => follows_last fits (follows_field fits field)
  | .cons field rest => follows_next fits (follows_field fits field) (follows_fields fits rest)

end

end HZRobot.Serial
