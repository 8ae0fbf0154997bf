import HZRobot.SelfDelimiting
import HZRobot.SerialSafety
import HZRobot.SerialTruncated

/-!
The second length codec: serial::encode_size and serial::decode_size. Bytes are chars,
promoted with their sign; the type T of a length is unsigned, with w bits, at most 64.
Where shine_serial_decode_size moves a cursor, decode_size is given the bytes from data
on and returns how many it has taken, 0 when it fails. A shift by 64 or more, undefined
in the source, is logged and gives 0.
-/

namespace HZRobot.Tool

open Serial SelfDelimiting Varint

/-- A call returns how many bytes it has taken; the target holds what it holds then. -/
structure Counted (α : Type) where
  count : Nat
  value : α
  log : List Event
  deriving DecidableEq, Repr

/-- Zero is failure. -/
def Counted.accepted {α : Type} (x : Counted α) : Option (α × Nat) :=
  if x.count = 0 then none else some (x.value, x.count)

theorem Counted.count_of_accepted {α : Type} {x : Counted α} {a : α} {n : Nat}
    (h : x.accepted = some (a, n)) : x.count = n ∧ x.value = a := by
  rw [accepted] at h
  split at h
  · cases h
  · cases h
    exact ⟨rfl, rfl⟩

theorem Counted.count_of_refused {α : Type} {x : Counted α} (h : x.accepted = none) :
    x.count = 0 := by
  rw [accepted] at h
  split at h
  · case isTrue zero => exact zero
  · cases h

/-- A char in an expression is an int. -/
def promote (c : BitVec 8) : BitVec 32 := c.signExtend 32

section Codec

variable {w : Nat}

/-- serial::encode_size. -/
def encodeSize (buf : List UInt8) (size : BitVec w) : List UInt8 :=
  let ch := BitVec.ofNat 8 (size.toNat &&& (1 <<< 7 - 1))
  let rest := size >>> 7
  let ch := if rest ≠ 0 then (promote ch ||| 0x80).truncate 8 else ch
  let buf := buf ++ [UInt8.ofBitVec ch]
  if _h : rest ≠ 0 then encodeSize buf rest else buf
termination_by size.toNat
decreasing_by
  have positive : (size >>> 7).toNat ≠ 0 := fun zero => _h (BitVec.eq_of_toNat_eq zero)
  rw [BitVec.toNat_ushiftRight, Nat.shiftRight_eq_div_pow] at positive ⊢
  omega

/-- The loop of serial::decode_size. -/
def decodeLoop (data : List UInt8) (i : Nat) (val : BitVec w) : Counted (BitVec w) :=
  let byte := promote (byteAt data i).toBitVec
  let val := (val.zeroExtend 64 ||| (byte &&& 0x7F).signExtend 64 <<< (7 * i)).truncate w
  let events := [.read i (i + 1), .shift (7 * i)]
  if byte &&& 0x80 ≠ 0 then
    if data.length ≤ i + 1 then ⟨0, val, events⟩
    else
      let next := decodeLoop data (i + 1) val
      { next with log := events ++ next.log }
  else ⟨i + 1, val, events⟩
termination_by data.length - i

/-- serial::decode_size. -/
def decodeSize (val : BitVec w) (data : List UInt8) : Counted (BitVec w) :=
  if data.length < 1 then ⟨0, val, []⟩ else decodeLoop data 0 0

end Codec

/-- Setting the high bit of an int sets it in the char. -/
theorem promote_high (c : BitVec 8) : (promote c ||| 0x80).truncate 8 = c ||| 0x80 := by
  have all : ∀ c : BitVec 8, (promote c ||| 0x80).truncate 8 = c ||| 0x80 := by decide +kernel
  exact all c

/-- The sign does not reach the seven bits of a group. -/
theorem promote_group (b : UInt8) :
    (promote b.toBitVec &&& 0x7F).signExtend 64 = BitVec.ofNat 64 (b.toNat &&& (1 <<< 7 - 1)) := by
  have all : ∀ c : BitVec 8, (promote c &&& 0x7F).signExtend 64 =
      BitVec.ofNat 64 (c.toNat &&& (1 <<< 7 - 1)) := by decide +kernel
  exact all b.toBitVec

theorem promote_goes (b : UInt8) : promote b.toBitVec &&& 0x80 ≠ 0 ↔ b &&& 0x80 ≠ 0 := by
  have all : ∀ c : BitVec 8, promote c &&& 0x80 = 0 ↔ c &&& 0x80 = 0 := by decide +kernel
  rw [ne_eq, all, ne_eq, ← UInt8.toBitVec_inj]
  rfl

/-- What a call leaves that moves a cursor from 0 on. -/
def counted {α : Type} (y : Decoded Event α) : Counted α :=
  ⟨if y.status = .ok then y.pos else 0, y.value, y.log⟩

section Codec

variable {w : Nat}

theorem orGroup_eq (b : UInt8) (amount : Nat) (val : BitVec w) :
    (val.zeroExtend 64 ||| (promote b.toBitVec &&& 0x7F).signExtend 64 <<< amount).truncate w =
      orGroup 7 false b amount val := by
  rw [promote_group]
  rfl

/-- Both encoders append the same bytes. -/
theorem encodeSize_eq (buf : List UInt8) (size : BitVec w) :
    encodeSize buf size = Serial.encodeSize size.toNat buf true 0 := by
  fun_induction encodeSize buf size with
  | case1 buf size ch rest ch' buf' more ih =>
      have goes : size.toNat >>> 7 ≠ 0 := fun zero =>
        more (BitVec.eq_of_toNat_eq ((BitVec.toNat_ushiftRight size 7).trans zero))
      have byte : ch' = ch ||| 0x80 := (dif_pos more).trans (promote_high ch)
      rw [ih, Serial.encodeSize.eq_def size.toNat, dif_pos goes, if_pos goes]
      simp only [buf', byte, if_true]
      rfl
  | case2 buf size ch rest ch' buf' last =>
      have none_ : size >>> 7 = 0 := not_not.mp last
      have zero : size.toNat >>> 7 = 0 := by
        rw [← BitVec.toNat_ushiftRight, none_, BitVec.ofNat_eq_ofNat, BitVec.toNat_zero]
      have byte : ch' = ch := dif_neg last
      rw [Serial.encodeSize, dif_neg (not_not.mpr zero), if_neg (not_not.mpr zero)]
      simp only [buf', byte, if_true]
      rfl

/-- The loop of serial::decode_size is the one of shine_serial_decode_size. -/
theorem decodeLoop_eq (data : List UInt8) (i : Nat) (val : BitVec w) :
    decodeLoop data i val = counted (varintLoop 7 false data 0 data.length i val) := by
  have start : byteAt data (0 + i) = byteAt data i := by rw [Nat.zero_add]
  fun_induction decodeLoop data i val with
  | case1 i val byte val' events goes last =>
      rw [varintLoop_fails (start ▸ (promote_goes _).mp goes) last, start, ← orGroup_eq,
        Nat.zero_add]
      rfl
  | case2 i val byte val' events goes more next ih =>
      rw [varintLoop_continues (start ▸ (promote_goes _).mp goes) more, start, ← orGroup_eq,
        Nat.zero_add]
      have rest : next = counted (varintLoop 7 false data 0 data.length (i + 1) val') :=
        ih (by rw [Nat.zero_add])
      rw [rest]
      rfl
  | case3 i val byte val' events stop =>
      have last : byteAt data i &&& 0x80 = 0 :=
        not_not.mp fun goes => stop ((promote_goes _).mpr goes)
      rw [varintLoop_stops (start ▸ last), start, ← orGroup_eq, Nat.zero_add, Nat.zero_add]
      rfl

theorem decodeSize_eq {data : List UInt8} (some_ : data ≠ []) (val : BitVec w) :
    decodeSize val data = counted (varintLoop 7 false data 0 data.length 0 (0 : BitVec w)) := by
  have left := List.length_pos_iff.mpr some_
  rw [decodeSize, if_neg (by omega), decodeLoop_eq]

end Codec

section Accepted

variable {α : Type} {y : Decoded Event α}

theorem count_of_ok (ok : y.status = .ok) : (counted y).count = y.pos := if_pos ok

theorem count_of_stopped (stopped : y.status ≠ .ok) : (counted y).count = 0 := if_neg stopped

theorem count_ne_zero_iff (took : y.status = .ok → y.pos ≠ 0) :
    (counted y).count ≠ 0 ↔ y.status = .ok := by
  constructor
  · intro some_
    by_contra stopped
    exact some_ (count_of_stopped stopped)
  · intro ok
    rw [count_of_ok ok]
    exact took ok

theorem accepted_of_returns {a : α} {n : Nat} (h : y.Returns a n) (took : n ≠ 0) :
    (counted y).accepted = some (a, n) := by
  obtain ⟨ok, rfl, rfl⟩ := h
  rw [Counted.accepted, count_of_ok ok]
  exact if_neg took

theorem accepted_of_stopped (h : y.status ≠ .ok) : (counted y).accepted = none := by
  rw [Counted.accepted, if_pos (count_of_stopped h)]

end Accepted

section Delimits

variable {w : Nat}

/-- What serial::decode_size accepts. -/
def readSize (val : BitVec w) : Reader UInt8 (BitVec w) := fun data =>
  (decodeSize val data).accepted

/-- The bytes of a length say themselves where they end, whatever the target holds. -/
theorem delimits_size (le : w ≤ 64) (val : BitVec w) :
    Delimits (readSize val) fun n => sizeBytes n.toNat where
  back n q := by
    have groups := @groups_groupBytes 7 (by decide) (by decide) n.toNat
    have some_ := List.length_pos_iff.mpr (sizeBytes_ne_nil n.toNat)
    have loop := varintLoop_returns false le groups [] q 0 0 (sizeBytes n.toNat ++ q).length rfl
      (by rw [Nat.zero_add, List.length_append]; exact Nat.le_add_right _ _) (0 : BitVec w)
    have value : (0 : BitVec w) ||| BitVec.ofNat w (n.toNat <<< (7 * 0)) = n := by
      rw [Nat.mul_zero, Nat.shiftLeft_zero, BitVec.ofNat_eq_ofNat, BitVec.zero_or,
        BitVec.ofNat_toNat, BitVec.setWidth_eq]
    rw [value, Nat.zero_add] at loop
    rw [readSize, decodeSize_eq (by simp [sizeBytes_ne_nil])]
    exact accepted_of_returns loop some_.ne'
  cut := by
    intro n s part proper
    by_cases some_ : s = []
    · subst some_
      rfl
    · have goes := (groups_groupBytes (by decide) (by decide) n.toNat).continued part proper
      have stopped : (varintLoop 7 false s 0 (0 + s.length) 0 (0 : BitVec w)).status = .failed :=
        varintLoop_cut s [] 0 0 rfl some_ goes 0
      rw [Nat.zero_add] at stopped
      rw [readSize, decodeSize_eq some_]
      exact accepted_of_stopped (by rw [stopped]; decide)

end Delimits

section Agree

/-- The event lies so much further behind. -/
def move (k : Nat) : Event → Event
  | .sizeAt start => .sizeAt (k + start)
  | .integerAt start => .integerAt (k + start)
  | .read start stop => .read (k + start) (k + stop)
  | .shift amount => .shift amount

/-- A call whose buffer has so many more bytes in front. -/
def moved {α : Type} (k : Nat) (y : Decoded Event α) : Decoded Event α :=
  ⟨y.status, y.value, k + y.pos, y.log.map (move k)⟩

/-- Both calls accept, with the same value and as many bytes, or both refuse; they read the
same bytes and shift by the same amounts. -/
structure Agree (x : Counted (BitVec 64)) (y : Decoded Event Nat) (pos : Nat) : Prop where
  accept : x.count ≠ 0 ↔ y.status = .ok
  value : y.status = .ok → y.value = x.value.toNat
  cursor : y.status = .ok → y.pos = pos + x.count
  log : y.log = .sizeAt pos :: x.log.map (move pos)

theorem varintLoop_moved {bits : Nat} {signed : Bool} {w : Nat} (p s : List UInt8) (avail i : Nat)
    (val : BitVec w) :
    varintLoop bits signed (p ++ s) p.length avail i val =
      moved p.length (varintLoop bits signed s 0 avail i val) := by
  have byte (i : Nat) : byteAt (p ++ s) (p.length + i) = byteAt s (0 + i) := by
    rw [byteAt_append, Nat.zero_add]
    rfl
  induction m : avail - i using Nat.strongRecOn generalizing i val with
  | ind m ih =>
      by_cases goes : byteAt s (0 + i) &&& 0x80 ≠ 0
      · by_cases last : avail ≤ i + 1
        · rw [varintLoop_fails (by rw [byte]; exact goes) last, varintLoop_fails goes last, byte,
            Nat.zero_add]
          rfl
        · rw [varintLoop_continues (by rw [byte]; exact goes) last, varintLoop_continues goes last,
            byte, ih (avail - (i + 1)) (by omega) (i + 1) _ rfl, Nat.zero_add]
          rfl
      · have stop := not_not.mp goes
        rw [varintLoop_stops (by rw [byte]; exact stop), varintLoop_stops stop, byte, Nat.zero_add,
          Nat.zero_add]
        rfl

theorem varintLoop_took {s : List UInt8} (some_ : s ≠ []) (bits : Nat) (signed : Bool) {w : Nat}
    (val : BitVec w) (ok : (varintLoop bits signed s 0 s.length 0 val).status = .ok) :
    (varintLoop bits signed s 0 s.length 0 val).pos ≠ 0 := by
  have left := List.length_pos_iff.mpr some_
  have tracks := @varintLoop_tracks s bits signed w 0 s.length 0 rfl (by omega) val
  have stop : varintEnd s 0 = some (varintLoop bits signed s 0 s.length 0 val).pos :=
    tracks.stop_eq.symm.trans (if_pos ok)
  rw [varintEnd] at stop
  split at stop
  · rw [← Option.some.inj stop]
    exact Nat.succ_ne_zero _
  · cases stop

/-- Both decoders agree wherever the cursor stands. -/
theorem decodeSize_agrees (p s : List UInt8) (fits : (p ++ s).length < 2 ^ 64)
    (cursor : p.length + 1 < 2 ^ 64) (val : BitVec 64) :
    Agree (decodeSize val s) (Serial.decodeSize (p ++ s) p.length) p.length := by
  have avail : sub64 (p ++ s).length p.length = s.length := by
    rw [sub64_of_lt (by rw [List.length_append]; omega) fits, List.length_append]
    omega
  rw [Serial.decodeSize, avail, varintLoop_moved, add64, Nat.mod_eq_of_lt cursor]
  by_cases empty : s = []
  · rw [if_pos (by rw [empty, List.append_nil]; omega), empty]
    have refused : Status.failed ≠ .ok := by decide
    exact ⟨⟨fun some_ => absurd rfl some_, fun ok => absurd ok refused⟩,
      fun ok => absurd ok refused, fun ok => absurd ok refused, rfl⟩
  · have left := List.length_pos_iff.mpr empty
    rw [if_neg (by rw [List.length_append]; omega), decodeSize_eq empty]
    have took := varintLoop_took empty 7 false (0 : BitVec 64)
    have stops (ok : (varintLoop 7 false s 0 s.length 0 (0 : BitVec 64)).status = .ok) :=
      congrArg (p.length + ·) (count_of_ok ok).symm
    exact ⟨count_ne_zero_iff took, fun _ => rfl, stops, rfl⟩

end Agree

section Defined

/-- Every read lies in the buffer and every shift is by less than 64. -/
def Defined (data : List UInt8) (log : List Event) : Prop :=
  (∀ start stop, .read start stop ∈ log → stop ≤ data.length) ∧
    ∀ amount, .shift amount ∈ log → amount < 64

theorem defined_nil (data : List UInt8) : Defined data [] :=
  ⟨fun _ _ mem => (by cases mem), fun _ mem => by cases mem⟩

theorem Defined.append {data : List UInt8} {log log' : List Event} (h : Defined data log)
    (k : Defined data log') : Defined data (log ++ log') :=
  ⟨fun start stop mem => (List.mem_append.mp mem).elim (h.1 start stop) (k.1 start stop),
    fun amount mem => (List.mem_append.mp mem).elim (h.2 amount) (k.2 amount)⟩

theorem Defined.moved {s : List UInt8} {log : List Event} (h : Defined s log) (p : List UInt8) :
    Defined (p ++ s) (log.map (move p.length)) := by
  constructor
  · intro start stop mem
    obtain ⟨event, there, same⟩ := List.mem_map.mp mem
    cases event with
    | read start' stop' =>
        cases same
        have := h.1 start' stop' there
        rw [List.length_append]
        omega
    | sizeAt | integerAt | shift => cases same
  · intro amount mem
    obtain ⟨event, there, same⟩ := List.mem_map.mp mem
    cases event with
    | shift =>
        cases same
        exact h.2 amount there
    | sizeAt | integerAt | read => cases same

theorem Defined.sizeAt {data : List UInt8} {log : List Event} (h : Defined data log) (start : Nat) :
    Defined data (.sizeAt start :: log) := by
  have alone : Defined data [.sizeAt start] :=
    ⟨fun _ _ mem => (by simp at mem), fun _ mem => by simp at mem⟩
  exact alone.append h

/-- Continuation bytes follow each other nine times at most. -/
def ShortRuns (s : List UInt8) : Prop :=
  ∀ bytes, bytes <:+: s → (∀ b ∈ bytes, b &&& 0x80 ≠ 0) → bytes.length ≤ 9

theorem ShortRuns.run_le {s : List UInt8} (h : ShortRuns s) : run s 0 ≤ 9 := by
  refine h _ (List.takeWhile_prefix _).isInfix fun b mem => ?_
  exact of_decide_eq_true (List.all_eq_true.mp List.all_takeWhile b mem)

theorem run_mono {s t : List UInt8} (part : s <+: t) : run s 0 ≤ run t 0 := by
  obtain ⟨u, rfl⟩ := part
  rw [run, run, List.drop_zero, List.drop_zero, List.takeWhile_append]
  split
  · rw [List.length_append]
    omega
  · exact Nat.le_refl _

/-- A length below 2^64 has nine continuation bytes at most. -/
theorem run_sizeBytes {n : Nat} (small : n < 2 ^ 64) (q : List UInt8) :
    run (sizeBytes n ++ q) 0 ≤ 9 := by
  have groups : Groups 7 n (groupBytes 7 n) := groups_groupBytes (by decide) (by decide) n
  have announcing := groups.announcing q
  have most : (groupBytes 7 n).length ≤ 9 + 1 := groupBytes_length_le (by omega)
  rw [run, List.drop_zero, sizeBytes]
  omega

theorem decodeSize_defined {w : Nat} (val : BitVec w) {s : List UInt8} (short : run s 0 ≤ 9) :
    Defined s (decodeSize val s).log := by
  by_cases empty : s = []
  · rw [empty]
    exact defined_nil []
  · have left := List.length_pos_iff.mpr empty
    have tracks := @varintLoop_tracks s 7 false w 0 s.length 0 rfl (by omega) 0
    rw [decodeSize_eq empty]
    refine ⟨fun start stop mem => (tracks.reads start stop mem).1, tracks.shifts.mpr ?_⟩
    rw [Nat.zero_add, Nat.zero_add]
    omega

end Defined

end HZRobot.Tool
