import HZRobot.Md5
import Mathlib.Tactic.Linarith

/-!
What md5 hands out over a sequence of calls. The first digest is that of the message. The
later ones are too when the last block had room for the length; otherwise padding has run
over the beginning of the buffer, and they are digests of another message.
-/

namespace HZRobot.Md5

open Blocks

section Spec

/-- The 64-bit number, least significant byte first. -/
def octets64 (n : Nat) : List UInt8 :=
  [n, n / 2 ^ 8, n / 2 ^ 16, n / 2 ^ 24, n / 2 ^ 32, n / 2 ^ 40, n / 2 ^ 48, n / 2 ^ 56].map
    UInt8.ofNat

def padding (size : Nat) : List UInt8 :=
  0x80 :: List.replicate ((119 - size % 64) % 64) 0 ++ octets64 (8 * size)

def bytesOf (state : Words) : List UInt8 := encode [state.a, state.b, state.c, state.d]

def md5 (message : List UInt8) : List UInt8 :=
  bytesOf ((whole 64 (message ++ padding message.length)).foldl transform S0)

end Spec

section Init

theorem copy_length {buffer input : List UInt8} {at_ : Nat}
    (h : at_ + input.length ≤ buffer.length) : (copy buffer at_ input).length = buffer.length := by
  simp only [copy, List.length_append, List.length_take, List.length_drop]
  omega

theorem take_copy {buffer input : List UInt8} {at_ : Nat}
    (h : at_ + input.length ≤ buffer.length) :
    (copy buffer at_ input).take (at_ + input.length) = buffer.take at_ ++ input := by
  have size : (buffer.take at_ ++ input).length = at_ + input.length := by
    rw [List.length_append, List.length_take]
    omega
  rw [copy, ← size, List.take_left]

/-- The loop of init, when it stops before i is out of range. -/
theorem transformLoop_eq (input : List UInt8) (fuel k : Nat) (i : UInt32) (state : Words)
    (enough : k < fuel) (covers : i.toNat + 64 * k ≤ input.length)
    (stops : input.length < i.toNat + 64 * k + 64) (range : i.toNat + 64 * k + 63 < 2 ^ 32) :
    ∃ j : UInt32, j.toNat = i.toNat + 64 * k ∧
      transformLoop input fuel i state =
        some ((blocks 64 k (input.drop i.toNat)).foldl transform state, j) := by
  induction k generalizing fuel i state with
  | zero =>
      obtain ⟨fuel, rfl⟩ := Nat.exists_eq_succ_of_ne_zero (Nat.ne_of_gt enough)
      have last : (i + 63).toNat = i.toNat + 63 := by
        rw [UInt32.toNat_add]
        exact Nat.mod_eq_of_lt range
      refine ⟨i, rfl, ?_⟩
      rw [transformLoop, if_neg (by rw [last]; omega)]
      rfl
  | succ k ih =>
      obtain ⟨fuel, rfl⟩ := Nat.exists_eq_succ_of_ne_zero (Nat.ne_zero_of_lt enough)
      have next : (i + 64).toNat = i.toNat + 64 := by
        rw [UInt32.toNat_add]
        exact Nat.mod_eq_of_lt (by show i.toNat + 64 < 2 ^ 32; omega)
      have last : (i + 63).toNat = i.toNat + 63 := by
        rw [UInt32.toNat_add]
        exact Nat.mod_eq_of_lt (by show i.toNat + 63 < 2 ^ 32; omega)
      obtain ⟨j, hj, loop⟩ := ih fuel (i + 64)
        (transform state ((input.drop i.toNat).take 64)) (by omega) (by omega) (by omega) (by omega)
      refine ⟨j, by omega, ?_⟩
      rw [transformLoop, if_pos (by rw [last]; omega), loop, next, blocks, List.drop_drop,
        List.foldl_cons]

/-- From 2^32 bytes on the counter never reaches the length. -/
theorem transformLoop_none {input : List UInt8} (long : 2 ^ 32 ≤ input.length) (fuel : Nat)
    (i : UInt32) (state : Words) : transformLoop input fuel i state = none := by
  induction fuel generalizing i state with
  | zero => rfl
  | succ fuel ih =>
      rw [transformLoop, if_pos (Nat.lt_of_lt_of_le (i + 63).toNat_lt long), ih]

/-- What the object holds of a message. -/
structure Holds (m : List UInt8) (s : Object) : Prop where
  size : s.buffer.length = 64
  taken : (s.state, s.buffer.take (m.length % 64)) = absorb 64 transform (S0, []) m
  counted : s.count1.toNat * 2 ^ 32 + s.count0.toNat = 8 * m.length

theorem index_toNat {count0 : UInt32} {high n : Nat}
    (h : high * 2 ^ 32 + count0.toNat = 8 * n) : (index count0).toNat = n % 64 := by
  have mask : (count0.toNat / 8) &&& 63 = count0.toNat / 8 % 64 :=
    Nat.and_two_pow_sub_one_eq_mod (count0.toNat / 8) 6
  rw [index, UInt32.toNat_and, UInt32.toNat_shiftRight, Nat.shiftRight_eq_div_pow]
  refine mask.trans ?_
  omega

private theorem carried {a b h n : Nat} (o len : Nat) (ha : a < 2 ^ 32) (hb : b < 2 ^ 32)
    (count : h * 2 ^ 32 + a = 8 * n) (bits : len * 8 = o * 2 ^ 32 + b)
    (total : n + len < 2 ^ 61) :
    (((if 2 ^ 32 ≤ a + b then (h + 1) % 2 ^ 32 else h) + o) % 2 ^ 32) * 2 ^ 32 +
      (a + b) % 2 ^ 32 = 8 * (n + len) := by
  split
  · have room : h + 1 + o < 2 ^ 32 := by omega
    have low : (a + b) % 2 ^ 32 + 2 ^ 32 = a + b := by omega
    rw [Nat.mod_eq_of_lt (a := h + 1) (by omega), Nat.mod_eq_of_lt room]
    linarith
  · have room : h + o < 2 ^ 32 := by omega
    rw [Nat.mod_eq_of_lt (a := a + b) (by omega), Nat.mod_eq_of_lt room]
    linarith

/-- The two words of the count, len bytes on. -/
theorem count_add {low high : UInt32} {n len : Nat}
    (h : high.toNat * 2 ^ 32 + low.toNat = 8 * n) (small : len < 2 ^ 32)
    (total : n + len < 2 ^ 61) :
    ((if low + UInt32.ofNat len <<< 3 < UInt32.ofNat len <<< 3 then high + 1 else high) +
        UInt32.ofNat len >>> 29).toNat * 2 ^ 32 + (low + UInt32.ofNat len <<< 3).toNat =
      8 * (n + len) := by
  have low_bound := low.toNat_lt
  have len_value : (UInt32.ofNat len).toNat = len := Nat.mod_eq_of_lt small
  have bits : (UInt32.ofNat len <<< 3).toNat = len * 8 % 2 ^ 32 := by
    rw [UInt32.toNat_shiftLeft, len_value, Nat.shiftLeft_eq]
    rfl
  have carryOut : (UInt32.ofNat len >>> 29).toNat = len / 2 ^ 29 := by
    rw [UInt32.toNat_shiftRight, len_value, Nat.shiftRight_eq_div_pow]
    rfl
  have low_add : (low + UInt32.ofNat len <<< 3).toNat =
      (low.toNat + len * 8 % 2 ^ 32) % 2 ^ 32 := by
    rw [UInt32.toNat_add, bits]
  have one : (high + 1).toNat = (high.toNat + 1) % 2 ^ 32 := UInt32.toNat_add high 1
  have wraps : low + UInt32.ofNat len <<< 3 < UInt32.ofNat len <<< 3 ↔
      2 ^ 32 ≤ low.toNat + len * 8 % 2 ^ 32 := by
    rw [UInt32.lt_iff_toNat_lt, low_add, bits]
    omega
  have sum := carried (len / 2 ^ 29) len low_bound (Nat.mod_lt (len * 8) (Nat.two_pow_pos 32)) h
    (by omega) total
  by_cases carry : low + UInt32.ofNat len <<< 3 < UInt32.ofNat len <<< 3
  · rw [if_pos (wraps.mp carry)] at sum
    rw [if_pos carry, UInt32.toNat_add, carryOut, one, low_add, sum]
  · rw [if_neg (mt wraps.mpr carry)] at sum
    rw [if_neg carry, UInt32.toNat_add, carryOut, low_add, sum]

/-- The buffer after len bytes more, when it held idx of a block. -/
def filled (buffer : List UInt8) (idx : Nat) (input : List UInt8) : List UInt8 :=
  if 64 ≤ idx + input.length then
    copy (copy buffer idx (input.take (64 - idx))) 0
      (input.drop (64 - idx + 64 * ((input.length - (64 - idx)) / 64)))
  else copy buffer idx input

/-- The input fills the buffer up, and the loop runs over what is behind it. -/
private theorem taken_full {s : Object} {m input : List UInt8} (h : Holds m s)
    (full : 64 - m.length % 64 ≤ input.length) :
    absorb 64 transform (S0, []) (m ++ input) =
      ((blocks 64 ((input.length - (64 - m.length % 64)) / 64)
        (input.drop (64 - m.length % 64))).foldl transform
          (transform s.state (copy s.buffer (m.length % 64) (input.take (64 - m.length % 64)))),
        input.drop (64 - m.length % 64 + 64 * ((input.length - (64 - m.length % 64)) / 64))) := by
  have below : m.length % 64 < 64 := Nat.mod_lt _ (by decide)
  have held : (s.buffer.take (m.length % 64)).length = m.length % 64 := by
    rw [List.length_take, h.size]
    omega
  have behind : s.buffer.drop (m.length % 64 + (input.take (64 - m.length % 64)).length) = [] :=
    List.drop_eq_nil_iff.mpr (by rw [h.size, List.length_take]; omega)
  have fill : absorb 64 transform (s.state, s.buffer.take (m.length % 64)) input = _ :=
    absorb_fill (Nat.zero_lt_succ 63) (by rw [held]; exact below) (by rw [held]; exact full)
  rw [held, whole, rest, List.length_drop, List.drop_drop] at fill
  rw [← absorb_absorb (by decide), ← h.taken, fill, copy, behind, List.append_nil]

theorem init_spec {s : Object} {m : List UInt8} (fuel : Nat) (input : List UInt8) (h : Holds m s)
    (total : m.length + input.length < 2 ^ 61)
    (range : input.length + 63 < 2 ^ 32 ∨ m.length % 64 = 0 ∧ input.length < 2 ^ 32)
    (enough : input.length / 64 < fuel) :
    ∃ s', s.init fuel input = some s' ∧ s'.finished = false ∧ Holds (m ++ input) s' ∧
      s'.buffer = filled s.buffer (m.length % 64) input := by
  have small : input.length < 2 ^ 32 := by omega
  have idx := index_toNat h.counted
  have below : m.length % 64 < 64 := Nat.mod_lt _ (by decide)
  have part : (64 - index s.count0).toNat = 64 - m.length % 64 := by
    rw [UInt32.toNat_sub, idx]
    show (2 ^ 32 - m.length % 64 + 64) % 2 ^ 32 = _
    omega
  have counted := count_add h.counted small total
  rw [← List.length_append] at counted
  rw [Object.init]
  simp only [idx, part]
  by_cases full : 64 - m.length % 64 ≤ input.length
  · have fits : m.length % 64 + (input.take (64 - m.length % 64)).length ≤ s.buffer.length := by
      rw [h.size, List.length_take]
      omega
    obtain ⟨j, hj, loop⟩ := transformLoop_eq input fuel
      ((input.length - (64 - m.length % 64)) / 64) (64 - index s.count0)
      (transform s.state (copy s.buffer (m.length % 64) (input.take (64 - m.length % 64))))
      (by omega) (by omega) (by omega) (by omega)
    rw [part] at hj loop
    have left : (input.drop j.toNat).length = (m ++ input).length % 64 := by
      rw [List.length_drop, List.length_append, hj]
      omega
    have room : 0 + (input.drop j.toNat).length ≤
        (copy s.buffer (m.length % 64) (input.take (64 - m.length % 64))).length := by
      rw [copy_length fits, h.size, left]
      omega
    rw [if_pos full, loop]
    refine ⟨_, rfl, rfl, ⟨?_, ?_, counted⟩, ?_⟩
    · exact (copy_length room).trans ((copy_length fits).trans h.size)
    · rw [taken_full h full, ← hj]
      have buffer := take_copy room
      rw [Nat.zero_add, left] at buffer
      exact congrArg _ buffer
    · have reaches : 64 ≤ m.length % 64 + input.length := by omega
      rw [filled, if_pos reaches, ← hj]
  · rw [if_neg full]
    have fits : m.length % 64 + input.length ≤ s.buffer.length := by rw [h.size]; omega
    refine ⟨_, rfl, rfl, ⟨?_, ?_, counted⟩, ?_⟩
    · exact (copy_length fits).trans h.size
    · have later : (m ++ input).length % 64 = m.length % 64 + input.length := by
        rw [List.length_append]
        omega
      have short : (s.buffer.take (m.length % 64) ++ input).length < 64 := by
        rw [List.length_append, List.length_take, h.size]
        omega
      rw [← absorb_absorb (by decide), ← h.taken, absorb, whole_of_lt short, rest_of_lt short, later,
        take_copy fits]
      rfl
    · have room : ¬ 64 ≤ m.length % 64 + input.length := by omega
      rw [filled, if_neg room]

end Init

section Digest

/-- The message whose last block padding has written over. -/
def spoiled (m : List UInt8) : List UInt8 :=
  m.take (64 * (m.length / 64)) ++
    (List.replicate 56 0 ++ octets64 (8 * m.length)).take (m.length % 64)

/-- The message the object holds after a digest. -/
def kept (m : List UInt8) : List UInt8 := if m.length % 64 < 56 then m else spoiled m

theorem octets64_length (n : Nat) : (octets64 n).length = 8 := rfl

theorem spoiled_length (m : List UInt8) : (spoiled m).length = m.length := by
  simp only [spoiled, List.length_append, List.length_take, List.length_replicate, octets64_length]
  omega

theorem kept_length (m : List UInt8) : (kept m).length = m.length := by
  rw [kept]
  split
  · rfl
  · exact spoiled_length m

theorem kept_kept (m : List UInt8) : kept (kept m) = kept m := by
  rw [kept, kept_length]
  split
  · rfl
  · case isFalse late =>
      have whole_part : (m.take (64 * (m.length / 64))).length = 64 * (m.length / 64) := by
        rw [List.length_take]
        omega
      have again : (spoiled m).take (64 * (m.length / 64)) = m.take (64 * (m.length / 64)) := by
        rw [spoiled, List.take_left' whole_part]
      rw [kept, if_neg late, spoiled, spoiled_length, again, spoiled]

theorem encode_counts {low high : UInt32} {n : Nat}
    (h : high.toNat * 2 ^ 32 + low.toNat = n) : encode [low, high] = octets64 n := by
  have low_bound := low.toNat_lt
  have octet (w k : UInt32) (hk : k.toNat < 32) :
      ((w >>> k).toUInt8).toNat = w.toNat / 2 ^ k.toNat % 256 := by
    rw [UInt32.toNat_toUInt8, UInt32.toNat_shiftRight, Nat.shiftRight_eq_div_pow,
      Nat.mod_eq_of_lt hk]
  have h24 (w : UInt32) := octet w 24 (by decide)
  have h16 (w : UInt32) := octet w 16 (by decide)
  have h8 (w : UInt32) := octet w 8 (by decide)
  have h0 (w : UInt32) : w.toUInt8.toNat = w.toNat % 256 := UInt32.toNat_toUInt8 w
  simp only [UInt32.reduceToNat] at h24 h16 h8
  simp only [encode, List.flatMap_cons, List.flatMap_nil, List.cons_append, List.nil_append,
    octets64, List.map_cons, List.map_nil, List.cons.injEq, and_true, ← UInt8.toNat_inj,
    UInt8.toNat_ofNat', h24, h16, h8, h0]
  omega

/-- The number of padding bytes in front of the length. -/
theorem padLen_toNat (idx : UInt32) (h : idx.toNat < 64) :
    (if idx < 56 then 56 - idx else 120 - idx).toNat = (119 - idx.toNat) % 64 + 1 := by
  have early : idx < 56 ↔ idx.toNat < 56 := UInt32.lt_iff_toNat_lt
  split
  · case isTrue lt =>
      have lt := early.mp lt
      rw [UInt32.toNat_sub]
      show (2 ^ 32 - idx.toNat + 56) % 2 ^ 32 = _
      omega
  · case isFalse ge =>
      have ge := mt early.mpr ge
      rw [UInt32.toNat_sub]
      show (2 ^ 32 - idx.toNat + 120) % 2 ^ 32 = _
      omega

theorem padding64_take {k : Nat} (h : k < 64) :
    padding64.take (k + 1) = 0x80 :: List.replicate k 0 := by
  rw [padding64, List.take_succ_cons, List.take_replicate, Nat.min_eq_left (by omega)]

/-- The length is put behind 56 bytes of the buffer. -/
theorem filled_length {buffer bits : List UInt8} (size : buffer.length = 64)
    (eight : bits.length = 8) : filled buffer 56 bits = buffer.take 56 ++ bits := by
  have all : bits.take 8 = bits := List.take_of_length_le (Nat.le_of_eq eight)
  have none : bits.drop (8 + 64 * 0) = [] := List.drop_eq_nil_iff.mpr (by omega)
  have behind : buffer.drop (56 + 8) = [] := List.drop_eq_nil_iff.mpr (by omega)
  simp only [filled, eight, Nat.reduceAdd, Nat.reduceSub, Nat.reduceDiv, Nat.reduceLeDiff, if_true,
    all, none, copy, List.take_zero, List.nil_append, List.length_nil, List.drop_zero]
  rw [behind, List.append_nil]

/-- Padding that fits in front of the length leaves the beginning of the buffer; padding
that does not writes zeros there. -/
theorem filled_padding {buffer : List UInt8} (size : buffer.length = 64) {idx : Nat}
    (below : idx < 64) :
    (filled buffer idx (0x80 :: List.replicate ((119 - idx) % 64) 0)).take 56 =
      if idx < 56 then buffer.take idx ++ 0x80 :: List.replicate ((119 - idx) % 64) 0
      else List.replicate 56 0 := by
  have pad_size : (0x80 :: List.replicate ((119 - idx) % 64) (0 : UInt8)).length =
      (119 - idx) % 64 + 1 := by rw [List.length_cons, List.length_replicate]
  by_cases early : idx < 56
  · have stops : idx + (0x80 :: List.replicate ((119 - idx) % 64) (0 : UInt8)).length = 56 := by
      rw [pad_size]
      omega
    have fits : idx + (0x80 :: List.replicate ((119 - idx) % 64) (0 : UInt8)).length ≤
        buffer.length := by rw [stops, size]; decide
    have kept := take_copy fits
    rw [stops] at kept
    rw [if_pos early, filled, if_neg (by rw [stops]; decide), kept]
  · have reaches : 64 ≤ idx + (0x80 :: List.replicate ((119 - idx) % 64) (0 : UInt8)).length := by
      rw [pad_size]
      omega
    have zeros : (0x80 :: List.replicate ((119 - idx) % 64) (0 : UInt8)).drop
        (64 - idx + 64 * (((119 - idx) % 64 + 1 - (64 - idx)) / 64)) = List.replicate 56 0 := by
      have at_ : 64 - idx + 64 * (((119 - idx) % 64 + 1 - (64 - idx)) / 64) = 63 - idx + 1 := by
        omega
      rw [at_, List.drop_succ_cons, List.drop_replicate]
      congr 1
      omega
    rw [if_neg early, filled, if_pos reaches, pad_size, zeros, copy, List.take_zero, List.nil_append]
    exact List.take_left' List.length_replicate

/-- What whole blocks and a rest leave in the object. -/
private theorem taken_split {m : List UInt8} {state : Words} {buffer : List UInt8}
    (h : (state, buffer) = absorb 64 transform (S0, []) m) {tail : List UInt8}
    (short : tail.length < 64) :
    (state, tail) = absorb 64 transform (S0, []) (m.take (64 * (m.length / 64)) ++ tail) := by
  have blocks : 64 ∣ (m.take (64 * (m.length / 64))).length := by
    refine ⟨m.length / 64, ?_⟩
    rw [List.length_take]
    omega
  have behind : (m.drop (64 * (m.length / 64))).length < 64 := by
    rw [List.length_drop]
    omega
  rw [← List.take_append_drop (64 * (m.length / 64)) m,
    absorb_whole (Nat.zero_lt_succ 63) S0 blocks behind] at h
  rw [absorb_whole (Nat.zero_lt_succ 63) S0 blocks short, (Prod.mk.inj h).1]

theorem getDigest_spec {s : Object} {m : List UInt8} {fuel : Nat} (h : Holds m s)
    (unfinished : s.finished = false) (bound : m.length < 2 ^ 32) (enough : 2 ≤ fuel) :
    ∃ s', s.getDigest fuel = some (s', md5 m) ∧ s'.finished = false ∧ Holds (kept m) s' := by
  have idx := index_toNat h.counted
  have below : m.length % 64 < 64 := Nat.mod_lt _ (by decide)
  have padLen := padLen_toNat (index s.count0) (by omega)
  rw [idx] at padLen
  have pad_size : (0x80 :: List.replicate ((119 - m.length % 64) % 64) (0 : UInt8)).length =
      (119 - m.length % 64) % 64 + 1 := by rw [List.length_cons, List.length_replicate]
  have bits := encode_counts h.counted
  have h1 : Holds m { s with finished := true } := ⟨h.size, h.taken, h.counted⟩
  obtain ⟨s1, run1, -, holds1, buffer1⟩ := init_spec fuel
    (0x80 :: List.replicate ((119 - m.length % 64) % 64) 0) h1
    (by rw [pad_size]; omega) (.inl (by rw [pad_size]; omega)) (by rw [pad_size]; omega)
  obtain ⟨s2, run2, finished2, holds2, buffer2⟩ := init_spec fuel (octets64 (8 * m.length)) holds1
    (by rw [List.length_append, pad_size, octets64_length]; omega)
    (.inl (by rw [octets64_length]; omega)) (by rw [octets64_length]; omega)
  have digest : bytesOf s2.state = md5 m := by
    have state := congrArg Prod.fst holds2.taken
    rw [List.append_assoc] at state
    exact congrArg bytesOf state
  refine ⟨{ s2 with state := s.state, count0 := s.count0, count1 := s.count1,
                    digest := md5 m }, ?_, finished2, ?_⟩
  · rw [Object.getDigest, if_neg (by rw [unfinished]; decide)]
    simp only [padLen, padding64_take (Nat.mod_lt _ (by decide : 0 < 64)), bits, run1,
      Option.bind_some, run2, Option.map_some]
    rw [← digest]
    rfl
  · have reaches : (m ++ 0x80 :: List.replicate ((119 - m.length % 64) % 64) (0 : UInt8)).length % 64 =
        56 := by
      rw [List.length_append, pad_size]
      omega
    rw [reaches] at buffer2
    rw [filled_length holds1.size (octets64_length _), buffer1, filled_padding h.size below] at buffer2
    have size2 := holds2.size
    rw [kept]
    split
    · case isTrue early =>
        rw [if_pos early] at buffer2
        refine ⟨size2, ?_, h.counted⟩
        have held : (s.buffer.take (m.length % 64)).length = m.length % 64 := by
          rw [List.length_take, h.size]
          omega
        show (s.state, s2.buffer.take (m.length % 64)) = _
        rw [buffer2, List.append_assoc, List.take_left' held, h.taken]
    · case isFalse late =>
        rw [if_neg late] at buffer2
        refine ⟨size2, ?_, by rw [spoiled_length]; exact h.counted⟩
        have short : ((List.replicate 56 0 ++ octets64 (8 * m.length)).take
            (m.length % 64)).length < 64 :=
          Nat.lt_of_le_of_lt (List.length_take_le _ _) below
        show (s.state, s2.buffer.take ((spoiled m).length % 64)) = _
        rw [spoiled_length, buffer2, spoiled]
        exact taken_split h.taken short

end Digest

section Calls

/-- The public calls. -/
inductive Call where
  | to_string_16
  | to_string_32

def Call.of : Call → List UInt8 → List UInt8
  | .to_string_16, digest => ((hex digest).drop 8).take 16
  | .to_string_32, digest => hex digest

def Object.call (fuel : Nat) (s : Object) : Call → Option (Object × List UInt8)
  | .to_string_16 => s.toString16 fuel
  | .to_string_32 => s.toString32 fuel

/-- The strings a sequence of calls hands out. -/
def Object.strings (fuel : Nat) (s : Object) : List Call → Option (List (List UInt8))
  | [] => some []
  | c :: calls => (s.call fuel c).bind fun (s, str) => (s.strings fuel calls).map (str :: ·)

/-- The strings of a sequence of calls: the first is that of the message, the later ones are
those of what the buffer has kept of it. -/
def handedOut (m : List UInt8) : List Call → List (List UInt8)
  | [] => []
  | c :: calls => c.of (md5 m) :: calls.map fun c => c.of (md5 (kept m))

theorem call_spec {s : Object} {m : List UInt8} {fuel : Nat} (h : Holds m s)
    (unfinished : s.finished = false) (bound : m.length < 2 ^ 32) (enough : 2 ≤ fuel) (c : Call) :
    ∃ s', s.call fuel c = some (s', c.of (md5 m)) ∧ s'.finished = false ∧ Holds (kept m) s' := by
  obtain ⟨s', run, unfinished', holds⟩ := getDigest_spec h unfinished bound enough
  refine ⟨s', ?_, unfinished', holds⟩
  cases c with
  | to_string_16 =>
      rw [Object.call, Object.toString16, Object.toString32, run]
      rfl
  | to_string_32 =>
      rw [Object.call, Object.toString32, run]
      rfl

theorem strings_spec {s : Object} {m : List UInt8} {fuel : Nat} (h : Holds m s)
    (unfinished : s.finished = false) (bound : m.length < 2 ^ 32) (enough : 2 ≤ fuel)
    (calls : List Call) : s.strings fuel calls = some (handedOut m calls) := by
  induction calls generalizing s m with
  | nil => rfl
  | cons c calls ih =>
      obtain ⟨s', run, unfinished', holds⟩ := call_spec h unfinished bound enough c
      have later := ih holds unfinished' (by rw [kept_length]; exact bound)
      rw [Object.strings, run, Option.bind_some]
      simp only [later, Option.map_some]
      cases calls with
      | nil => rfl
      | cons d calls => simp only [handedOut, kept_kept, List.map_cons]

theorem holds_empty {buffer : List UInt8} (size : buffer.length = 64) (digest : List UInt8) :
    Holds [] ⟨false, S0, 0, 0, buffer, digest⟩ :=
  ⟨size, (absorb_nil (s := (S0, [])) (Nat.zero_lt_succ 63)).symm, by simp⟩

/-- The constructor comes to its end exactly for messages below 2^32 bytes. -/
theorem new_ends_iff (message buffer digest : List UInt8) (size : buffer.length = 64) :
    (∃ fuel s, Object.new fuel buffer digest message = some s) ↔ message.length < 2 ^ 32 := by
  constructor
  · rintro ⟨fuel, s, run⟩
    by_contra long
    have full : 64 ≤ message.length := by omega
    rw [Object.new, Object.init] at run
    simp only [transformLoop_none (Nat.le_of_not_lt long), Option.map_none] at run
    have part : (64 - index 0).toNat = 64 := by decide
    rw [if_pos (by rw [part]; exact full)] at run
    cases run
  · intro short
    obtain ⟨s, run, -⟩ := init_spec (message.length / 64 + 1) message
      (holds_empty size digest) (by simp only [List.length_nil]; omega) (.inr ⟨rfl, short⟩) (by omega)
    exact ⟨_, s, run⟩

/-- A message of one block and a part of another one. -/
theorem new_ends_twoBlocks : ∃ fuel s,
    Object.new fuel (List.replicate 64 0) [] (List.replicate 100 97) = some s :=
  (new_ends_iff (List.replicate 100 97) (List.replicate 64 0) [] (by decide)).mpr (by decide)

/-- Whatever the memory held, the first string is that of the message. The later ones are
those of what is kept of it, which is the message where its last block had room for the
length. -/
theorem strings_of_new {message buffer : List UInt8} (size : buffer.length = 64)
    (digest : List UInt8) (short : message.length < 2 ^ 32) {fuel : Nat} (two : 2 ≤ fuel)
    (enough : message.length / 64 < fuel) :
    ∃ s, Object.new fuel buffer digest message = some s ∧
      ∀ calls, s.strings fuel calls = some (handedOut message calls) := by
  obtain ⟨s, run, unfinished, holds, -⟩ := init_spec fuel message
    (holds_empty size digest) (by simp only [List.length_nil]; omega) (.inr ⟨rfl, short⟩) enough
  exact ⟨s, run, strings_spec holds unfinished short two⟩

theorem strings_of_new_abc : ∃ s, Object.new 2 (List.replicate 64 7) [] (bytes "abc") = some s ∧
    ∀ calls, s.strings 2 calls = some (handedOut (bytes "abc") calls) :=
  strings_of_new (by decide) [] (by decide) (by decide) (by decide)

/-- Sixty letters a: the second string is another one. -/
example : md5 (kept (List.replicate 60 97)) ≠ md5 (List.replicate 60 97) := by decide +kernel

end Calls

end HZRobot.Md5
