import HZRobot.Serial
import HZRobot.Varint

/-!
Lengths and integers on the wire. Both encoders write groups of bits, both decoders
read them back in the middle of any buffer; an integer keeps its sign in a free bit
of the first byte.
-/

namespace HZRobot.Serial

open Varint

theorem and_mask (n bits : Nat) : n &&& (1 <<< bits - 1) = n % 2 ^ bits := by
  rw [Nat.one_shiftLeft, Nat.and_two_pow_sub_one_eq_mod]

/-- The bytes shine_serial_encode_size writes. -/
def sizeBytes (n : Nat) : List UInt8 := groupBytes 7 n

theorem sizeBytes_ne_nil (n : Nat) : sizeBytes n ≠ [] :=
  (groups_groupBytes (by decide) (by decide) n).ne_nil

theorem encodeSize_back (n : Nat) (ret : List UInt8) (pos : Nat) :
    encodeSize n ret true pos = ret ++ sizeBytes n := by
  induction n using Nat.strongRecOn generalizing ret with
  | ind n ih =>
      rw [encodeSize, and_mask, sizeBytes]
      by_cases last : n >>> 7 = 0
      · simp [last, groupBytes_last last]
      · have less : n >>> 7 < n := by
          rw [Nat.shiftRight_eq_div_pow] at last ⊢
          omega
        simp only [ne_eq, last, not_false_eq_true, if_true, dif_pos, ih _ less, sizeBytes,
          groupBytes_more (by decide : 0 < 7) last, List.append_assoc, List.singleton_append]

theorem insertAt_append {pos : Nat} {ret : List UInt8} (room : pos ≤ ret.length)
    (text more : List UInt8) :
    insertAt (pos + text.length) more (insertAt pos text ret) = insertAt pos (text ++ more) ret := by
  have front : (ret.take pos ++ text).length = pos + text.length := by
    rw [List.length_append, List.length_take]
    omega
  rw [insertAt, insertAt, insertAt, ← front, List.take_left, List.drop_left]
  simp only [List.append_assoc]

theorem encodeSize_insert (n : Nat) {ret : List UInt8} {pos : Nat} (room : pos ≤ ret.length) :
    encodeSize n ret false pos = insertAt pos (sizeBytes n) ret := by
  induction n using Nat.strongRecOn generalizing ret pos with
  | ind n ih =>
      rw [encodeSize, and_mask, sizeBytes]
      by_cases last : n >>> 7 = 0
      · simp [last, groupBytes_last last]
      · have less : n >>> 7 < n := by
          rw [Nat.shiftRight_eq_div_pow] at last ⊢
          omega
        have more (b : UInt8) : pos + 1 ≤ (insertAt pos [b] ret).length := by
          simp only [insertAt, List.length_append, List.length_take, List.length_cons,
            List.length_nil]
          omega
        have join (b : UInt8) (text : List UInt8) :
            insertAt (pos + 1) text (insertAt pos [b] ret) = insertAt pos (b :: text) ret :=
          insertAt_append room [b] text
        simp only [ne_eq, last, not_false_eq_true, if_true, dif_pos, Bool.false_eq_true, if_false,
          ih _ less (more _), sizeBytes, groupBytes_more (by decide : 0 < 7) last, join]

theorem encodeGroups_eq (n : Nat) (ret : List UInt8) :
    encodeGroups n ret = ret ++ groupBytes 6 n := by
  induction n using Nat.strongRecOn generalizing ret with
  | ind n ih =>
      have mask : n &&& 0x3F = n % 2 ^ 6 := and_mask n 6
      rw [encodeGroups, mask]
      by_cases last : n >>> 6 = 0
      · simp [last, groupBytes_last last]
      · have less : n >>> 6 < n := by
          rw [Nat.shiftRight_eq_div_pow] at last ⊢
          omega
        simp only [ne_eq, last, not_false_eq_true, if_true, dif_pos, ih _ less,
          groupBytes_more (by decide : 0 < 6) last, List.append_assoc, List.singleton_append]

/-- The bytes of an integer, the sign in bit 6 of the first one. -/
def integerBytes (signed : Bool) {w : Nat} (val : BitVec w) : List UInt8 :=
  if negative signed val then (groupBytes 6 (magnitude signed val).toNat).modifyHead (· ||| 0x40)
  else groupBytes 6 (magnitude signed val).toNat

theorem encodeInteger_eq (signed : Bool) {w : Nat} (val : BitVec w) (ret : List UInt8) :
    encodeInteger signed val ret = ret ++ integerBytes signed val := by
  unfold encodeInteger integerBytes
  rw [encodeGroups_eq]
  split
  · rw [List.modify_eq_take_drop, List.take_left, List.drop_left]
  · rfl

/-- Setting the sign keeps the groups. -/
theorem groups_sign {n : Nat} {b : UInt8} {bs : List UInt8} (h : Groups 6 n (b :: bs)) :
    Groups 6 n ((b ||| 0x40) :: bs) := by
  have high : (b ||| 0x40) &&& 0x80 = b &&& 0x80 := by
    have free : (0x40 : UInt8).toNat &&& (0x80 : UInt8).toNat = 0 := by decide
    apply UInt8.toNat_inj.mp
    rw [UInt8.toNat_and, UInt8.toNat_or, Nat.and_or_distrib_right, free, Nat.or_zero,
      UInt8.toNat_and]
  have low : (b ||| 0x40).toNat % 2 ^ 6 = b.toNat % 2 ^ 6 := toNat_or_mod (by decide)
  cases h with
  | last group stop => exact .last (low.trans group) (high.trans stop)
  | more group goes rest => exact .more (low.trans group) (high ▸ goes) rest

theorem groups_integerBytes (signed : Bool) {w : Nat} (val : BitVec w) :
    Groups 6 (magnitude signed val).toNat (integerBytes signed val) := by
  have plain := @groups_groupBytes 6 (by decide) (by decide) (magnitude signed val).toNat
  unfold integerBytes
  split
  · cases bytes : groupBytes 6 (magnitude signed val).toNat with
    | nil => exact absurd bytes plain.ne_nil
    | cons b bs =>
        rw [bytes] at plain
        exact groups_sign plain
  · exact plain

/-- The first byte tells the sign. -/
theorem sign_integerBytes (signed : Bool) {w : Nat} (val : BitVec w) (q : List UInt8) :
    (integerBytes signed val ++ q).getD 0 0 &&& 0x40 > 0 ↔ negative signed val = true := by
  have plain : ∀ m < 64, ¬ (UInt8.ofNat m &&& 0x40 > 0) ∧
      ¬ ((UInt8.ofNat m ||| 0x80) &&& 0x40 > 0) := by decide
  have signedByte : ∀ m < 64, ((UInt8.ofNat m ||| 0x40) &&& 0x40 > 0) ∧
      (((UInt8.ofNat m ||| 0x80) ||| 0x40) &&& 0x40 > 0) := by decide
  have small : (magnitude signed val).toNat % 2 ^ 6 < 64 := Nat.mod_lt _ (by decide)
  unfold integerBytes
  by_cases last : (magnitude signed val).toNat >>> 6 = 0
  · rw [groupBytes_last last]
    cases sign : negative signed val with
    | true => exact ⟨fun _ => rfl, fun _ => (signedByte _ small).1⟩
    | false => exact ⟨fun h => absurd h (plain _ small).1, fun h => by cases h⟩
  · rw [groupBytes_more (by decide) last]
    cases sign : negative signed val with
    | true => exact ⟨fun _ => rfl, fun _ => (signedByte _ small).2⟩
    | false => exact ⟨fun h => absurd h (plain _ small).2, fun h => by cases h⟩

section

variable {w : Nat}

theorem getLsbD_widen (signed : Bool) (le : w ≤ 64) (val : BitVec w) {j : Nat} (hj : j < w) :
    (widen signed val).getLsbD j = val.getLsbD j := by
  have inside : j < 64 := by omega
  cases signed with
  | true => simp only [widen, if_true, BitVec.getLsbD_signExtend, hj, inside, decide_true, Bool.true_and]
  | false =>
      simp only [widen, Bool.false_eq_true, if_false, BitVec.truncate_eq_setWidth,
        BitVec.getLsbD_setWidth, inside, decide_true, Bool.true_and]

/-- One group more. -/
theorem orGroup_or (signed : Bool) (le : w ≤ 64) (val : BitVec w) {n bits k : Nat} {b : UInt8}
    (group : b.toNat % 2 ^ bits = n % 2 ^ bits) :
    orGroup bits signed b k val ||| BitVec.ofNat w ((n >>> bits) <<< (k + bits)) =
      val ||| BitVec.ofNat w (n <<< k) := by
  rw [orGroup, and_mask, group]
  apply BitVec.eq_of_getLsbD_eq
  intro j hj
  have inside : j < 64 := by omega
  simp only [BitVec.getLsbD_or, BitVec.truncate_eq_setWidth, BitVec.getLsbD_setWidth, hj,
    decide_true, Bool.true_and, getLsbD_widen signed le val hj, BitVec.getLsbD_shiftLeft, inside,
    BitVec.getLsbD_ofNat, Nat.testBit_mod_two_pow, Nat.testBit_shiftLeft, Nat.testBit_shiftRight,
    Bool.or_assoc]
  congr 1
  by_cases below : j < k
  · have : ¬ j ≥ k + bits := by omega
    simp [below, this]
  · by_cases here : j - k < bits
    · have : ¬ j ≥ k + bits := by omega
      have small : j - k < 64 := by omega
      simp [below, here, this, small, Nat.le_of_not_lt below]
    · have : j ≥ k + bits := by omega
      have same : bits + (j - (k + bits)) = j - k := by omega
      simp [below, here, this, same, Nat.le_of_not_lt below]

theorem truncate_widen (signed : Bool) (le : w ≤ 64) (val : BitVec w) :
    (widen signed val).setWidth w = val := by
  apply BitVec.eq_of_getLsbD_eq
  intro j hj
  rw [BitVec.getLsbD_setWidth, getLsbD_widen signed le val hj, decide_eq_true hj, Bool.true_and]

/-- The magnitude in the narrow type is the value or its negation. -/
theorem truncate_magnitude (signed : Bool) (le : w ≤ 64) (val : BitVec w) :
    (magnitude signed val).setWidth w = if negative signed val then -val else val := by
  unfold magnitude
  split
  · have wide : w ≤ max 32 w := Nat.le_max_right _ _
    have wider : max 32 w ≤ 64 := Nat.max_le.mpr ⟨by decide, le⟩
    have narrow (x : BitVec (max 32 w)) : (widen true x).setWidth w = x.setWidth w := by
      rw [← BitVec.setWidth_setWidth_of_le _ wide, truncate_widen true wider]
    rw [narrow, BitVec.setWidth_neg_of_le wide]
    congr 1
    apply BitVec.eq_of_getLsbD_eq
    intro j hj
    have inside : j < max 32 w := by omega
    simp only [BitVec.getLsbD_setWidth, BitVec.getLsbD_signExtend, hj, inside, if_true, decide_true,
      Bool.true_and]
  · exact truncate_widen signed le val

end

theorem byteAt_append (p q : List UInt8) (i : Nat) :
    byteAt (p ++ q) (p.length + i) = q.getD i 0 := by
  rw [byteAt, List.getD_append_right _ _ _ _ (Nat.le_add_right _ _), Nat.add_sub_cancel_left]

theorem byteAt_here {front : List UInt8} {pos : Nat} (at_ : front.length = pos) (b : UInt8)
    (text : List UInt8) : byteAt (front ++ b :: text) pos = b := by
  rw [← at_, ← Nat.add_zero front.length, byteAt_append]
  rfl

section Loop

variable {bits : Nat} {signed : Bool} {w : Nat} {data : List UInt8} {cost_len avail i : Nat}

theorem varintLoop_stops (stop : byteAt data (cost_len + i) &&& 0x80 = 0) (val : BitVec w) :
    varintLoop bits signed data cost_len avail i val =
      ⟨.ok, orGroup bits signed (byteAt data (cost_len + i)) (bits * i) val, cost_len + (i + 1),
        [.read (cost_len + i) (cost_len + i + 1), .shift (bits * i)]⟩ := by
  rw [varintLoop]
  simp only [stop, ne_eq, not_true_eq_false, if_false]

theorem varintLoop_fails (goes : byteAt data (cost_len + i) &&& 0x80 ≠ 0) (last : avail ≤ i + 1)
    (val : BitVec w) :
    varintLoop bits signed data cost_len avail i val =
      ⟨.failed, orGroup bits signed (byteAt data (cost_len + i)) (bits * i) val, cost_len,
        [.read (cost_len + i) (cost_len + i + 1), .shift (bits * i)]⟩ := by
  rw [varintLoop]
  simp only [goes, last, ne_eq, not_false_eq_true, if_true]

theorem varintLoop_continues (goes : byteAt data (cost_len + i) &&& 0x80 ≠ 0)
    (more : ¬ avail ≤ i + 1) (val : BitVec w) :
    varintLoop bits signed data cost_len avail i val =
      (varintLoop bits signed data cost_len avail (i + 1)
        (orGroup bits signed (byteAt data (cost_len + i)) (bits * i) val)).after
        [.read (cost_len + i) (cost_len + i + 1), .shift (bits * i)] := by
  rw [varintLoop]
  simp only [goes, more, ne_eq, not_false_eq_true, if_true, if_false]

end Loop

/-- The loop reads groups that lie in the buffer. -/
theorem varintLoop_returns {bits : Nat} (signed : Bool) {w : Nat} (le : w ≤ 64)
    {n : Nat} {bs : List UInt8} (h : Groups bits n bs) (front q : List UInt8)
    (cost_len i avail : Nat) (at_ : front.length = cost_len + i)
    (room : i + bs.length ≤ avail) (val : BitVec w) :
    (varintLoop bits signed (front ++ (bs ++ q)) cost_len avail i val).Returns
      (val ||| BitVec.ofNat w (n <<< (bits * i))) (cost_len + i + bs.length) := by
  induction h generalizing front i val with
  | @last n b group stop =>
      have byte : byteAt (front ++ ([b] ++ q)) (cost_len + i) = b := byteAt_here at_ b q
      have small : n < 2 ^ bits := group ▸ Nat.mod_lt _ (Nat.two_pow_pos bits)
      have none_ : n >>> bits = 0 := by
        rw [Nat.shiftRight_eq_div_pow]
        exact Nat.div_eq_of_lt small
      have whole := orGroup_or signed le val (k := bits * i)
        (group.trans (Nat.mod_eq_of_lt small).symm)
      rw [none_, Nat.zero_shiftLeft, BitVec.or_zero] at whole
      rw [varintLoop_stops (by rw [byte]; exact stop), byte, whole]
      exact ⟨rfl, rfl, rfl⟩
  | @more n b bs group goes rest ih =>
      have byte : byteAt (front ++ (b :: bs ++ q)) (cost_len + i) = b := byteAt_here at_ b (bs ++ q)
      have some_ := List.length_pos_iff.mpr rest.ne_nil
      rw [List.length_cons] at room ⊢
      have move : front ++ (b :: bs ++ q) = (front ++ [b]) ++ (bs ++ q) := by simp
      have next := ih (front ++ [b]) (i + 1)
        (by rw [List.length_append, at_]; rfl) (by omega)
        (orGroup bits signed b (bits * i) val)
      rw [Nat.mul_succ, orGroup_or signed le val group, ← move] at next
      have stop : cost_len + i + (bs.length + 1) = cost_len + (i + 1) + bs.length := by omega
      rw [varintLoop_continues (by rw [byte]; exact goes) (by omega), byte, stop]
      exact next

theorem sub64_of_lt {a b : Nat} (le : b ≤ a) (small : a < 2 ^ 64) : sub64 a b = a - b := by
  unfold sub64
  omega

theorem sub64_eq {a b : Nat} (le : b ≤ a) (small : a ≤ maxSize) : sub64 a b = a - b :=
  sub64_of_lt le (lt_of_le_of_lt small (by decide))

theorem add64_eq {a b : Nat} (small : a + b ≤ maxSize + 16) : add64 a b = a + b :=
  Nat.mod_eq_of_lt (lt_of_le_of_lt small (by decide))

/-- shine_serial_decode_size reads back what shine_serial_encode_size wrote. -/
theorem decodeSize_returns {n : Nat} (small : n < 2 ^ 64) (p q : List UInt8)
    (total : (p ++ (sizeBytes n ++ q)).length ≤ maxSize) :
    (decodeSize (p ++ (sizeBytes n ++ q)) p.length).Returns n (p.length + (sizeBytes n).length) := by
  have groups := @groups_groupBytes 7 (by decide) (by decide) n
  have some_ := List.length_pos_iff.mpr (sizeBytes_ne_nil n)
  have avail := sub64_eq (a := (p ++ (sizeBytes n ++ q)).length) (b := p.length)
    (by rw [List.length_append]; omega) total
  have room : 0 + (groupBytes 7 n).length ≤
      sub64 (p ++ (sizeBytes n ++ q)).length p.length := by
    rw [avail]
    simp only [List.length_append, sizeBytes]
    omega
  have loop := (varintLoop_returns false (Nat.le_refl 64) groups p q p.length 0
    (sub64 (p ++ (sizeBytes n ++ q)).length p.length) rfl room (0 : BitVec 64)).map
    (f := BitVec.toNat)
  have value : ((0 : BitVec 64) ||| BitVec.ofNat 64 (n <<< (7 * 0))).toNat = n := by
    rw [Nat.mul_zero, Nat.shiftLeft_zero, BitVec.ofNat_eq_ofNat, BitVec.zero_or,
      BitVec.toNat_ofNat]
    exact Nat.mod_eq_of_lt small
  rw [value] at loop
  simp only [List.length_append] at total
  rw [decodeSize, add64_eq (by omega), if_neg (by simp only [List.length_append]; omega)]
  exact loop

/-- shine_serial_decode_integer reads back what shine_serial_encode_integer wrote. -/
theorem decodeInteger_returns (signed : Bool) {w : Nat} (le : w ≤ 64) (x y : BitVec w)
    (p q : List UInt8) (total : (p ++ (integerBytes signed y ++ q)).length < 2 ^ 64) :
    (decodeInteger signed (p ++ (integerBytes signed y ++ q)) x p.length).Returns y
      (p.length + (integerBytes signed y).length) := by
  have groups := groups_integerBytes signed y
  have some_ := List.length_pos_iff.mpr groups.ne_nil
  have avail := sub64_of_lt (a := (p ++ (integerBytes signed y ++ q)).length) (b := p.length)
    (by rw [List.length_append]; omega) total
  have room : 0 + (integerBytes signed y).length ≤
      sub64 (p ++ (integerBytes signed y ++ q)).length p.length := by
    rw [avail]
    simp only [List.length_append]
    omega
  have loop := varintLoop_returns signed le groups p q p.length 0
    (sub64 (p ++ (integerBytes signed y ++ q)).length p.length) rfl room (0 : BitVec w)
  have value : (0 : BitVec w) ||| BitVec.ofNat w ((magnitude signed y).toNat <<< (6 * 0)) =
      if negative signed y then -y else y := by
    rw [Nat.mul_zero, Nat.shiftLeft_zero, BitVec.ofNat_eq_ofNat, BitVec.zero_or,
      BitVec.ofNat_toNat, truncate_magnitude signed le]
  rw [value] at loop
  have sign : byteAt (p ++ (integerBytes signed y ++ q)) p.length &&& 0x40 > 0 ↔
      negative signed y = true := by
    rw [← Nat.add_zero p.length, byteAt_append]
    exact sign_integerBytes signed y q
  rw [decodeInteger, if_neg (by rw [avail]; simp only [List.length_append]; omega)]
  refine loop.andThen ⟨rfl, ?_, rfl⟩
  simp only [sign]
  split
  · exact BitVec.neg_neg
  · rfl

end HZRobot.Serial
