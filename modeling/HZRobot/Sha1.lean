import HZRobot.Blocks
import HZRobot.Simulation
import Mathlib.Algebra.Group.Nat.Defs

/-!
util/sha1.hpp. The object takes its message in over any number of calls of Input; Result
pads it and closes the object. Every run of calls is that of an object that only remembers
the message, as long as the message stays below 2^64 bits.
-/

namespace HZRobot.Sha1

open Blocks

section Compress

/-- CircularShift. -/
def circularShift (bits : UInt32) (word : UInt32) : UInt32 :=
  (word <<< bits) ||| (word >>> (32 - bits))

/-- H, or the word buffers A to E. -/
structure Words where
  A : UInt32
  B : UInt32
  C : UInt32
  D : UInt32
  E : UInt32
  deriving DecidableEq

def word (block : List UInt8) (t : Nat) : UInt32 :=
  (block.getD (t * 4) 0).toUInt32 <<< 24 ||| (block.getD (t * 4 + 1) 0).toUInt32 <<< 16 |||
    (block.getD (t * 4 + 2) 0).toUInt32 <<< 8 ||| (block.getD (t * 4 + 3) 0).toUInt32

/-- The word sequence W: sixteen words of the block, then sixty-four of the recurrence. -/
def sequence (block : List UInt8) : List UInt32 :=
  (List.range' 16 64).foldl
    (fun W t => W ++ [circularShift 1 (W.getD (t - 3) 0 ^^^ W.getD (t - 8) 0 ^^^
      W.getD (t - 14) 0 ^^^ W.getD (t - 16) 0)])
    ((List.range 16).map (word block))

/-- One turn of a loop; f is what the loop makes of B, C and D. -/
def turn (f : UInt32 → UInt32 → UInt32 → UInt32) (K : UInt32) (W : List UInt32) (s : Words)
    (t : Nat) : Words :=
  let temp := circularShift 5 s.A + f s.B s.C s.D + s.E + W.getD t 0 + K
  ⟨temp, s.A, circularShift 30 s.B, s.C, s.D⟩

/-- ProcessMessageBlock. -/
def processMessageBlock (H : Words) (block : List UInt8) : Words :=
  let W := sequence block
  let s := (List.range' 0 20).foldl
    (turn (fun B C D => (B &&& C) ||| (~~~B &&& D)) 0x5A827999 W) H
  let s := (List.range' 20 20).foldl (turn (fun B C D => B ^^^ C ^^^ D) 0x6ED9EBA1 W) s
  let s := (List.range' 40 20).foldl
    (turn (fun B C D => (B &&& C) ||| (B &&& D) ||| (C &&& D)) 0x8F1BBCDC W) s
  let s := (List.range' 60 20).foldl (turn (fun B C D => B ^^^ C ^^^ D) 0xCA62C1D6 W) s
  ⟨H.A + s.A, H.B + s.B, H.C + s.C, H.D + s.D, H.E + s.E⟩

end Compress

section Object

/-- SHA1. Message_Block are the bytes below Message_Block_Index: those above are written
before they are read. -/
structure Object where
  H : Words
  Length_Low : UInt32
  Length_High : UInt32
  Message_Block : List UInt8
  fits : Message_Block.length < 64
  Computed : Bool
  Corrupted : Bool

def H0 : Words := ⟨0x67452301, 0xEFCDAB89, 0x98BADCFE, 0x10325476, 0xC3D2E1F0⟩

/-- Reset, and the constructor. -/
def reset : Object where
  H := H0
  Length_Low := 0
  Length_High := 0
  Message_Block := []
  fits := by decide
  Computed := false
  Corrupted := false

/-- The bytes of the message behind the new one, with the block processed when it is full. -/
def Object.store (s : Object) (b : UInt8) : Object :=
  if full : (s.Message_Block ++ [b]).length = 64 then
    { s with H := processMessageBlock s.H (s.Message_Block ++ [b]), Message_Block := [],
             fits := by decide }
  else
    { s with Message_Block := s.Message_Block ++ [b],
             fits := by have := s.fits; simp only [List.length_append, List.length_singleton] at *; omega }

/-- The body of Input's loop. -/
def Object.inputByte (s : Object) (b : UInt8) : Object :=
  let low := s.Length_Low + 8
  let high := if low = 0 then s.Length_High + 1 else s.Length_High
  let corrupted := s.Corrupted || (low = 0 && high = 0)
  { s.store b with Length_Low := low, Length_High := high, Corrupted := corrupted }

def Object.inputLoop (s : Object) : List UInt8 → Object
  | [] => s
  | b :: message => if s.Corrupted then s else (s.inputByte b).inputLoop message

/-- Input. -/
def Object.input (s : Object) (message : List UInt8) : Object :=
  if message = [] then s
  else if s.Computed || s.Corrupted then { s with Corrupted := true }
  else s.inputLoop message

/-- The last eight octets of the padded message. -/
def lengthOctets (high low : UInt32) : List UInt8 :=
  [(high >>> 24).toUInt8, (high >>> 16).toUInt8, (high >>> 8).toUInt8, high.toUInt8,
    (low >>> 24).toUInt8, (low >>> 16).toUInt8, (low >>> 8).toUInt8, low.toUInt8]

/-- PadMessage. -/
def Object.padMessage (s : Object) : Object :=
  let index := s.Message_Block.length
  let octets := lengthOctets s.Length_High s.Length_Low
  if 55 < index then
    let H := processMessageBlock s.H (s.Message_Block ++ 0x80 :: List.replicate (63 - index) 0)
    { s with H := processMessageBlock H (List.replicate 56 0 ++ octets), Message_Block := [],
             fits := by decide }
  else
    { s with H := processMessageBlock s.H
               (s.Message_Block ++ 0x80 :: List.replicate (55 - index) 0 ++ octets),
             Message_Block := [], fits := by decide }

/-- Result, with the digest it writes when it returns true. -/
def Object.result (s : Object) : Object × Option Words :=
  if s.Corrupted then (s, none)
  else
    let s := if s.Computed then s else { s.padMessage with Computed := true }
    (s, some s.H)

end Object

section Calls

/-- The public calls; every form of Input and of operator<< is one with the bytes it
passes on. -/
inductive Call where
  | input (message : List UInt8)
  | result
  | reset

/-- One call, and the digest that Result gave. -/
def Object.call (s : Object) : Call → Object × Option (Option Words)
  | .input message => (s.input message, none)
  | .result => (s.result.1, some s.result.2)
  | .reset => (Sha1.reset, none)

end Calls

section Message

/-- The 64-bit number, most significant byte first. -/
def octets64 (n : Nat) : List UInt8 :=
  [n / 2 ^ 56, n / 2 ^ 48, n / 2 ^ 40, n / 2 ^ 32, n / 2 ^ 24, n / 2 ^ 16, n / 2 ^ 8, n].map
    UInt8.ofNat

/-- What is put behind a message of that many bytes. -/
def padding (size : Nat) : List UInt8 :=
  0x80 :: List.replicate ((119 - size % 64) % 64) 0 ++ octets64 (8 * size)

def digest (message : List UInt8) : Words :=
  (whole 64 (message ++ padding message.length)).foldl processMessageBlock H0

/-- What the object is for: it remembers the message until Result is asked for. -/
inductive Stage where
  | taking (message : List UInt8)
  | given (message : List UInt8)
  | corrupted

def Stage.call : Stage → Call → Stage × Option (Option Words)
  | _, .reset => (.taking [], none)
  | .taking m, .input bs =>
      (if m.length + bs.length < 2 ^ 61 then .taking (m ++ bs) else .corrupted, none)
  | .taking m, .result => (.given m, some (some (digest m)))
  | .given m, .input bs => (if bs = [] then .given m else .corrupted, none)
  | .given m, .result => (.given m, some (some (digest m)))
  | .corrupted, .input _ => (.corrupted, none)
  | .corrupted, .result => (.corrupted, some none)

end Message

section Simulation

def Represents (s : Object) : Stage → Prop
  | .taking m =>
      s.Corrupted = false ∧ s.Computed = false ∧ m.length < 2 ^ 61 ∧
        (s.H, s.Message_Block) = absorb 64 processMessageBlock (H0, []) m ∧
        s.Length_High.toNat * 2 ^ 32 + s.Length_Low.toNat = 8 * m.length
  | .given m => s.Corrupted = false ∧ s.Computed = true ∧ s.H = digest m
  | .corrupted => s.Corrupted = true

theorem represents_reset : Represents reset (.taking []) :=
  ⟨rfl, rfl, Nat.two_pow_pos 61, (absorb_nil (s := (H0, [])) (Nat.zero_lt_succ 63)).symm, rfl⟩

@[simp] theorem store_flags (s : Object) (b : UInt8) :
    (s.store b).Computed = s.Computed ∧ (s.store b).Corrupted = s.Corrupted := by
  rw [Object.store]
  split <;> exact ⟨rfl, rfl⟩

theorem store_absorb (s : Object) (b : UInt8) : ((s.store b).H, (s.store b).Message_Block) =
    absorb 64 processMessageBlock (s.H, s.Message_Block) [b] := by
  rw [absorb_one (by decide) s.fits, Object.store]
  simp only [List.length_append, List.length_singleton]
  split <;> rfl

private theorem word_zero (w : UInt32) : w = 0 ↔ w.toNat = 0 := by
  rw [← UInt32.toNat_inj]
  rfl

/-- The two counters, one byte on. -/
theorem counters_add {low high : UInt32} {n : Nat}
    (h : high.toNat * 2 ^ 32 + low.toNat = 8 * n) (small : n + 1 < 2 ^ 61) :
    (if low + 8 = 0 then high + 1 else high).toNat * 2 ^ 32 + (low + 8).toNat = 8 * (n + 1) := by
  have low_bound := low.toNat_lt
  have low_add : (low + 8).toNat = (low.toNat + 8) % 2 ^ 32 := UInt32.toNat_add low 8
  have high_add : (high + 1).toNat = (high.toNat + 1) % 2 ^ 32 := UInt32.toNat_add high 1
  by_cases wrapped : low + 8 = 0
  · have zero := (word_zero _).mp wrapped
    have room : high.toNat + 1 < 2 ^ 32 := by omega
    have carry : low.toNat + 8 = 2 ^ 32 := by omega
    rw [if_pos wrapped, high_add, Nat.mod_eq_of_lt room, zero]
    calc (high.toNat + 1) * 2 ^ 32 + 0
        = high.toNat * 2 ^ 32 + (low.toNat + 8) := by rw [carry, Nat.add_zero, Nat.add_one_mul]
      _ = 8 * (n + 1) := by rw [← Nat.add_assoc, h, Nat.mul_add]
  · have some_bit := mt (word_zero _).mpr wrapped
    rw [if_neg wrapped]
    omega

/-- They hold 64 bits, and both are zero only when these overflow. -/
theorem counters_zero {low high : UInt32} {n : Nat}
    (h : high.toNat * 2 ^ 32 + low.toNat = 8 * n) (bound : n < 2 ^ 61) :
    (low + 8 = 0 ∧ high + 1 = 0) ↔ ¬ n + 1 < 2 ^ 61 := by
  have low_bound := low.toNat_lt
  have low_add : (low + 8).toNat = (low.toNat + 8) % 2 ^ 32 := UInt32.toNat_add low 8
  have high_add : (high + 1).toNat = (high.toNat + 1) % 2 ^ 32 := UInt32.toNat_add high 1
  rw [word_zero, word_zero]
  omega

theorem inputByte_corrupted (s : Object) (b : UInt8) : (s.inputByte b).Corrupted = true ↔
    s.Corrupted = true ∨ s.Length_Low + 8 = 0 ∧ s.Length_High + 1 = 0 := by
  simp only [Object.inputByte, Bool.or_eq_true, Bool.and_eq_true, decide_eq_true_eq]
  refine or_congr_right (and_congr_right fun wrapped => ?_)
  rw [if_pos wrapped]

theorem represents_inputByte {s : Object} {m : List UInt8} (h : Represents s (.taking m))
    (b : UInt8) : Represents (s.inputByte b)
      (if m.length + 1 < 2 ^ 61 then .taking (m ++ [b]) else .corrupted) := by
  obtain ⟨clean, fresh, bound, held, counted⟩ := h
  have full := (inputByte_corrupted s b).trans (or_congr_right (counters_zero counted bound))
  rw [clean, Bool.false_eq_true, false_or] at full
  split
  · case isTrue small =>
      refine ⟨?_, (store_flags s b).1.trans fresh, ?_, ?_, ?_⟩
      · exact Bool.eq_false_iff.mpr fun corrupted => full.mp corrupted small
      · rw [List.length_append]
        exact small
      · refine (store_absorb s b).trans ?_
        rw [held, absorb_absorb (by decide)]
      · rw [List.length_append]
        exact counters_add counted small
  · case isFalse large => exact full.mpr large

theorem inputLoop_corrupted {s : Object} (h : s.Corrupted = true) (bs : List UInt8) :
    (s.inputLoop bs).Corrupted = true := by
  cases bs with
  | nil => exact h
  | cons b bs => rw [Object.inputLoop, if_pos h]; exact h

theorem represents_inputLoop {s : Object} {m : List UInt8} (h : Represents s (.taking m))
    (bs : List UInt8) : Represents (s.inputLoop bs)
      (if m.length + bs.length < 2 ^ 61 then .taking (m ++ bs) else .corrupted) := by
  induction bs generalizing s m with
  | nil =>
      rw [List.append_nil, if_pos (by simpa using h.2.2.1)]
      exact h
  | cons b bs ih =>
      have clean : ¬ s.Corrupted = true := by simp [h.1]
      rw [Object.inputLoop, if_neg clean]
      have step := represents_inputByte h b
      split at step
      · have rest := ih step
        rw [List.length_append, List.append_assoc] at rest
        have size : m.length + [b].length + bs.length = m.length + (b :: bs).length := by
          simp only [List.length_cons, List.length_nil]
          omega
        rwa [size] at rest
      · case isFalse large =>
          rw [if_neg (by rw [List.length_cons]; omega)]
          exact inputLoop_corrupted step bs

private theorem octet_of_word (w : UInt32) (k : UInt32) (hk : k.toNat < 32) :
    ((w >>> k).toUInt8).toNat = w.toNat / 2 ^ k.toNat % 256 := by
  rw [UInt32.toNat_toUInt8, UInt32.toNat_shiftRight, Nat.shiftRight_eq_div_pow,
    Nat.mod_eq_of_lt hk]

/-- The two counters as the last eight octets. -/
theorem lengthOctets_eq {high low : UInt32} {n : Nat}
    (h : high.toNat * 2 ^ 32 + low.toNat = n) : lengthOctets high low = octets64 n := by
  have low_bound := low.toNat_lt
  have h24 (w : UInt32) := octet_of_word w 24 (by decide)
  have h16 (w : UInt32) := octet_of_word w 16 (by decide)
  have h8 (w : UInt32) := octet_of_word w 8 (by decide)
  have h0 (w : UInt32) : w.toUInt8.toNat = w.toNat % 256 := UInt32.toNat_toUInt8 w
  simp only [UInt32.reduceToNat] at h24 h16 h8
  simp only [lengthOctets, octets64, List.map_cons, List.map_nil, List.cons.injEq, and_true,
    ← UInt8.toNat_inj, UInt8.toNat_ofNat', h24, h16, h8, h0]
  omega

theorem digest_eq {H : Words} {block m : List UInt8}
    (held : (H, block) = absorb 64 processMessageBlock (H0, []) m) :
    digest m = (whole 64 (block ++ padding m.length)).foldl processMessageBlock H := by
  have all : absorb 64 processMessageBlock (absorb 64 processMessageBlock (H0, []) m)
      (padding m.length) = absorb 64 processMessageBlock (H0, []) (m ++ padding m.length) :=
    absorb_absorb (Nat.zero_lt_succ 63) _ _ _
  rw [← held] at all
  exact (congrArg Prod.fst all).symm

theorem represents_padMessage {s : Object} {m : List UInt8} (h : Represents s (.taking m)) :
    s.padMessage.H = digest m := by
  obtain ⟨-, -, -, held, counted⟩ := h
  have index : s.Message_Block.length = m.length % 64 := by
    have size := congrArg (fun p => p.2.length) held
    simpa [absorb, rest_length] using size
  have octets := lengthOctets_eq counted
  have eight : (octets64 (8 * m.length)).length = 8 := rfl
  rw [digest_eq held, padding, ← index, Object.padMessage]
  have fits := s.fits
  dsimp only
  split
  · case isTrue late =>
      have zeros : (119 - s.Message_Block.length) % 64 = 63 - s.Message_Block.length + 56 := by
        omega
      have first : (s.Message_Block ++
          0x80 :: List.replicate (63 - s.Message_Block.length) 0).length = 64 := by
        simp only [List.length_append, List.length_cons, List.length_replicate]
        omega
      have second : (List.replicate 56 0 ++ octets64 (8 * m.length)).length = 64 := rfl
      have cut : s.Message_Block ++ (0x80 :: List.replicate ((119 - s.Message_Block.length) % 64) 0 ++
          octets64 (8 * m.length)) =
          (s.Message_Block ++ 0x80 :: List.replicate (63 - s.Message_Block.length) 0) ++
            (List.replicate 56 0 ++ octets64 (8 * m.length)) := by
        rw [zeros, List.replicate_add]
        simp only [List.append_assoc, List.cons_append]
      rw [cut, whole_append (by decide) ⟨1, first⟩, whole_single (by decide) first,
        whole_single (by decide) second, octets]
      rfl
  · case isFalse early =>
      have zeros : (119 - s.Message_Block.length) % 64 = 55 - s.Message_Block.length := by omega
      have all : (s.Message_Block ++ (0x80 :: List.replicate (55 - s.Message_Block.length) 0 ++
          octets64 (8 * m.length))).length = 64 := by
        simp only [List.length_append, List.length_cons, List.length_replicate, eight]
        omega
      rw [zeros, whole_single (by decide) all, octets, List.append_assoc]
      rfl

theorem represents_input {s : Object} {st : Stage} (h : Represents s st) (bs : List UInt8) :
    Represents (s.input bs) (st.call (.input bs)).1 := by
  rw [Object.input]
  split
  · case isTrue none =>
      subst none
      cases st with
      | taking m =>
          rw [Stage.call, List.append_nil, if_pos (by simpa using h.2.2.1)]
          exact h
      | given m => exact h
      | corrupted => exact h
  · case isFalse some_bytes =>
      cases st with
      | taking m =>
          rw [if_neg (by simp [h.1, h.2.1])]
          exact represents_inputLoop h bs
      | given m =>
          rw [if_pos (by simp [h.2.1]), Stage.call, if_neg some_bytes]
          rfl
      | corrupted =>
          have corrupted : s.Corrupted = true := h
          rw [if_pos (by simp [corrupted])]
          rfl

theorem represents_result {s : Object} {st : Stage} (h : Represents s st) :
    some s.result.2 = (st.call .result).2 ∧ Represents s.result.1 (st.call .result).1 := by
  cases st with
  | taking m =>
      have fresh : ¬ s.Computed = true := by simp [h.2.1]
      have clean : ¬ s.Corrupted = true := by simp [h.1]
      have padded := represents_padMessage h
      simp only [Object.result, if_neg clean, if_neg fresh, padded]
      refine ⟨rfl, ?_, rfl, rfl⟩
      rw [Object.padMessage]
      dsimp only
      split <;> exact h.1
  | given m =>
      have clean : ¬ s.Corrupted = true := by simp [h.1]
      simp only [Object.result, if_neg clean, if_pos h.2.1, h.2.2]
      exact ⟨rfl, h⟩
  | corrupted =>
      have corrupted : s.Corrupted = true := h
      rw [Object.result, if_pos corrupted]
      exact ⟨rfl, h⟩

theorem simulates : Simulates Object.call Stage.call Represents := by
  intro s st c h
  cases c with
  | input bs =>
      refine ⟨?_, represents_input h bs⟩
      cases st <;> rfl
  | result => exact represents_result h
  | reset => cases st <;> exact ⟨rfl, represents_reset⟩

/-- Whatever is called in whatever order, the answers of Result are those of the object
that remembers its message. -/
theorem answers_eq (calls : List Call) :
    outputs Object.call reset calls = outputs Stage.call (.taking []) calls :=
  simulates.outputs_eq represents_reset calls

end Simulation

end HZRobot.Sha1
