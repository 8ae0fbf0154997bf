import HZRobot.SelfDelimiting
import HZRobot.SerialTargets

/-!
Records cut short. Every byte of a varint but the last announces another one, so a cut
inside the length is seen there; behind the length the frame is checked before any
field is written.
-/

namespace HZRobot.Serial

open Varint

section Varint

variable {bits : Nat} {signed : Bool} {w : Nat}

/-- The loop runs out of bytes when all of them announce another one. -/
theorem varintLoop_cut (rest front : List UInt8) (cost_len i : Nat)
    (at_ : front.length = cost_len + i) (some_ : rest ≠ []) (goes : ∀ b ∈ rest, b &&& 0x80 ≠ 0)
    (val : BitVec w) :
    (varintLoop bits signed (front ++ rest) cost_len (i + rest.length) i val).status = .failed := by
  induction rest generalizing front i val with
  | nil => exact absurd rfl some_
  | cons b rest ih =>
      have byte : byteAt (front ++ (b :: rest)) (cost_len + i) = b := byteAt_here at_ b rest
      have more : byteAt (front ++ (b :: rest)) (cost_len + i) &&& 0x80 ≠ 0 := by
        rw [byte]
        exact goes b List.mem_cons_self
      by_cases last : rest = []
      · rw [varintLoop_fails more (by rw [last, List.length_singleton])]
      · have left := List.length_pos_iff.mpr last
        have next := ih (front ++ [b]) (i + 1) (by rw [List.length_append, at_]; rfl) last
          (fun c mem => goes c (List.mem_cons_of_mem _ mem))
          (orGroup bits signed b (bits * i) val)
        have count : i + (b :: rest).length = i + 1 + rest.length := by
          rw [List.length_cons]
          omega
        rw [List.append_assoc, List.singleton_append] at next
        rw [varintLoop_continues more (by rw [List.length_cons]; omega), byte, count]
        exact next

end Varint

/-- A length cut short is refused. -/
theorem decodeSize_cut {n : Nat} {s : List UInt8} (cut : s <+: sizeBytes n)
    (proper : s ≠ sizeBytes n) (some_ : s ≠ []) (p : List UInt8)
    (fits : (p ++ s).length < 2 ^ 64) : (decodeSize (p ++ s) p.length).status = .failed := by
  have left := List.length_pos_iff.mpr some_
  rw [List.length_append] at fits
  have avail : sub64 (p ++ s).length p.length = 0 + s.length := by
    rw [List.length_append, sub64_of_lt (Nat.le_add_right _ _) fits, Nat.add_sub_cancel_left,
      Nat.zero_add]
  have start : ¬ (p ++ s).length < add64 p.length 1 := by
    rw [List.length_append, add64, Nat.mod_eq_of_lt (by omega)]
    omega
  have goes := (groups_groupBytes (by decide) (by decide) n).continued cut proper
  rw [decodeSize, if_neg start, avail]
  exact varintLoop_cut s p p.length 0 rfl some_ goes 0

/-- A record cut short is refused and leaves the target alone. -/
theorem decodeStruct_cut {α : Type} {decodeFields : Nat → Nat → α → Nat → Decoded Event α}
    {body s : List UInt8} (cut : s <+: sizeBytes body.length ++ body)
    (proper : s ≠ sizeBytes body.length ++ body) (some_ : s ≠ []) (target : α) (p : List UInt8)
    (fits : (p ++ s).length ≤ maxSize) (small : body.length < 2 ^ 64) :
    (decodeStruct decodeFields (p ++ s) target p.length).status = .failed ∧
      (decodeStruct decodeFields (p ++ s) target p.length).value = target := by
  have total : (p ++ s).length < 2 ^ 64 := lt_of_le_of_lt fits (by decide)
  have left := List.length_pos_iff.mpr some_
  have within : sub64 (p ++ s).length p.length ≠ 0 := by
    rw [sub64_of_lt (by rw [List.length_append]; omega) total, List.length_append]
    omega
  rw [decodeStruct, if_neg within]
  rcases SelfDelimiting.isPrefix_append cut with inside | ⟨t, rfl, behind⟩
  · have stop := decodeSize_cut inside.1 inside.2 some_ p total
    rw [Decoded.andThen, if_neg (by rw [stop]; decide)]
    exact ⟨stop, rfl⟩
  · have shorter : t.length < body.length :=
      lt_of_le_of_ne behind.length_le fun same => proper (by rw [behind.eq_of_length same])
    obtain ⟨ok, size, pos⟩ := decodeSize_returns small p t fits
    have avail : sub64 (p ++ (sizeBytes body.length ++ t)).length
        (p.length + (sizeBytes body.length).length) = t.length := by
      simp only [List.length_append] at total ⊢
      rw [sub64_of_lt (by omega) (by omega)]
      omega
    rw [Decoded.andThen, if_pos ok, size, pos, if_neg (by omega),
      if_pos (by rw [avail]; exact shorter)]
    exact ⟨rfl, rfl⟩

/-- A non-empty proper prefix of an encoded record. -/
theorem truncated_rejected (order : Iteration) (f : Fields) (x target : FieldVals f)
    (s : List UInt8) (cut : s <+: wire order (.struct f) x) (proper : s ≠ wire order (.struct f) x)
    (some_ : s ≠ []) (fits : (wire order (.struct f) x).length ≤ maxSize) :
    (decodeField s (.struct f) target 0).status = .failed ∧
      (decodeField s (.struct f) target 0).value = target := by
  have room := le_trans cut.length_le fits
  rw [wire_struct] at cut proper fits
  rw [List.length_append] at fits
  have small : (encodeFields order f x []).length < 2 ^ 64 :=
    lt_of_le_of_lt (by omega : _ ≤ maxSize) (by decide)
  exact decodeStruct_cut cut proper some_ target []
    (by rw [List.nil_append]; exact room) small

theorem pair_truncated :
    (decodeField [4, 0x45, 2] pairType (fresh pairType) 0).status = .failed ∧
      (decodeField [4, 0x45, 2] pairType (fresh pairType) 0).value = fresh pairType := by
  have bytes : wire someOrder (.struct (.cons (.integer .int) (.one .string))) pairValue =
      [4, 0x45, 2, 104, 105] := wire_pairValue
  exact truncated_rejected someOrder _ pairValue (fresh pairType) [4, 0x45, 2]
    (by rw [bytes]; decide) (by rw [bytes]; decide) (by decide) (by rw [bytes]; decide)

end HZRobot.Serial
