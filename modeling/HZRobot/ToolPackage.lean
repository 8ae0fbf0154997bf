import HZRobot.ToolSize

/-!
The header of a package: its length and its identifier, one behind the other. What
package_t::decode is given is the bytes from data on, so that data + cost_len and
len - cost_len are the ones behind the first length.
-/

namespace HZRobot.Tool

open Serial SelfDelimiting Varint

structure Package where
  length : BitVec 64 := 0
  identify : BitVec 64 := 0
  deriving DecidableEq, Repr

namespace Package

def encode (self : Package) : List UInt8 :=
  let ret := encodeSize [] self.length
  encodeSize ret self.identify

def decode (self : Package) (data : List UInt8) : Counted Package :=
  let first := decodeSize self.length data
  if first.count = 0 then ⟨0, { self with length := first.value }, first.log⟩
  else
    let second := decodeSize self.identify (data.drop first.count)
    let log := first.log ++ second.log.map (move first.count)
    if second.count = 0 then ⟨0, ⟨first.value, second.value⟩, log⟩
    else ⟨first.count + second.count, ⟨first.value, second.value⟩, log⟩

theorem encode_eq (x : Package) :
    x.encode = sizeBytes x.length.toNat ++ sizeBytes x.identify.toNat := by
  rw [encode, encodeSize_eq, encodeSize_eq, encodeSize_back, encodeSize_back, List.nil_append]

/-- package_t::decode is one reader behind the other. -/
theorem accepted_decode (self : Package) (data : List UInt8) :
    (self.decode data).accepted =
      (andThen (readSize self.length) (readSize self.identify) data).map fun r =>
        (⟨r.1.1, r.1.2⟩, r.2) := by
  rw [decode]
  by_cases first : (decodeSize self.length data).count = 0
  · rw [if_pos first, andThen_of_none (if_pos first)]
    rfl
  · rw [if_neg first, andThen_of_some (if_neg first)]
    by_cases second :
        (decodeSize self.identify (data.drop (decodeSize self.length data).count)).count = 0
    · rw [if_pos second, readSize, Counted.accepted, Counted.accepted, if_pos second]
      rfl
    · rw [if_neg second, readSize, Counted.accepted, Counted.accepted, if_neg second]
      exact if_neg (by simp [first])

/-- Headers say themselves where they end, whatever the target holds. -/
theorem delimits (self : Package) : Delimits (fun data => (self.decode data).accepted) encode := by
  have pair := (delimits_size (Nat.le_refl 64) self.length).andThen
    (delimits_size (Nat.le_refl 64) self.identify)
  constructor
  · intro x q
    have back := pair.back (x.length, x.identify) q
    rw [accepted_decode, encode_eq, back]
    rfl
  · intro x s part proper
    rw [encode_eq] at part proper
    have cut := pair.cut (a := (x.length, x.identify)) part proper
    rw [accepted_decode, cut]
    rfl

/-- Decoding a header, cut short or not, reads and shifts as it may. -/
theorem decode_defined (x self : Package) {data q : List UInt8} (part : data <+: x.encode ++ q) :
    Defined data (self.decode data).log := by
  rw [encode_eq, List.append_assoc] at part
  have here := decodeSize_defined self.length
    ((run_mono part).trans (run_sizeBytes x.length.isLt _))
  rw [decode]
  rcases isPrefix_append part with inside | ⟨v, rfl, behind⟩
  · have refused := (delimits_size (Nat.le_refl 64) self.length).cut inside.1 inside.2
    rw [if_pos (Counted.count_of_refused refused)]
    exact here
  · have accepted := (delimits_size (Nat.le_refl 64) self.length).back x.length v
    have count := (Counted.count_of_accepted accepted).1
    have took := List.length_pos_iff.mpr (sizeBytes_ne_nil x.length.toNat)
    have there := (decodeSize_defined self.identify
      ((run_mono behind).trans (run_sizeBytes x.identify.isLt _))).moved
        (sizeBytes x.length.toNat)
    rw [if_neg (by omega), count, List.drop_left]
    by_cases second : (decodeSize self.identify v).count = 0
    · rw [if_pos second]
      exact here.append there
    · rw [if_neg second]
      exact here.append there

end Package

/-- Both codecs of lengths are one, and package headers are self-delimiting. -/
theorem codecs_agree_headers_delimit :
    (∀ (n : BitVec 64) (buf : List UInt8),
      encodeSize buf n = Serial.encodeSize n.toNat buf true 0) ∧
    (∀ (p s : List UInt8) (val : BitVec 64), (p ++ s).length < 2 ^ 64 → p.length + 1 < 2 ^ 64 →
      ShortRuns s →
        Agree (decodeSize val s) (Serial.decodeSize (p ++ s) p.length) p.length ∧
        Defined s (decodeSize val s).log ∧
        Defined (p ++ s) (Serial.decodeSize (p ++ s) p.length).log) ∧
    (∀ (x self : Package) (q : List UInt8),
      (self.decode (x.encode ++ q)).count = x.encode.length ∧
      (self.decode (x.encode ++ q)).value = x ∧
      Defined (x.encode ++ q) (self.decode (x.encode ++ q)).log) ∧
    ∀ (x self : Package) (s : List UInt8), s <+: x.encode → s ≠ x.encode →
      (self.decode s).count = 0 ∧ Defined s (self.decode s).log := by
  refine ⟨fun n buf => encodeSize_eq buf n, ?_, ?_, ?_⟩
  · intro p s val fits cursor short
    have agree := decodeSize_agrees p s fits cursor val
    have defined_ := decodeSize_defined val short.run_le
    refine ⟨agree, defined_, ?_⟩
    rw [agree.log]
    exact (defined_.moved p).sizeAt _
  · intro x self q
    obtain ⟨count, value⟩ := Counted.count_of_accepted (self.delimits.back x q)
    exact ⟨count, value, Package.decode_defined x self (List.prefix_refl _)⟩
  · intro x self s part proper
    exact ⟨Counted.count_of_refused (self.delimits.cut part proper),
      Package.decode_defined x self (part.trans (List.prefix_append _ []))⟩

def smallPackage : Package := ⟨300, 7⟩

/-- After one byte, the length 300; and the header of a package cut inside its length. -/
theorem smallPackage_delimited :
    encodeSize [1] (300 : BitVec 64) = Serial.encodeSize 300 [1] true 0 ∧
    Agree (decodeSize 0 [0xAC, 2]) (Serial.decodeSize [1, 0xAC, 2] 1) 1 ∧
    (Package.decode {} (smallPackage.encode ++ [9])).value = smallPackage ∧
    (Package.decode {} [0xAC]).count = 0 := by
  obtain ⟨same, agree, back, cut⟩ := codecs_agree_headers_delimit
  have short : ShortRuns [0xAC, 2] := fun _ part _ => part.length_le.trans (by decide)
  have length : sizeBytes 300 = [0xAC, 2] := by
    rw [sizeBytes, groupBytes_more (by decide) (by decide), groupBytes_last (by decide)]
    rfl
  have identify : sizeBytes 7 = [7] := groupBytes_last (by decide)
  have bytes : smallPackage.encode = [0xAC, 2, 7] := by
    rw [Package.encode_eq]
    exact congrArg₂ (· ++ ·) length identify
  refine ⟨same 300 [1], (agree [1] [0xAC, 2] 0 (by decide) (by decide) short).1,
    (back smallPackage {} [9]).2.1, (cut smallPackage {} [0xAC] ?_ ?_).1⟩
  · rw [bytes]
    exact ⟨[2, 7], rfl⟩
  · rw [bytes]
    decide

end HZRobot.Tool
