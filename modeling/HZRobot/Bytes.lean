import Mathlib.Data.List.Infix
import Mathlib.Data.List.Basic
import Mathlib.Data.Nat.Digits.Defs
import Mathlib.Data.List.Forall2
import Mathlib.Data.List.Nodup
import Mathlib.Data.List.TakeWhile
import Mathlib.Data.List.Chain
import Mathlib.Tactic.Ring
import Mathlib.Tactic.Linarith
import Mathlib.Tactic.NormNum
import Mathlib.Tactic.Tauto
import Mathlib.Data.Fintype.Basic
import Mathlib.Data.FinEnum
import Mathlib.Data.Finset.Basic

/-!
Byte strings. A std::string is the list of its bytes; what the C library sees
through c_str is the part before the first NUL. Numbers are printed in decimal
as printf does.
-/

namespace HZRobot

/-- What holds of the 256 numbers holds of every byte. -/
theorem forall_byte {P : UInt8 → Prop} (h : ∀ n < 256, P (UInt8.ofNat n)) (c : UInt8) : P c := by
  have byte := h c.toNat c.toNat_lt
  rwa [UInt8.ofNat_toNat] at byte

/-- The bytes of an ASCII text. -/
def bytes (s : String) : List UInt8 := s.toList.map Char.toUInt8

def crlf : List UInt8 := [13, 10]

/-- What a C function reads through c_str. -/
def cstr (s : List UInt8) : List UInt8 := s.takeWhile (· ≠ 0)

theorem cstr_eq_self {s : List UInt8} (h : 0 ∉ s) : cstr s = s := by
  apply List.takeWhile_eq_self_iff.mpr
  intro c hc
  exact decide_eq_true fun zero => h (zero ▸ hc)

theorem zero_not_mem_cstr (s : List UInt8) : 0 ∉ cstr s := by
  intro h
  simpa using List.mem_takeWhile_imp h

theorem cstr_eq_self_iff {s : List UInt8} : cstr s = s ↔ 0 ∉ s := by
  refine ⟨fun h => ?_, cstr_eq_self⟩
  rw [← h]
  exact zero_not_mem_cstr s

theorem cstr_length_le (s : List UInt8) : (cstr s).length ≤ s.length :=
  (List.takeWhile_prefix _).length_le

theorem cstr_append (s t : List UInt8) : ∃ u, cstr (s ++ t) = cstr s ++ u := by
  rw [cstr, List.takeWhile_append]
  split
  · case isTrue whole =>
      refine ⟨cstr t, ?_⟩
      rw [cstr, List.IsPrefix.eq_of_length (List.takeWhile_prefix _) whole]
      rfl
  · exact ⟨[], (List.append_nil _).symm⟩

/-- printf's %u and %lu. -/
def decimal (n : Nat) : List UInt8 := (Nat.toDigits 10 n).map Char.toUInt8

/-- printf's %d. -/
def signedDecimal (i : Int) : List UInt8 :=
  if i < 0 then 45 :: decimal i.natAbs else decimal i.natAbs

theorem decimal_ne_nil (n : Nat) : decimal n ≠ [] := by
  simp [decimal]

theorem digit_of_isDigit {c : Char} (h : c.isDigit) : 48 ≤ c.toUInt8 ∧ c.toUInt8 ≤ 57 := by
  simp only [Char.isDigit, Bool.and_eq_true, decide_eq_true_eq] at h
  obtain ⟨low, high⟩ := h
  have hl : 48 ≤ c.val.toNat := UInt32.le_iff_toNat_le.mp low
  have hh : c.val.toNat ≤ 57 := UInt32.le_iff_toNat_le.mp high
  simp only [Char.toUInt8, UInt8.le_iff_toNat_le, UInt32.toNat_toUInt8]
  constructor
  · show 48 ≤ c.val.toNat % 256
    omega
  · show c.val.toNat % 256 ≤ 57
    omega

theorem decimal_digit {n : Nat} {b : UInt8} (h : b ∈ decimal n) : 48 ≤ b ∧ b ≤ 57 := by
  obtain ⟨c, hc, rfl⟩ := List.mem_map.mp h
  exact digit_of_isDigit (Nat.isDigit_of_mem_toDigits (by decide) (by decide) hc)

end HZRobot
