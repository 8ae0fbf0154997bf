import Mathlib.Data.Nat.Bitwise

/-!
Numbers written in groups of bits, the low groups first, one group to a byte. The high
bit of a byte says that another one follows; bits between the group and the high bit
are free.
-/

namespace HZRobot.Varint

/-- These bytes write this number in groups of so many bits. -/
inductive Groups (bits : Nat) : Nat → List UInt8 → Prop
  | last {n : Nat} {b : UInt8} (group : b.toNat % 2 ^ bits = n) (stop : b &&& 0x80 = 0) :
      Groups bits n [b]
  | more {n : Nat} {b : UInt8} {bs : List UInt8} (group : b.toNat % 2 ^ bits = n % 2 ^ bits)
      (goes : b &&& 0x80 ≠ 0) (rest : Groups bits (n >>> bits) bs) : Groups bits n (b :: bs)

variable {bits n : Nat} {bs : List UInt8}

theorem Groups.ne_nil (h : Groups bits n bs) : bs ≠ [] := by
  cases h with
  | last => exact List.cons_ne_nil _ _
  | more => exact List.cons_ne_nil _ _

/-- Every byte but the last announces another one. -/
theorem Groups.continued (h : Groups bits n bs) {s : List UInt8} (cut : s <+: bs)
    (proper : s ≠ bs) : ∀ b ∈ s, b &&& 0x80 ≠ 0 := by
  induction h generalizing s with
  | last =>
      cases s with
      | nil => simp
      | cons b s =>
          obtain ⟨rfl, behind⟩ := List.cons_prefix_cons.mp cut
          exact absurd (by rw [List.prefix_nil.mp behind]) proper
  | more group goes rest ih =>
      cases s with
      | nil => simp
      | cons b s =>
          obtain ⟨rfl, behind⟩ := List.cons_prefix_cons.mp cut
          intro c mem
          rcases List.mem_cons.mp mem with rfl | later
          · exact goes
          · exact ih behind (fun same => proper (by rw [same])) c later

/-- The bytes that announce another one, whatever follows the last. -/
theorem Groups.announcing (h : Groups bits n bs) (q : List UInt8) :
    ((bs ++ q).takeWhile fun b => b &&& 0x80 ≠ 0).length + 1 = bs.length := by
  induction h with
  | @last n b group stop =>
      rw [List.singleton_append, List.takeWhile_cons_of_neg (by simpa using stop)]
      rfl
  | @more n b bs group goes rest ih =>
      rw [List.cons_append, List.takeWhile_cons_of_pos (by simpa using goes), List.length_cons, ih]
      rfl

/-- The shortest bytes for a number. -/
def groupBytes (bits n : Nat) : List UInt8 :=
  if _h : 0 < bits ∧ n >>> bits ≠ 0 then
    (UInt8.ofNat (n % 2 ^ bits) ||| 0x80) :: groupBytes bits (n >>> bits)
  else [UInt8.ofNat (n % 2 ^ bits)]
termination_by n
decreasing_by
  have positive : n ≠ 0 := fun zero => _h.2 (by simp [zero])
  rw [Nat.shiftRight_eq_div_pow]
  exact Nat.div_lt_self (Nat.pos_of_ne_zero positive) (Nat.one_lt_two_pow (by omega))

theorem groupBytes_last (h : n >>> bits = 0) :
    groupBytes bits n = [UInt8.ofNat (n % 2 ^ bits)] := by
  rw [groupBytes, dif_neg (by simp [h])]

theorem groupBytes_more (pos : 0 < bits) (h : n >>> bits ≠ 0) :
    groupBytes bits n = (UInt8.ofNat (n % 2 ^ bits) ||| 0x80) :: groupBytes bits (n >>> bits) := by
  rw [groupBytes, dif_pos ⟨pos, h⟩]

theorem groupBytes_length_le {k : Nat} (small : n < 2 ^ (bits * (k + 1))) :
    (groupBytes bits n).length ≤ k + 1 := by
  induction k generalizing n with
  | zero =>
      rw [Nat.zero_add, Nat.mul_one] at small
      have last : n >>> bits = 0 := by
        rw [Nat.shiftRight_eq_div_pow]
        exact Nat.div_eq_of_lt small
      rw [groupBytes_last last, List.length_singleton]
  | succ k ih =>
      rw [groupBytes]
      split
      · rw [List.length_cons]
        refine Nat.succ_le_succ (ih ?_)
        rw [Nat.shiftRight_eq_div_pow]
        refine Nat.div_lt_of_lt_mul ?_
        rw [← Nat.pow_add, Nat.add_comm bits, ← Nat.mul_succ]
        exact small
      · exact Nat.le_add_left _ _

theorem group_lt (le : bits ≤ 7) (n : Nat) : n % 2 ^ bits < 128 :=
  lt_of_lt_of_le (Nat.mod_lt _ (Nat.two_pow_pos bits)) (Nat.pow_le_pow_right (by decide) le)

/-- The bits of a group stay when higher ones are set. -/
theorem toNat_or_mod {a b : UInt8} (high : b.toNat % 2 ^ bits = 0) :
    (a ||| b).toNat % 2 ^ bits = a.toNat % 2 ^ bits := by
  apply Nat.eq_of_testBit_eq
  intro i
  have clear : (decide (i < bits) && b.toNat.testBit i) = false := by
    rw [← Nat.testBit_mod_two_pow, high, Nat.zero_testBit]
  rw [Nat.testBit_mod_two_pow, Nat.testBit_mod_two_pow, UInt8.toNat_or, Nat.testBit_or]
  cases inside : decide (i < bits) with
  | true =>
      rw [inside, Bool.true_and] at clear
      rw [clear, Bool.or_false]
  | false => rfl

theorem high_mod (le : bits ≤ 7) : (0x80 : UInt8).toNat % 2 ^ bits = 0 :=
  Nat.mod_eq_zero_of_dvd (Nat.pow_dvd_pow 2 le : 2 ^ bits ∣ 2 ^ 7)

theorem groups_groupBytes (pos : 0 < bits) (le : bits ≤ 7) (n : Nat) :
    Groups bits n (groupBytes bits n) := by
  induction n using Nat.strongRecOn with
  | ind n ih =>
      have small := group_lt le n
      have group : (UInt8.ofNat (n % 2 ^ bits)).toNat = n % 2 ^ bits := by
        rw [UInt8.toNat_ofNat']
        exact Nat.mod_eq_of_lt (by omega)
      by_cases last : n >>> bits = 0
      · rw [groupBytes_last last]
        refine .last ?_ ?_
        · rw [group, Nat.mod_mod]
          rw [Nat.shiftRight_eq_div_pow, Nat.div_eq_zero_iff] at last
          exact Nat.mod_eq_of_lt (last.resolve_left (Nat.two_pow_pos bits).ne')
        · have all : ∀ m < 128, UInt8.ofNat m &&& 0x80 = 0 := by decide
          exact all _ small
      · rw [groupBytes_more pos last]
        refine .more ?_ ?_ (ih _ ?_)
        · rw [toNat_or_mod (high_mod le), group, Nat.mod_mod]
        · have all : ∀ m < 128, (UInt8.ofNat m ||| 0x80) &&& 0x80 ≠ 0 := by decide
          exact all _ small
        · rw [Nat.shiftRight_eq_div_pow] at last ⊢
          have positive : n ≠ 0 := fun zero => last (by simp [zero])
          exact Nat.div_lt_self (Nat.pos_of_ne_zero positive) (Nat.one_lt_two_pow (by omega))

end HZRobot.Varint
