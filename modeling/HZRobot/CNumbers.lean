import HZRobot.Bytes

/-!
The C library's number readers on a NUL-terminated text: strtol and strtoll
saturate at the 64-bit range, atoi truncates the result to 32 bits. A NUL is
neither blank nor digit, so reading stops there by itself.
-/

namespace HZRobot

def isSpace (c : UInt8) : Bool := c = 32 || (9 ≤ c && c ≤ 13)

def isDigit (c : UInt8) : Bool := 48 ≤ c && c ≤ 57

/-- isalnum in the C locale. -/
def isAlnum (c : UInt8) : Bool := isDigit c || (65 ≤ c && c ≤ 90) || (97 ≤ c && c ≤ 122)

def digitsValue (s : List UInt8) : Nat :=
  s.foldl (fun n c => 10 * n + (c.toNat - 48)) 0

/-- The unsigned number at the start of the text. -/
def leadingNumber (s : List UInt8) : Nat := digitsValue (s.takeWhile isDigit)

def strtoll (s : List UInt8) : Int :=
  let t := s.dropWhile isSpace
  if t.head? = some 45 then max (-2 ^ 63) (-(leadingNumber t.tail : Int))
  else if t.head? = some 43 then min (2 ^ 63 - 1) (leadingNumber t.tail : Int)
  else min (2 ^ 63 - 1) (leadingNumber t : Int)

/-- Conversion to a 32-bit int. -/
def toInt32 (i : Int) : Int := (i + 2 ^ 31) % 2 ^ 32 - 2 ^ 31

def atoi (s : List UInt8) : Int := toInt32 (strtoll s)

/-- string::to_uint64. -/
def toUint64 (s : List UInt8) : Nat := (strtoll s % 2 ^ 64).toNat

/-- Conversion to unsigned short. -/
def toUint16 (i : Int) : Nat := (i % 2 ^ 16).toNat

theorem digitsValue_append (s : List UInt8) (c : UInt8) :
    digitsValue (s ++ [c]) = 10 * digitsValue s + (c.toNat - 48) := by
  simp [digitsValue]

theorem digitChar_toUInt8 {d : Nat} (h : d < 10) : d.digitChar.toUInt8.toNat = 48 + d := by
  match d, h with
  | 0, _ | 1, _ | 2, _ | 3, _ | 4, _ | 5, _ | 6, _ | 7, _ | 8, _ | 9, _ => rfl

theorem digitsValue_decimal (n : Nat) : digitsValue (decimal n) = n := by
  induction n using Nat.strongRecOn with
  | ind n ih =>
      by_cases small : n < 10
      · have := digitChar_toUInt8 small
        simp [decimal, Nat.toDigits_of_lt_base small, digitsValue, this]
      · have step := Nat.toDigits_of_base_le (b := 10) (by decide) (Nat.le_of_not_lt small)
        have last := digitChar_toUInt8 (Nat.mod_lt n (by decide : 0 < 10))
        rw [decimal, step, List.map_append, List.map_singleton, digitsValue_append, last]
        have := ih (n / 10) (by omega)
        rw [decimal] at this
        rw [this]
        omega

theorem decimal_isDigit {n : Nat} {b : UInt8} (h : b ∈ decimal n) : isDigit b = true := by
  have := decimal_digit h
  simp [isDigit, this]

theorem leadingNumber_decimal (n : Nat) {rest : List UInt8}
    (stop : ∀ c ∈ rest.head?, isDigit c = false) : leadingNumber (decimal n ++ rest) = n := by
  have digits : (decimal n ++ rest).takeWhile isDigit = decimal n := by
    rw [List.takeWhile_append_of_pos fun _ => decimal_isDigit]
    cases rest with
    | nil => simp
    | cons c rest => simp [stop c (by simp)]
  rw [leadingNumber, digits, digitsValue_decimal]

/-- A printed number is read back up to the first byte that is no digit. -/
theorem strtoll_decimal (n : Nat) {rest : List UInt8}
    (stop : ∀ c ∈ rest.head?, isDigit c = false) :
    strtoll (decimal n ++ rest) = min (2 ^ 63 - 1) (n : Int) := by
  obtain ⟨d, ds, hd⟩ := List.exists_cons_of_ne_nil (decimal_ne_nil n)
  have first : 48 ≤ d ∧ d ≤ 57 := decimal_digit (n := n) (by simp [hd])
  have notSpace : isSpace d = false := by
    simp only [isSpace]
    grind
  have keep : (decimal n ++ rest).dropWhile isSpace = decimal n ++ rest := by
    simp [hd, notSpace]
  have number := leadingNumber_decimal n stop
  have noSign : (decimal n ++ rest).head? ≠ some 45 ∧ (decimal n ++ rest).head? ≠ some 43 := by
    rw [hd]
    simp only [List.cons_append, List.head?_cons, ne_eq, Option.some.injEq]
    grind
  simp only [strtoll, keep]
  rw [if_neg noSign.1, if_neg noSign.2, number]

theorem strtoll_signedDecimal {i : Int} (low : -2 ^ 63 ≤ i) (high : i < 2 ^ 63) :
    strtoll (signedDecimal i) = i := by
  have digits (n : Nat) : leadingNumber (decimal n) = n := by
    have whole := @leadingNumber_decimal n [] fun c none_ => by cases none_
    rwa [List.append_nil] at whole
  by_cases negative : i < 0
  · have sign : (45 :: decimal i.natAbs).dropWhile isSpace = 45 :: decimal i.natAbs := rfl
    rw [signedDecimal, if_pos negative, strtoll, sign]
    show max (-2 ^ 63) (-(leadingNumber (decimal i.natAbs) : Int)) = i
    rw [digits]
    omega
  · have whole := @strtoll_decimal i.natAbs [] fun c none_ => by cases none_
    rw [List.append_nil] at whole
    rw [signedDecimal, if_neg negative, whole]
    omega

/-- An int survives %d and atoi. -/
theorem atoi_signedDecimal (val : Int32) : atoi (signedDecimal val.toInt) = val.toInt := by
  have low := val.le_toInt
  have high := val.toInt_lt
  rw [atoi, strtoll_signedDecimal (by omega) (by omega), toInt32]
  omega

end HZRobot
