import HZRobot.CNumbers

/-!
string::encode_url and decode_url. The encoder replaces byte by byte from its table; the
decoder moves an int cursor over the text and takes two letters or digits behind a percent
sign for an escape.
-/

namespace HZRobot.Url

/-- shine_url_encode_table. -/
def urlEncodeTable : List (List UInt8) :=
  [
    "%00", "%01", "%02", "%03", "%04", "%05", "%06", "%07", "%08", "%09", "%0A", "%0B", "%0C",
    "%0D", "%0E", "%0F",
    "%10", "%11", "%12", "%13", "%14", "%15", "%16", "%17", "%18", "%19", "%1A", "%1B", "%1C",
    "%1D", "%1E", "%1F",
    "%20", "!", "%22", "%23", "$", "%25", "&", "'", "(", ")", "*", "+", ",", "-", ".", "/",
    "0", "1", "2", "3", "4", "5", "6", "7", "8", "9", ":", ";", "%3C", "=", "%3E", "?",
    "@", "A", "B", "C", "D", "E", "F", "G", "H", "I", "J", "K", "L", "M", "N", "O",
    "P", "Q", "R", "S", "T", "U", "V", "W", "X", "Y", "Z", "%5B", "%5C", "%5D", "%5E", "_",
    "%60", "a", "b", "c", "d", "e", "f", "g", "h", "i", "j", "k", "l", "m", "n", "o",
    "p", "q", "r", "s", "t", "u", "v", "w", "x", "y", "z", "%7B", "%7C", "%7D", "%7E", "%7F",
    "%80", "%81", "%82", "%83", "%84", "%85", "%86", "%87", "%88", "%89", "%8A", "%8B", "%8C",
    "%8D", "%8E", "%8F",
    "%90", "%91", "%92", "%93", "%94", "%95", "%96", "%97", "%98", "%99", "%9A", "%9B", "%9C",
    "%9D", "%9E", "%9F",
    "%A0", "%A1", "%A2", "%A3", "%A4", "%A5", "%A6", "%A7", "%A8", "%A9", "%AA", "%AB", "%AC",
    "%AD", "%AE", "%AF",
    "%B0", "%B1", "%B2", "%B3", "%B4", "%B5", "%B6", "%B7", "%B8", "%B9", "%BA", "%BB", "%BC",
    "%BD", "%BE", "%BF",
    "%C0", "%C1", "%C2", "%C3", "%C4", "%C5", "%C6", "%C7", "%C8", "%C9", "%CA", "%CB", "%CC",
    "%CD", "%CE", "%CF",
    "%D0", "%D1", "%D2", "%D3", "%D4", "%D5", "%D6", "%D7", "%D8", "%D9", "%DA", "%DB", "%DC",
    "%DD", "%DE", "%DF",
    "%E0", "%E1", "%E2", "%E3", "%E4", "%E5", "%E6", "%E7", "%E8", "%E9", "%EA", "%EB", "%EC",
    "%ED", "%EE", "%EF",
    "%F0", "%F1", "%F2", "%F3", "%F4", "%F5", "%F6", "%F7", "%F8", "%F9", "%FA", "%FB", "%FC",
    "%FD", "%FE", "%FF"
  ].map bytes

/-- shine_url_decode_table. -/
def urlDecodeTable : List UInt8 :=
  [
    0, 0, 0, 0, 0, 0, 0, 0, 0, 0, 0, 0, 0, 0, 0, 0,
    0, 0, 0, 0, 0, 0, 0, 0, 0, 0, 0, 0, 0, 0, 0, 0,
    0, 0, 0, 0, 0, 0, 0, 0, 0, 0, 0, 0, 0, 0, 0, 0,
    0, 1, 2, 3, 4, 5, 6, 7, 8, 9, 0, 0, 0, 0, 0, 0,
    0, 10, 11, 12, 13, 14, 15, 0, 0, 0, 0, 0, 0, 0, 0, 0,
    0, 0, 0, 0, 0, 0, 0, 0, 0, 0, 0, 0, 0, 0, 0, 0,
    0, 10, 11, 12, 13, 14, 15, 0, 0, 0, 0, 0, 0, 0, 0, 0,
    0, 0, 0, 0, 0, 0, 0, 0, 0, 0, 0, 0, 0, 0, 0, 0,
    0, 0, 0, 0, 0, 0, 0, 0, 0, 0, 0, 0, 0, 0, 0, 0,
    0, 0, 0, 0, 0, 0, 0, 0, 0, 0, 0, 0, 0, 0, 0, 0,
    0, 0, 0, 0, 0, 0, 0, 0, 0, 0, 0, 0, 0, 0, 0, 0,
    0, 0, 0, 0, 0, 0, 0, 0, 0, 0, 0, 0, 0, 0, 0, 0,
    0, 0, 0, 0, 0, 0, 0, 0, 0, 0, 0, 0, 0, 0, 0, 0,
    0, 0, 0, 0, 0, 0, 0, 0, 0, 0, 0, 0, 0, 0, 0, 0,
    0, 0, 0, 0, 0, 0, 0, 0, 0, 0, 0, 0, 0, 0, 0, 0,
    0, 0, 0, 0, 0, 0, 0, 0, 0, 0, 0, 0, 0, 0, 0, 0
  ]

/-- string::encode_url. -/
def encodeUrl : List UInt8 → List UInt8
  | [] => []
  | c :: data => if c = 0 then [] else urlEncodeTable.getD c.toNat [] ++ encodeUrl data

def fromTable (h l : UInt8) : UInt8 :=
  (urlDecodeTable.getD h.toNat 0 <<< 4) + urlDecodeTable.getD l.toNat 0

/-- The loop of decode_url from pos on, none when the int overflows. -/
def decodeLoop (len : Int) : List UInt8 → Nat → List UInt8 → Option (Bool × List UInt8)
  | [], _, ret => some (true, ret)
  | c :: data, pos, ret =>
      if c = 0 then some (true, ret)
      else if c = 37 then
        if 2 ^ 31 ≤ pos + 2 then none
        else
          match data with
          | h :: l :: data =>
              if (pos : Int) + 2 ≤ len ∧ isAlnum h = true ∧ isAlnum l = true then
                if 2 ^ 31 ≤ pos + 3 then none
                else decodeLoop len data (pos + 3) (ret ++ [fromTable h l])
              else some (false, ret)
          | _ => some (false, ret)
      else if 2 ^ 31 ≤ pos + 1 then none
      else decodeLoop len data (pos + 1) (ret ++ [c])

/-- string::decode_url, whether it returns true and ret. -/
def decodeUrl (url : List UInt8) : Option (Bool × List UInt8) :=
  decodeLoop (toInt32 (cstr url).length) url 0 []

section Language

def isHexDigit (c : UInt8) : Bool := isDigit c || (65 ≤ c && c ≤ 70) || (97 ≤ c && c ≤ 102)

def hexValue (c : UInt8) : Nat :=
  if isDigit c then c.toNat - 48 else if c ≤ 70 then c.toNat - 55 else c.toNat - 87

/-- The text starts with two such digits. -/
def StartsWithTwo (digit : UInt8 → Bool) (s : List UInt8) : Prop :=
  ∃ h l rest, s = h :: l :: rest ∧ digit h = true ∧ digit l = true

/-- Every percent sign has two such digits behind it. -/
def EveryEscape (digit : UInt8 → Bool) (u : List UInt8) : Prop :=
  ∀ front back, u = front ++ 37 :: back → StartsWithTwo digit back

/-- The text with each escape replaced by the byte it denotes. -/
inductive Denotes : List UInt8 → List UInt8 → Prop
  | nil : Denotes [] []
  | plain {c : UInt8} {u r : List UInt8} (h : c ≠ 37) (rest : Denotes u r) :
      Denotes (c :: u) (c :: r)
  | escape {h l : UInt8} {u r : List UInt8} (high : isHexDigit h = true)
      (low : isHexDigit l = true) (rest : Denotes u r) :
      Denotes (37 :: h :: l :: u) (UInt8.ofNat (16 * hexValue h + hexValue l) :: r)

variable {u r : List UInt8} {digit : UInt8 → Bool}

theorem everyEscape_cons {c : UInt8} (h : c ≠ 37) :
    EveryEscape digit (c :: u) ↔ EveryEscape digit u := by
  constructor
  · intro all front back split
    exact all (c :: front) back (by rw [split]; rfl)
  · intro all front back split
    cases front with
    | nil => exact absurd (List.cons.inj split).1 h
    | cons b front => exact all front back (List.cons.inj split).2

theorem everyEscape_escape {h l : UInt8} (high : digit h = true) (low : digit l = true)
    (percent : digit 37 = false) :
    EveryEscape digit (37 :: h :: l :: u) ↔ EveryEscape digit u := by
  have notHigh : h ≠ 37 := by
    rintro rfl
    exact absurd high (by rw [percent]; decide)
  have notLow : l ≠ 37 := by
    rintro rfl
    exact absurd low (by rw [percent]; decide)
  have inner : EveryEscape digit (h :: l :: u) ↔ EveryEscape digit u :=
    (everyEscape_cons notHigh).trans (everyEscape_cons notLow)
  rw [← inner]
  constructor
  · intro all front back split
    exact all (37 :: front) back (by rw [split]; rfl)
  · intro all front back split
    cases front with
    | nil =>
        rw [List.nil_append] at split
        exact ⟨h, l, u, (List.cons.inj split).2.symm, high, low⟩
    | cons b front => exact all front back (List.cons.inj split).2

/-- A text whose escapes are hexadecimal denotes one. -/
theorem exists_denotes (u : List UInt8) (all : EveryEscape isHexDigit u) : ∃ r, Denotes u r := by
  induction hn : u.length using Nat.strongRecOn generalizing u with
  | ind n ih =>
      cases u with
      | nil => exact ⟨[], .nil⟩
      | cons c u =>
          rw [List.length_cons] at hn
          by_cases percent : c = 37
          · subst percent
            obtain ⟨h, l, rest, rfl, high, low⟩ := all [] u rfl
            simp only [List.length_cons] at hn
            rw [everyEscape_escape high low (by decide)] at all
            obtain ⟨r, behind⟩ := ih rest.length (by omega) rest all rfl
            exact ⟨_, .escape high low behind⟩
          · rw [everyEscape_cons percent] at all
            obtain ⟨r, behind⟩ := ih u.length (by omega) u all rfl
            exact ⟨_, .plain percent behind⟩

end Language

section Tables

theorem decodeTable_hex {c : UInt8} (h : isHexDigit c = true) :
    urlDecodeTable.getD c.toNat 0 = UInt8.ofNat (hexValue c) ∧ hexValue c < 16 := by
  have all : ∀ c : UInt8, isHexDigit c = true →
      urlDecodeTable.getD c.toNat 0 = UInt8.ofNat (hexValue c) ∧ hexValue c < 16 := by
    decide +kernel
  exact all c h

/-- Behind two hexadecimal digits the table has the byte they denote. -/
theorem fromTable_hex {h l : UInt8} (high : isHexDigit h = true) (low : isHexDigit l = true) :
    fromTable h l = UInt8.ofNat (16 * hexValue h + hexValue l) := by
  obtain ⟨valueHigh, smallHigh⟩ := decodeTable_hex high
  obtain ⟨valueLow, smallLow⟩ := decodeTable_hex low
  have all : ∀ a < 16, ∀ b < 16, (UInt8.ofNat a <<< 4) + UInt8.ofNat b = UInt8.ofNat (16 * a + b) := by
    decide +kernel
  rw [fromTable, valueHigh, valueLow]
  exact all _ smallHigh _ smallLow

theorem isAlnum_of_hex {c : UInt8} (h : isHexDigit c = true) : isAlnum c = true := by
  have all : ∀ c : UInt8, isHexDigit c = true → isAlnum c = true := by decide +kernel
  exact all c h

/-- An entry of the encoder's table is its byte or an escape for it. -/
theorem encodeTable_entry {c : UInt8} (some_ : c ≠ 0) :
    (urlEncodeTable.getD c.toNat [] = [c] ∧ c ≠ 37) ∨
      ∃ h l, urlEncodeTable.getD c.toNat [] = [37, h, l] ∧ isHexDigit h = true ∧
        isHexDigit l = true ∧ UInt8.ofNat (16 * hexValue h + hexValue l) = c ∧ h ≠ 0 ∧ l ≠ 0 := by
  have all : ∀ c : UInt8, c ≠ 0 →
      (urlEncodeTable.getD c.toNat [] = [c] ∧ c ≠ 37) ∨
        (fun h l => urlEncodeTable.getD c.toNat [] = [37, h, l] ∧ isHexDigit h = true ∧
          isHexDigit l = true ∧ UInt8.ofNat (16 * hexValue h + hexValue l) = c ∧ h ≠ 0 ∧ l ≠ 0)
        ((urlEncodeTable.getD c.toNat []).getD 1 0) ((urlEncodeTable.getD c.toNat []).getD 2 0) := by
    decide +kernel
  exact (all c some_).imp id fun escape => ⟨_, _, escape⟩

end Tables

section Encode

/-- The encoded text denotes the text. -/
theorem denotes_encodeUrl {s : List UInt8} (clean : 0 ∉ s) : Denotes (encodeUrl s) s := by
  induction s with
  | nil => exact .nil
  | cons c s ih =>
      rw [List.mem_cons, not_or] at clean
      have some_ : c ≠ 0 := Ne.symm clean.1
      rw [encodeUrl, if_neg some_]
      rcases encodeTable_entry some_ with ⟨same, noPercent⟩ | ⟨h, l, escape, high, low, byte, -⟩
      · rw [same]
        exact .plain noPercent (ih clean.2)
      · rw [escape, ← byte]
        exact .escape high low (ih clean.2)

theorem encodeUrl_clean {s : List UInt8} (clean : 0 ∉ s) : 0 ∉ encodeUrl s := by
  induction s with
  | nil => simp [encodeUrl]
  | cons c s ih =>
      rw [List.mem_cons, not_or] at clean
      have some_ : c ≠ 0 := Ne.symm clean.1
      rw [encodeUrl, if_neg some_, List.mem_append, not_or]
      refine ⟨?_, ih clean.2⟩
      rcases encodeTable_entry some_ with ⟨same, -⟩ | ⟨h, l, escape, -, -, -, hz, lz⟩
      · rw [same, List.mem_singleton]
        exact clean.1
      · rw [escape]
        simp [Ne.symm hz, Ne.symm lz]

theorem encodeUrl_length_le (s : List UInt8) : (encodeUrl s).length ≤ 3 * s.length := by
  induction s with
  | nil => exact Nat.le_refl 0
  | cons c s ih =>
      rw [encodeUrl]
      split
      · exact Nat.zero_le _
      · case isFalse some_ =>
          rw [List.length_append, List.length_cons]
          rcases encodeTable_entry some_ with ⟨same, -⟩ | ⟨h, l, escape, -⟩
          · rw [same, List.length_singleton]
            omega
          · rw [escape]
            simp only [List.length_cons, List.length_nil]
            omega

end Encode

section Decode

variable {len : Int} {u r : List UInt8}

theorem decodeLoop_plain {c : UInt8} (some_ : c ≠ 0) (h : c ≠ 37) (data : List UInt8) (pos : Nat)
    (ret : List UInt8) :
    decodeLoop len (c :: data) pos ret =
      if 2 ^ 31 ≤ pos + 1 then none else decodeLoop len data (pos + 1) (ret ++ [c]) := by
  rcases data with _ | ⟨a, _ | ⟨b, data⟩⟩
  · simp only [decodeLoop, if_neg some_, if_neg h]
  · rw [decodeLoop, if_neg some_, if_neg h]
    simp
  · rw [decodeLoop, if_neg some_, if_neg h]

theorem decodeLoop_escape (h l : UInt8) (data : List UInt8) (pos : Nat) (ret : List UInt8) :
    decodeLoop len (37 :: h :: l :: data) pos ret =
      if 2 ^ 31 ≤ pos + 2 then none
      else if (pos : Int) + 2 ≤ len ∧ isAlnum h = true ∧ isAlnum l = true then
        if 2 ^ 31 ≤ pos + 3 then none
        else decodeLoop len data (pos + 3) (ret ++ [fromTable h l])
      else some (false, ret) := by
  rw [decodeLoop, if_neg (by decide), if_pos rfl]

/-- A percent sign with less than two bytes behind it. -/
theorem decodeLoop_short {data : List UInt8} (short : data.length < 2) (pos : Nat)
    (ret : List UInt8) :
    decodeLoop len (37 :: data) pos ret = if 2 ^ 31 ≤ pos + 2 then none else some (false, ret) := by
  rcases data with _ | ⟨a, _ | ⟨b, data⟩⟩
  · simp [decodeLoop]
  · simp [decodeLoop]
  · simp only [List.length_cons] at short
    omega

/-- What the loop does at a percent sign. -/
theorem decodeLoop_percent (len : Int) (data : List UInt8) (pos : Nat) (ret : List UInt8) :
    (2 ^ 31 ≤ pos + 2 ∧ decodeLoop len (37 :: data) pos ret = none) ∨
    (pos + 2 < 2 ^ 31 ∧ ¬ ((pos : Int) + 2 ≤ len ∧ StartsWithTwo isAlnum data) ∧
      decodeLoop len (37 :: data) pos ret = some (false, ret)) ∨
    ∃ h l rest, data = h :: l :: rest ∧ (pos : Int) + 2 ≤ len ∧ isAlnum h = true ∧
      isAlnum l = true ∧ decodeLoop len (37 :: data) pos ret =
        if 2 ^ 31 ≤ pos + 3 then none else decodeLoop len rest (pos + 3) (ret ++ [fromTable h l]) := by
  have short (less : data.length < 2) : ¬ StartsWithTwo isAlnum data := by
    rintro ⟨h, l, rest, rfl, -⟩
    simp only [List.length_cons] at less
    omega
  rcases data with _ | ⟨h, _ | ⟨l, rest⟩⟩
  · rw [decodeLoop_short (by simp)]
    by_cases wraps : 2 ^ 31 ≤ pos + 2
    · exact .inl ⟨wraps, if_pos wraps⟩
    · exact .inr (.inl ⟨by omega, fun passes => short (by simp) passes.2, if_neg wraps⟩)
  · rw [decodeLoop_short (by simp)]
    by_cases wraps : 2 ^ 31 ≤ pos + 2
    · exact .inl ⟨wraps, if_pos wraps⟩
    · exact .inr (.inl ⟨by omega, fun passes => short (by simp) passes.2, if_neg wraps⟩)
  · rw [decodeLoop_escape]
    by_cases wraps : 2 ^ 31 ≤ pos + 2
    · exact .inl ⟨wraps, if_pos wraps⟩
    rw [if_neg wraps]
    by_cases passes : (pos : Int) + 2 ≤ len ∧ isAlnum h = true ∧ isAlnum l = true
    · exact .inr (.inr ⟨h, l, rest, rfl, passes.1, passes.2.1, passes.2.2, if_pos passes⟩)
    · refine .inr (.inl ⟨by omega, ?_, if_neg passes⟩)
      rintro ⟨within, a, b, rest', split, high, low⟩
      obtain ⟨rfl, behind⟩ := List.cons.inj split
      obtain ⟨rfl, -⟩ := List.cons.inj behind
      exact passes ⟨within, high, low⟩

/-- A text of hexadecimal escapes is decoded. -/
theorem decodeLoop_denotes (h : Denotes u r) (clean : 0 ∉ u) {pos : Nat}
    (room : pos + u.length < 2 ^ 31) (within : (pos : Int) + u.length ≤ len) (ret : List UInt8) :
    decodeLoop len u pos ret = some (true, ret ++ r) := by
  induction h generalizing pos ret with
  | nil => rw [decodeLoop, List.append_nil]
  | @plain c u r noPercent rest ih =>
      rw [List.mem_cons, not_or] at clean
      rw [List.length_cons] at room within
      rw [decodeLoop_plain (Ne.symm clean.1) noPercent, if_neg (by omega),
        ih clean.2 (by omega) (by omega), List.append_assoc]
      rfl
  | @escape h l u r high low rest ih =>
      simp only [List.mem_cons, not_or] at clean
      simp only [List.length_cons] at room within
      rw [decodeLoop_escape, if_neg (by omega),
        if_pos ⟨by omega, isAlnum_of_hex high, isAlnum_of_hex low⟩, if_neg (by omega),
        ih clean.2.2.2 (by omega) (by omega), fromTable_hex high low, List.append_assoc]
      rfl

/-- A percent sign whose escape fails the test, before the int runs out. -/
def Refused (len : Int) (pos : Nat) (u : List UInt8) : Prop :=
  ∃ front back, u = front ++ 37 :: back ∧ pos + front.length + 2 < 2 ^ 31 ∧
    ¬ ((pos : Int) + front.length + 2 ≤ len ∧ StartsWithTwo isAlnum back)

theorem refused_plain {c : UInt8} {pos : Nat} (h : c ≠ 37) :
    Refused len pos (c :: u) ↔ Refused len (pos + 1) u := by
  constructor
  · rintro ⟨front, back, split, room, fails⟩
    cases front with
    | nil => exact absurd (List.cons.inj split).1 h
    | cons b front =>
        rw [List.length_cons] at room fails
        refine ⟨front, back, (List.cons.inj split).2, by omega, fun passes => fails ⟨?_, passes.2⟩⟩
        have := passes.1
        push_cast at this ⊢
        omega
  · rintro ⟨front, back, rfl, room, fails⟩
    refine ⟨c :: front, back, rfl, by rw [List.length_cons]; omega,
      fun passes => fails ⟨?_, passes.2⟩⟩
    have := passes.1
    rw [List.length_cons] at this
    push_cast at this ⊢
    omega

/-- An escape that passes the test is not where the text is refused. -/
theorem refused_escape {h l : UInt8} {pos : Nat} (within : (pos : Int) + 2 ≤ len)
    (high : isAlnum h = true) (low : isAlnum l = true) :
    Refused len pos (37 :: h :: l :: u) ↔ Refused len (pos + 3) u := by
  have percent : isAlnum 37 = false := by decide
  have notHigh : h ≠ 37 := by
    rintro rfl
    exact absurd high (by rw [percent]; decide)
  have notLow : l ≠ 37 := by
    rintro rfl
    exact absurd low (by rw [percent]; decide)
  have inner : Refused len (pos + 1) (h :: l :: u) ↔ Refused len (pos + 3) u :=
    (refused_plain notHigh).trans (refused_plain notLow)
  rw [← inner]
  constructor
  · rintro ⟨front, back, split, room, fails⟩
    cases front with
    | nil =>
        refine absurd ⟨by simpa using within, h, l, u, ?_, high, low⟩ fails
        exact (List.cons.inj split).2.symm
    | cons b front =>
        rw [List.length_cons] at room fails
        refine ⟨front, back, (List.cons.inj split).2, by omega, fun passes => fails ⟨?_, passes.2⟩⟩
        have := passes.1
        push_cast at this ⊢
        omega
  · rintro ⟨front, back, split, room, fails⟩
    refine ⟨37 :: front, back, by rw [split]; rfl, by rw [List.length_cons]; omega,
      fun passes => fails ⟨?_, passes.2⟩⟩
    have := passes.1
    rw [List.length_cons] at this
    push_cast at this ⊢
    omega

/-- Where a percent sign fails the test at once. -/
theorem refused_here {data : List UInt8} {pos : Nat} (room : pos + 2 < 2 ^ 31)
    (fails : ¬ ((pos : Int) + 2 ≤ len ∧ StartsWithTwo isAlnum data)) :
    Refused len pos (37 :: data) :=
  ⟨[], data, rfl, by simpa using room, by simpa using fails⟩

theorem not_refused (len : Int) {pos : Nat} (h : 2 ^ 31 ≤ pos + 2) (u : List UInt8) :
    ¬ Refused len pos u := by
  rintro ⟨front, back, -, room, -⟩
  omega

/-- decode_url returns false exactly where an escape is refused. -/
theorem decodeLoop_false_iff (len : Int) (clean : 0 ∉ u) (pos : Nat) (ret : List UInt8) :
    (∃ out, decodeLoop len u pos ret = some (false, out)) ↔ Refused len pos u := by
  induction hn : u.length using Nat.strongRecOn generalizing u pos ret with
  | ind n ih =>
      cases u with
      | nil =>
          simp [decodeLoop, Refused]
      | cons c u =>
          rw [List.mem_cons, not_or] at clean
          rw [List.length_cons] at hn
          by_cases percent : c = 37
          · subst percent
            rcases decodeLoop_percent len u pos ret with
              ⟨wraps, none_⟩ | ⟨room, fails, refuses⟩ | ⟨h, l, rest, rfl, within, high, low, goes⟩
            · simp [none_, not_refused len wraps]
            · simp [refuses, refused_here room fails]
            · simp only [List.length_cons, List.mem_cons, not_or] at hn clean
              rw [goes, refused_escape within high low]
              by_cases wraps : 2 ^ 31 ≤ pos + 3
              · rw [if_pos wraps]
                simp [not_refused len (by omega : 2 ^ 31 ≤ pos + 3 + 2) rest]
              · rw [if_neg wraps]
                exact ih rest.length (by omega) clean.2.2.2 (pos + 3) _ rfl
          · rw [decodeLoop_plain (Ne.symm clean.1) percent, refused_plain percent]
            by_cases wraps : 2 ^ 31 ≤ pos + 1
            · rw [if_pos wraps]
              simp [not_refused len (by omega : 2 ^ 31 ≤ pos + 1 + 2) u]
            · rw [if_neg wraps]
              exact ih u.length (by omega) clean.2 (pos + 1) _ rfl

/-- Where decode_url returns true the cursor has stayed an int. -/
theorem length_of_decodeLoop (clean : 0 ∉ u) {pos : Nat} (small : pos < 2 ^ 31)
    {ret out : List UInt8} (h : decodeLoop len u pos ret = some (true, out)) :
    pos + u.length < 2 ^ 31 := by
  induction hn : u.length using Nat.strongRecOn generalizing u pos ret with
  | ind n ih =>
      cases u with
      | nil =>
          rw [List.length_nil] at hn
          omega
      | cons c u =>
          rw [List.mem_cons, not_or] at clean
          rw [List.length_cons] at hn
          by_cases percent : c = 37
          · subst percent
            rcases decodeLoop_percent len u pos ret with
              ⟨wraps, none_⟩ | ⟨room, fails, refuses⟩ | ⟨a, b, rest, rfl, within, high, low, goes⟩
            · rw [none_] at h
              cases h
            · rw [refuses] at h
              cases h
            · simp only [List.length_cons, List.mem_cons, not_or] at hn clean
              rw [goes] at h
              split at h
              · cases h
              · have := ih rest.length (by omega) clean.2.2.2 (by omega) h rfl
                omega
          · rw [decodeLoop_plain (Ne.symm clean.1) percent] at h
            split at h
            · cases h
            · have := ih u.length (by omega) clean.2 (by omega) h rfl
              omega

end Decode

section Claim

variable {u : List UInt8}

theorem toInt32_of_small {n : Nat} (small : n < 2 ^ 31) : toInt32 n = n := by
  unfold toInt32
  omega

/-- decode_url returns true on exactly the texts with hexadecimal escapes, and ret is then what
the text denotes. -/
def DecodesExactly (u : List UInt8) : Prop :=
  ∃ result ret, decodeUrl u = some (result, ret) ∧
    (result = true ↔ EveryEscape isHexDigit u) ∧ (EveryEscape isHexDigit u → Denotes u ret)

theorem decodeUrl_denotes {r : List UInt8} (clean : 0 ∉ u) (small : u.length < 2 ^ 31)
    (h : Denotes u r) : decodeUrl u = some (true, r) := by
  rw [decodeUrl, cstr_eq_self clean, toInt32_of_small small,
    decodeLoop_denotes h clean (by omega) (by simp) [], List.nil_append]

theorem decodesExactly_iff (clean : 0 ∉ u) :
    DecodesExactly u ↔ (EveryEscape isHexDigit u ∧ u.length < 2 ^ 31) ∨
      (¬ EveryEscape isHexDigit u ∧ Refused (toInt32 u.length) 0 u) := by
  have refuses := decodeLoop_false_iff (toInt32 u.length) clean 0 []
  constructor
  · rintro ⟨result, ret, decoded, accepts, -⟩
    rw [decodeUrl, cstr_eq_self clean] at decoded
    by_cases hex : EveryEscape isHexDigit u
    · rw [accepts.mpr hex] at decoded
      have := length_of_decodeLoop clean (by decide) decoded
      exact .inl ⟨hex, by omega⟩
    · rw [Bool.eq_false_iff.mpr (accepts.not.mpr hex)] at decoded
      exact .inr ⟨hex, refuses.mp ⟨ret, decoded⟩⟩
  · rintro (⟨hex, small⟩ | ⟨notHex, refused⟩)
    · obtain ⟨r, denotes⟩ := exists_denotes u hex
      exact ⟨true, r, decodeUrl_denotes clean small denotes, by simp [hex], fun _ => denotes⟩
    · obtain ⟨out, decoded⟩ := refuses.mpr refused
      refine ⟨false, out, ?_, by simp [notHex], fun hex => absurd hex notHex⟩
      rw [decodeUrl, cstr_eq_self clean, decoded]

/-- decode_url undoes encode_url. What it makes of any other text is right exactly where the
escapes are hexadecimal and the text is shorter than 2^31, or where one is not and some escape
fails the test of the code. -/
theorem decodes_iff (s u : List UInt8) :
    (0 ∉ s → s.length < 2 ^ 29 → decodeUrl (encodeUrl s) = some (true, s)) ∧
      (0 ∉ u → (DecodesExactly u ↔ (EveryEscape isHexDigit u ∧ u.length < 2 ^ 31) ∨
        (¬ EveryEscape isHexDigit u ∧ Refused (toInt32 u.length) 0 u))) := by
  refine ⟨fun clean small => ?_, fun clean => decodesExactly_iff clean⟩
  have length := encodeUrl_length_le s
  exact decodeUrl_denotes (encodeUrl_clean clean) (by omega) (denotes_encodeUrl clean)

theorem space_decodes :
    decodeUrl (encodeUrl [97, 32]) = some (true, [97, 32]) ∧
      (DecodesExactly [37, 50] ↔ (EveryEscape isHexDigit [37, 50] ∧ [37, 50].length < 2 ^ 31) ∨
        (¬ EveryEscape isHexDigit [37, 50] ∧ Refused (toInt32 [37, 50].length) 0 [37, 50])) := by
  obtain ⟨encoded, decoded⟩ := decodes_iff [97, 32] [37, 50]
  exact ⟨encoded (by decide) (by decide), decoded (by decide)⟩

/-- %GG is taken for an escape. -/
theorem letters_accepted : ¬ DecodesExactly [37, 71, 71] := by
  rintro ⟨result, ret, decoded, accepts, -⟩
  have zero : decodeUrl [37, 71, 71] = some (true, [0]) := by decide +kernel
  rw [zero] at decoded
  cases decoded
  obtain ⟨h, l, rest, split, high, -⟩ := accepts.mp rfl [] [71, 71] rfl
  cases split
  exact absurd high (by decide)

end Claim

end HZRobot.Url
