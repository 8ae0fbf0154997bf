import HZRobot.ByteSearch
import HZRobot.CNumbers

/-!
The characters of an XML text. A pointer into a text that ends with NUL is the text from
there on, and null is none. A character that takes more bytes than are left carries the
pointer past the NUL; what is read there is no part of the text.
-/

namespace HZRobot.Xml

inductive Encoding where
  | unknown
  | utf8
  | legacy
  deriving DecidableEq, Repr

/-- How reading a text goes wrong without an error being set: bytes behind the end are
used, an assertion fails, a loop does not come to its end. -/
inductive Fault where
  | overrun
  | assertion
  | endless
  | fuel
  deriving DecidableEq, Repr

abbrev Pointer := Option (List UInt8)

/-- The bytes of a character, from its first one. -/
def utf8ByteTable (c : UInt8) : Nat :=
  if c < 0xC2 then 1
  else if c < 0xE0 then 2
  else if c < 0xF0 then 3
  else if c < 0xF5 then 4
  else 1

def charLength (encoding : Encoding) (c : UInt8) : Nat :=
  if encoding = .utf8 then utf8ByteTable c else 1

theorem charLength_pos (encoding : Encoding) (c : UInt8) : 0 < charLength encoding c := by
  unfold charLength utf8ByteTable
  split_ifs <;> decide

/-- The byte order mark and the two non-characters that are skipped like it. -/
def byteOrderMarks : List (List UInt8) :=
  [[0xEF, 0xBB, 0xBF], [0xEF, 0xBF, 0xBE], [0xEF, 0xBF, 0xBF]]

def markAt (encoding : Encoding) (p : List UInt8) : Bool :=
  encoding = .utf8 && byteOrderMarks.any (·.isPrefixOf p)

/-- The loop of SkipWhiteSpace. -/
def skipSpaces (encoding : Encoding) (p : List UInt8) : List UInt8 :=
  match p with
  | [] => []
  | c :: rest =>
      if markAt encoding (c :: rest) then skipSpaces encoding (rest.drop 2)
      else if isSpace c then skipSpaces encoding rest
      else c :: rest
termination_by p.length
decreasing_by
  · rw [List.length_drop, List.length_cons]
    omega
  · exact Nat.lt_succ_self _

def skipWhiteSpace (encoding : Encoding) : Pointer → Pointer
  | none => none
  | some [] => none
  | some p => some (skipSpaces encoding p)

def isAlpha (c : UInt8) : Bool :=
  if c < 127 then (65 ≤ c && c ≤ 90) || (97 ≤ c && c ≤ 122) else true

def isAlphaNum (c : UInt8) : Bool := if c < 127 then isAlnum c else true

/-- A letter or an underscore. -/
def isNameStart (c : UInt8) : Bool := isAlpha c || c = 95

/-- Underscores, hyphens, dots and colons go with the letters and digits. -/
def isNameChar (c : UInt8) : Bool :=
  isAlphaNum c || c = 95 || c = 45 || c = 46 || c = 58

/-- The name and the pointer behind it, null when there is none. -/
def readName : List UInt8 → List UInt8 × Pointer
  | [] => ([], none)
  | c :: rest =>
      if isNameStart c then
        ((c :: rest).takeWhile isNameChar, some ((c :: rest).dropWhile isNameChar))
      else ([], none)

def toLower (c : UInt8) : UInt8 := if 65 ≤ c && c ≤ 90 then c + 32 else c

/-- Does the text at the pointer begin with the tag? At the end of the text the code
asserts; all callers but one have looked before. -/
def stringEqual (tag : List UInt8) (ignoreCase : Bool) (p : List UInt8) : Bool :=
  if ignoreCase then (tag.map toLower).isPrefixOf (p.map toLower) else tag.isPrefixOf p

/-- The bytes of one code point; none from 2^21 on. -/
def convertUTF32ToUTF8 (input : Nat) : List UInt8 :=
  if input < 0x80 then [input.toUInt8]
  else if input < 0x800 then
    [(input / 2 ^ 6 ||| 0xC0).toUInt8, ((input ||| 0x80) &&& 0xBF).toUInt8]
  else if input < 0x10000 then
    [(input / 2 ^ 12 ||| 0xE0).toUInt8, ((input / 2 ^ 6 ||| 0x80) &&& 0xBF).toUInt8,
      ((input ||| 0x80) &&& 0xBF).toUInt8]
  else if input < 0x200000 then
    [(input / 2 ^ 18 ||| 0xF0).toUInt8, ((input / 2 ^ 12 ||| 0x80) &&& 0xBF).toUInt8,
      ((input / 2 ^ 6 ||| 0x80) &&& 0xBF).toUInt8, ((input ||| 0x80) &&& 0xBF).toUInt8]
  else []

def hexDigit (c : UInt8) : Option Nat :=
  if 48 ≤ c && c ≤ 57 then some (c.toNat - 48)
  else if 97 ≤ c && c ≤ 102 then some (c.toNat - 97 + 10)
  else if 65 ≤ c && c ≤ 70 then some (c.toNat - 65 + 10)
  else none

def decimalDigit (c : UInt8) : Option Nat :=
  if 48 ≤ c && c ≤ 57 then some (c.toNat - 48) else none

/-- The digits of a character reference, last one first, up to the mark before them. The
multiplier is an unsigned int, the sum an unsigned long. -/
def referenceValue (base : Nat) (digit : UInt8 → Option Nat) (mark : UInt8) :
    List UInt8 → Nat → Nat → Option Nat
  | [], _, ucs => some ucs
  | c :: q, mult, ucs =>
      if c = mark then some ucs
      else
        match digit c with
        | none => none
        | some d =>
            referenceValue base digit mark q (mult * base % 2 ^ 32)
              ((ucs + mult * d % 2 ^ 32) % 2 ^ 64)

/-- The bytes a character reference stands for. -/
def referenced (encoding : Encoding) (ucs : Nat) : List UInt8 :=
  if encoding = .utf8 then convertUTF32ToUTF8 ucs else [ucs.toUInt8]

/-- A reference whose digits begin here, up to the next semicolon. -/
def reference (encoding : Encoding) (base : Nat) (digit : UInt8 → Option Nat) (mark : UInt8)
    (p : List UInt8) : List UInt8 × Pointer :=
  match cut [59] p with
  | none => ([], none)
  | some (digits, after) =>
      match referenceValue base digit mark digits.reverse 1 0 with
      | none => ([], none)
      | some ucs => (referenced encoding ucs, some after)

/-- The five entities with their characters. -/
def entity : List (List UInt8 × UInt8) :=
  [(bytes "&amp;", 38), (bytes "&lt;", 60), (bytes "&gt;", 62), (bytes "&quot;", 34),
    (bytes "&apos;", 39)]

/-- What stands for the reference at an ampersand, and the pointer behind it. An ampersand
that begins no entity is dropped. -/
def getEntity (encoding : Encoding) : List UInt8 → List UInt8 × Pointer
  | 38 :: 35 :: 120 :: p => reference encoding 16 hexDigit 120 p
  | 38 :: 35 :: c :: p => reference encoding 10 decimalDigit 35 (c :: p)
  | p =>
      match entity.find? fun e => e.1.isPrefixOf p with
      | some (str, chr) => ([chr], some (p.drop str.length))
      | none => ([], some p.tail)

/-- The bytes of the next character, and the pointer behind it. -/
def getChar (encoding : Encoding) (p : List UInt8) : Except Fault (List UInt8 × Pointer) :=
  match p with
  | [] => .error .overrun
  | c :: rest =>
      if charLength encoding c = 1 then
        .ok (if c = 38 then getEntity encoding p else ([c], some rest))
      else if charLength encoding c ≤ p.length then
        .ok (p.take (charLength encoding c), some (p.drop (charLength encoding c)))
      else .error .overrun

/-- The pointer has gone on from here, or is null. -/
def Past (p : List UInt8) (q : Pointer) : Prop := ∀ r ∈ q, r <:+ p ∧ r.length < p.length

theorem Past.null (p : List UInt8) : Past p none := nofun

theorem Past.drop {p : List UInt8} {n : Nat} (positive : 0 < n) (le : n ≤ p.length) :
    Past p (some (p.drop n)) := by
  rintro r ⟨⟩
  refine ⟨List.drop_suffix n p, ?_⟩
  rw [List.length_drop]
  omega

theorem Past.tail (c : UInt8) (p : List UInt8) : Past (c :: p) (some p) :=
  Past.drop Nat.one_pos (Nat.succ_pos _)

theorem Past.trans {p r : List UInt8} {q : Pointer} (h : Past r q) (suffix : r <:+ p) :
    Past p q := fun s hs =>
  ⟨(h s hs).1.trans suffix, Nat.lt_of_lt_of_le (h s hs).2 suffix.length_le⟩

theorem reference_past (encoding : Encoding) (base : Nat) (digit : UInt8 → Option Nat)
    (mark : UInt8) (p : List UInt8) : Past p (reference encoding base digit mark p).2 := by
  unfold reference
  split
  · exact Past.null p
  · case h_2 digits after found =>
      split
      · exact Past.null p
      · have whole : p = (digits ++ [59]) ++ after := cut_spec found
        rintro r ⟨⟩
        rw [whole]
        refine ⟨List.suffix_append _ after, ?_⟩
        simp only [List.length_append, List.length_singleton]
        omega

theorem getEntity_past (encoding : Encoding) (c : UInt8) (rest : List UInt8) :
    Past (c :: rest) (getEntity encoding (c :: rest)).2 := by
  unfold getEntity
  split
  · case h_1 p heq =>
      rw [heq]
      exact (reference_past _ _ _ _ p).trans (List.suffix_append [38, 35, 120] p)
  · case h_2 d p _ heq =>
      rw [heq]
      exact (reference_past _ _ _ _ (d :: p)).trans (List.suffix_append [38, 35] (d :: p))
  · split
    · case h_1 str chr found =>
        have positive : ∀ e ∈ entity, 0 < e.1.length := by decide
        have fits : str.isPrefixOf (c :: rest) = true := by simpa using List.find?_some found
        rw [List.isPrefixOf_iff_prefix] at fits
        exact Past.drop (positive _ (List.mem_of_find?_eq_some found)) fits.length_le
    · exact Past.tail c rest

/-- A character takes at least one byte. -/
theorem getChar_past {encoding : Encoding} {p cs : List UInt8} {q : Pointer}
    (h : getChar encoding p = .ok (cs, q)) : Past p q := by
  unfold getChar at h
  split at h
  · cases h
  · case h_2 c rest =>
      split at h
      · split at h
        · have past := getEntity_past encoding c rest
          rw [Except.ok.inj h] at past
          exact past
        · cases h
          exact Past.tail c rest
      · split at h
        · case isTrue le =>
            cases h
            exact Past.drop (charLength_pos encoding c) le
        · cases h

/-- The loop of ReadText that keeps all white space. -/
def readKept (encoding : Encoding) (endTag p : List UInt8) :
    Except Fault (List UInt8 × Pointer) :=
  match p with
  | [] => .ok ([], some [])
  | c :: rest =>
      if stringEqual endTag false (c :: rest) then .ok ([], some (c :: rest))
      else
        match _h : getChar encoding (c :: rest) with
        | .error f => .error f
        | .ok (cs, none) => .ok (cs, none)
        | .ok (cs, some q) =>
            (readKept encoding endTag q).map fun r => (cs ++ r.1, r.2)
termination_by p.length
decreasing_by exact (getChar_past _h q rfl).2

/-- What the loop does with a character that does not begin the end tag. -/
theorem readKept_char {encoding : Encoding} {endTag rest : List UInt8} {c : UInt8}
    (notHere : ¬ stringEqual endTag false (c :: rest) = true) :
    readKept encoding endTag (c :: rest) = (getChar encoding (c :: rest)).bind fun r =>
      match r.2 with
      | none => .ok (r.1, none)
      | some q => (readKept encoding endTag q).map fun s => (r.1 ++ s.1, s.2) := by
  rw [readKept, if_neg notHere]
  split
  · case h_1 f outcome => rw [outcome]; rfl
  · case h_2 cs outcome => rw [outcome]; rfl
  · case h_3 cs q outcome => rw [outcome]; rfl

/-- The loop that leaves one space of the white space between two characters. -/
def readCondensed (encoding : Encoding) (endTag : List UInt8) (whitespace : Bool)
    (p : List UInt8) : Except Fault (List UInt8 × Pointer) :=
  match p with
  | [] => .ok ([], some [])
  | c :: rest =>
      if stringEqual endTag false (c :: rest) then .ok ([], some (c :: rest))
      else if isSpace c then readCondensed encoding endTag true rest
      else
        match h : getChar encoding (c :: rest) with
        | .error f => .error f
        | .ok (cs, none) => .ok ((if whitespace then [32] else []) ++ cs, none)
        | .ok (cs, some q) =>
            (readCondensed encoding endTag false q).map fun r =>
              ((if whitespace then [32] else []) ++ (cs ++ r.1), r.2)
termination_by p.length
decreasing_by
  · exact Nat.lt_succ_self _
  · exact (getChar_past h q rfl).2

theorem readCondensed_char {encoding : Encoding} {endTag rest : List UInt8} {c : UInt8}
    {whitespace : Bool} (notHere : ¬ stringEqual endTag false (c :: rest) = true)
    (noSpace : ¬ isSpace c = true) :
    readCondensed encoding endTag whitespace (c :: rest) =
      (getChar encoding (c :: rest)).bind fun r =>
        match r.2 with
        | none => .ok ((if whitespace then [32] else []) ++ r.1, none)
        | some q =>
            (readCondensed encoding endTag false q).map fun s =>
              ((if whitespace then [32] else []) ++ (r.1 ++ s.1), s.2) := by
  rw [readCondensed, if_neg notHere, if_neg noSpace]
  split
  · case h_1 f outcome => rw [outcome]; rfl
  · case h_2 cs outcome => rw [outcome]; rfl
  · case h_3 cs q outcome => rw [outcome]; rfl

/-- Behind the end tag; null when the text ends there. -/
def behind (endTag : List UInt8) : Pointer → Pointer
  | some (c :: rest) =>
      match (c :: rest).drop endTag.length with
      | [] => none
      | q => some q
  | _ => none

def readText (encoding : Encoding) (trimWhiteSpace : Bool) (endTag : List UInt8)
    (p : Pointer) : Except Fault (List UInt8 × Pointer) :=
  match if trimWhiteSpace then skipWhiteSpace encoding p else p with
  | none => .ok ([], none)
  | some p =>
      (if trimWhiteSpace then readCondensed encoding endTag false p
        else readKept encoding endTag p).map fun r => (r.1, behind endTag r.2)

/-- %02X. -/
def upperHex (d : Nat) : UInt8 := if d < 10 then (48 + d).toUInt8 else (55 + d).toUInt8

/-- What a character is printed as. -/
def encodeChar (c : UInt8) : List UInt8 :=
  if c = 38 then bytes "&amp;"
  else if c = 60 then bytes "&lt;"
  else if c = 62 then bytes "&gt;"
  else if c = 34 then bytes "&quot;"
  else if c = 39 then bytes "&apos;"
  else if c < 32 then
    bytes "&#x" ++ [upperHex (c.toNat / 16), upperHex (c.toNat % 16), 59]
  else [c]

/-- The loop of EncodeString. A hexadecimal reference stays as it is, up to its semicolon or
the last character. -/
def encodeFrom (s : List UInt8) : List UInt8 :=
  match s with
  | [] => []
  | c :: rest =>
      if (bytes "&#x").isPrefixOf (c :: rest) then
        c :: rest.take (min (rest.idxOf 59) (rest.length - 1)) ++
          encodeFrom (rest.drop (min (rest.idxOf 59) (rest.length - 1)))
      else encodeChar c ++ encodeFrom rest
termination_by s.length
decreasing_by
  · rw [List.length_drop, List.length_cons]
    omega
  · exact Nat.lt_succ_self _

/-- The loop goes as far as the length of the text as an int: not at all where that is
negative. -/
def encodeString (str : List UInt8) : List UInt8 :=
  let length := str.length % 2 ^ 32
  if length < 2 ^ 31 then encodeFrom (str.take length) else []

end HZRobot.Xml
