import HZRobot.XmlPrint
import HZRobot.XmlSafety

/-!
Printed text is read back. Each character is printed as something that is read as one
character, so that the loops over text go from one to the next; names and values stand as
they were.
-/

namespace HZRobot.Xml

theorem getChar_single {encoding : Encoding} {c : UInt8} (one : charLength encoding c = 1)
    (noEntity : c ≠ 38) (rest : List UInt8) :
    getChar encoding (c :: rest) = .ok ([c], some rest) := by
  rw [getChar, if_pos one, if_neg noEntity]

theorem getChar_multiple {encoding : Encoding} {c : UInt8} {tail : List UInt8}
    (length : charLength encoding c = tail.length + 1) (nonempty : tail ≠ []) (rest : List UInt8) :
    getChar encoding (c :: (tail ++ rest)) = .ok (c :: tail, some rest) := by
  have many : charLength encoding c ≠ 1 := by
    have positive := List.length_pos_of_ne_nil nonempty
    omega
  rw [getChar, if_neg many, if_pos (by rw [length]; simp)]
  simp [length]

/-- An ampersand is always a character of its own. -/
theorem getChar_entity (encoding : Encoding) (rest : List UInt8) :
    getChar encoding (38 :: rest) = .ok (getEntity encoding (38 :: rest)) := by
  have one : charLength encoding 38 = 1 := by cases encoding <;> decide
  rw [getChar, if_pos one, if_pos rfl]

theorem getEntity_named {encoding : Encoding} {str : List UInt8} {chr : UInt8}
    (known : (str, chr) ∈ entity) (rest : List UInt8) :
    getEntity encoding (str ++ rest) = ([chr], some rest) := by
  simp only [entity, List.mem_cons, Prod.mk.injEq, List.not_mem_nil, or_false] at known
  rcases known with ⟨rfl, rfl⟩ | ⟨rfl, rfl⟩ | ⟨rfl, rfl⟩ | ⟨rfl, rfl⟩ | ⟨rfl, rfl⟩ <;> rfl

/-- A control character is printed as a reference to itself. -/
theorem getEntity_control (encoding : Encoding) {c : UInt8} (control : c < 32)
    (rest : List UInt8) :
    getEntity encoding
      (bytes "&#x" ++ [upperHex (c.toNat / 16), upperHex (c.toNat % 16), 59] ++ rest) =
        ([c], some rest) := by
  have small : c.toNat < 32 := UInt8.lt_iff_toNat_lt.mp control
  have digits : ∀ n < 32, 59 ∉ [upperHex (n / 16), upperHex (n % 16)] ∧
      referenceValue 16 hexDigit 120 [upperHex (n / 16), upperHex (n % 16)].reverse 1 0 =
        some n := by decide
  obtain ⟨noEnd, value⟩ := digits c.toNat small
  have split := cut_single noEnd rest
  have same : referenced encoding c.toNat = [c] := by
    have byte : c.toNat.toUInt8 = c := UInt8.ofNat_toNat
    unfold referenced convertUTF32ToUTF8
    rw [if_pos (show c.toNat < 0x80 by omega), byte, ite_self]
  show reference encoding 16 hexDigit 120
    ([upperHex (c.toNat / 16), upperHex (c.toNat % 16)] ++ 59 :: rest) = _
  rw [reference, split]
  dsimp only
  rw [value]
  dsimp only
  rw [same]

/-- Every character is read back from what it is printed as. -/
theorem getChar_encodeChar {encoding : Encoding} {c : UInt8} (one : charLength encoding c = 1)
    (rest : List UInt8) : getChar encoding (encodeChar c ++ rest) = .ok ([c], some rest) := by
  have named (str : List UInt8) (t : List UInt8) (amp : str = 38 :: t)
      (known : (str, c) ∈ entity) : getChar encoding (str ++ rest) = .ok ([c], some rest) := by
    rw [← getEntity_named known rest, amp]
    exact getChar_entity encoding _
  unfold encodeChar
  split_ifs with amp lt gt quot apos control
  · exact named _ _ rfl (by rw [amp]; decide)
  · exact named _ _ rfl (by rw [lt]; decide)
  · exact named _ _ rfl (by rw [gt]; decide)
  · exact named _ _ rfl (by rw [quot]; decide)
  · exact named _ _ rfl (by rw [apos]; decide)
  · rw [← getEntity_control encoding control rest]
    exact getChar_entity encoding _
  · exact getChar_single one amp rest

/-- What a character is printed as begins with neither a quote nor a `<`, and with white
space if it is a space. -/
theorem encodeChar_head (c : UInt8) : ∃ d t, encodeChar c = d :: t ∧ (d = 38 ∨ d = c) ∧
    d ≠ 34 ∧ d ≠ 39 ∧ d ≠ 60 ∧ (c ≠ 32 → isSpace d = false) := by
  have amp (t : List UInt8) : ∃ d t', (38 : UInt8) :: t = d :: t' ∧ (d = 38 ∨ d = c) ∧
      d ≠ 34 ∧ d ≠ 39 ∧ d ≠ 60 ∧ (c ≠ 32 → isSpace d = false) :=
    ⟨38, t, rfl, .inl rfl, by decide, by decide, by decide, fun _ => by decide⟩
  unfold encodeChar
  split_ifs with isAmp isLt isGt isQuot isApos control
  · exact amp _
  · exact amp _
  · exact amp _
  · exact amp _
  · exact amp _
  · exact amp _
  · refine ⟨c, [], rfl, .inr rfl, isQuot, isApos, isLt, fun noSpace => ?_⟩
    unfold isSpace
    grind

/-- A lead byte is no ASCII. -/
theorem high_of_lead {encoding : Encoding} {c : UInt8} {tail : List UInt8}
    (length : charLength encoding c = tail.length + 1) (nonempty : tail ≠ []) : 128 ≤ c := by
  have positive := List.length_pos_of_ne_nil nonempty
  unfold charLength utf8ByteTable at length
  grind

theorem encodeChar_high {c : UInt8} (high : 128 ≤ c) : encodeChar c = [c] := by
  unfold encodeChar
  grind

theorem flatMap_high {tail : List UInt8} (high : ∀ b ∈ tail, 128 ≤ b) :
    tail.flatMap encodeChar = tail := by
  induction tail with
  | nil => rfl
  | cons b tail ih =>
      rw [List.flatMap_cons, encodeChar_high (high b List.mem_cons_self),
        ih fun c hc => high c (List.mem_cons_of_mem b hc)]
      rfl

/-- Bytes that are no ASCII are printed as they are. -/
theorem flatMap_multiple {c : UInt8} {tail : List UInt8} (lead : 128 ≤ c)
    (high : ∀ b ∈ tail, 128 ≤ b) (v : List UInt8) :
    (c :: (tail ++ v)).flatMap encodeChar = (c :: tail) ++ v.flatMap encodeChar := by
  rw [← List.cons_append, List.flatMap_append, flatMap_high]
  intro b hb
  rcases List.mem_cons.mp hb with rfl | hb
  · exact lead
  · exact high b hb

/-- Whole characters come one by one: single bytes, and leads with the bytes of their own. -/
theorem stepped_induction {encoding : Encoding} {P : List UInt8 → Prop} (nil : P [])
    (one : ∀ c rest, charLength encoding c = 1 → P rest → P (c :: rest))
    (more : ∀ c tail rest, charLength encoding c = tail.length + 1 → tail ≠ [] →
      (∀ b ∈ tail, 128 ≤ b) → P rest → P (c :: (tail ++ rest)))
    (value : List UInt8) (h : stepped encoding 0 value = true) : P value := by
  have split (n : Nat) (v : List UInt8) (hv : stepped encoding n v = true) :
      ∃ tail rest, v = tail ++ rest ∧ tail.length = n ∧ (∀ b ∈ tail, 128 ≤ b) ∧
        stepped encoding 0 rest = true := by
    induction n generalizing v with
    | zero => exact ⟨[], v, rfl, rfl, nofun, hv⟩
    | succ n ih =>
        cases v with
        | nil => cases hv
        | cons b v =>
            simp only [stepped, Bool.and_eq_true, decide_eq_true_eq] at hv
            obtain ⟨tail, rest, rfl, length, high, steps⟩ := ih v hv.2
            exact ⟨b :: tail, rest, rfl, by simp [length], by simpa [hv.1] using high, steps⟩
  induction n : value.length using Nat.strong_induction_on generalizing value with
  | _ n ih =>
      subst n
      cases value with
      | nil => exact nil
      | cons c value =>
          rw [stepped] at h
          obtain ⟨tail, rest, rfl, length, high, steps⟩ := split _ value h
          have positive := charLength_pos encoding c
          have later := ih rest.length (by simp only [List.length_cons, List.length_append]; omega)
            rest steps rfl
          cases tail with
          | nil => exact one c rest (by simp only [List.length_nil] at length; omega) later
          | cons b tail => exact more c (b :: tail) rest (by omega) (List.cons_ne_nil b tail) high later

/-- A length that is an int is not cut. -/
theorem encodeString_short {value : List UInt8} (short : value.length < 2 ^ 31) :
    encodeString value = encodeFrom value := by
  have whole : value.length % 2 ^ 32 = value.length := Nat.mod_eq_of_lt (by omega)
  rw [encodeString, whole, if_pos short, List.take_length]

/-- A value without references of its own is printed character by character. -/
theorem encodeFrom_plain {value : List UInt8} (h : find (bytes "&#x") value = none) :
    encodeFrom value = value.flatMap encodeChar := by
  induction value with
  | nil => rw [encodeFrom]; rfl
  | cons c rest ih =>
      rw [find_eq_none_iff] at h
      have noReference : ¬ (bytes "&#x").isPrefixOf (c :: rest) = true := fun front =>
        h (List.isPrefixOf_iff_prefix.mp front).isInfix
      have later : find (bytes "&#x") rest = none :=
        find_eq_none_iff.mpr fun inside => h (inside.trans (List.suffix_cons c rest).isInfix)
      rw [encodeFrom, if_neg noReference, ih later, List.flatMap_cons]

theorem stringEqual_single {q c : UInt8} (rest : List UInt8) :
    stringEqual [q] false (c :: rest) = (q == c) := by
  rw [stringEqual_cons]
  exact Bool.and_true _

/-- Of what is printed the loop that keeps white space reads one character and goes on. -/
theorem readKept_printed {encoding : Encoding} {q d : UInt8} {cs t rest : List UInt8}
    (other : d ≠ q) (read : getChar encoding (d :: t ++ rest) = .ok (cs, some rest)) :
    readKept encoding [q] (d :: t ++ rest) =
      (readKept encoding [q] rest).map fun r => (cs ++ r.1, r.2) := by
  have notHere : ¬ stringEqual [q] false (d :: (t ++ rest)) = true := by
    rw [stringEqual_single, beq_iff_eq]
    exact other.symm
  rw [List.cons_append, readKept_char notHere, ← List.cons_append, read]
  rfl

theorem readKept_here {encoding : Encoding} (q : UInt8) (rest : List UInt8) :
    readKept encoding [q] (q :: rest) = .ok ([], some (q :: rest)) := by
  rw [readKept, if_pos (by rw [stringEqual_single]; exact beq_self_eq_true q)]

/-- An encoded value is kept up to the quote behind it. -/
theorem readKept_encoded {encoding : Encoding} {q : UInt8} (isQuote : q = 34 ∨ q = 39)
    (value rest : List UInt8) (steps : stepped encoding 0 value = true) :
    readKept encoding [q] (value.flatMap encodeChar ++ q :: rest) =
      .ok (value, some (q :: rest)) := by
  refine stepped_induction (P := fun v => readKept encoding [q]
    (v.flatMap encodeChar ++ q :: rest) = .ok (v, some (q :: rest))) ?_ ?_ ?_ value steps
  · exact readKept_here q rest
  · intro c v one ih
    obtain ⟨d, t, head, -, notQuot, notApos, -⟩ := encodeChar_head c
    have other : d ≠ q := by
      rcases isQuote with rfl | rfl
      · exact notQuot
      · exact notApos
    have read := getChar_encodeChar one (v.flatMap encodeChar ++ q :: rest)
    rw [head] at read
    rw [List.flatMap_cons, head, List.append_assoc, readKept_printed other read, ih]
    rfl
  · intro c tail v length nonempty high ih
    have lead : 128 ≤ c := high_of_lead length nonempty
    have other : c ≠ q := by
      rcases isQuote with rfl | rfl <;> grind
    have read := getChar_multiple length nonempty (v.flatMap encodeChar ++ q :: rest)
    rw [← List.cons_append] at read
    rw [flatMap_multiple lead high, List.append_assoc, readKept_printed other read, ih]
    rfl

/-- So is a value that is printed as it is. -/
theorem readKept_raw {encoding : Encoding} (value rest : List UInt8) (noQuote : 34 ∉ value)
    (noEntity : 38 ∉ value) (steps : stepped encoding 0 value = true) :
    readKept encoding [34] (value ++ 34 :: rest) = .ok (value, some (34 :: rest)) := by
  refine stepped_induction (P := fun v => 34 ∉ v → 38 ∉ v → readKept encoding [34]
    (v ++ 34 :: rest) = .ok (v, some (34 :: rest))) ?_ ?_ ?_ value steps noQuote noEntity
  · exact fun _ _ => readKept_here 34 rest
  · intro c v one ih noQuote noEntity
    simp only [List.mem_cons, not_or] at noQuote noEntity
    have read := getChar_single one (Ne.symm noEntity.1) (v ++ 34 :: rest)
    rw [List.cons_append, ← List.nil_append (v ++ 34 :: rest), ← List.cons_append,
      readKept_printed (Ne.symm noQuote.1) read, ih noQuote.2 noEntity.2]
    rfl
  · intro c tail v length nonempty high ih noQuote noEntity
    simp only [List.mem_cons, List.mem_append, not_or] at noQuote noEntity
    have read := getChar_multiple length nonempty (v ++ 34 :: rest)
    rw [← List.cons_append] at read
    rw [← List.cons_append, List.append_assoc, readKept_printed (Ne.symm noQuote.1) read,
      ih noQuote.2.2 noEntity.2.2]
    rfl

theorem behind_single {q : UInt8} {rest : List UInt8} (nonempty : rest ≠ []) :
    behind [q] (some (q :: rest)) = some rest := by
  cases rest with
  | nil => exact absurd rfl nonempty
  | cons c rest => rfl

theorem readText_kept {encoding : Encoding} {q : UInt8} {p value rest : List UInt8}
    (kept : readKept encoding [q] p = .ok (value, some (q :: rest))) (nonempty : rest ≠ []) :
    readText encoding false [q] (some p) = .ok (value, some rest) := by
  rw [readText, if_neg Bool.false_ne_true]
  dsimp only
  rw [if_neg Bool.false_ne_true, kept, ← behind_single nonempty]
  rfl

theorem zero_not_mem_encodeChar (c : UInt8) : 0 ∉ encodeChar c := by
  exact forall_byte (P := fun c => 0 ∉ encodeChar c) (by decide +kernel) c

/-- There is no NUL in what a plain value is printed as. -/
theorem print_value {encoding : Encoding} {value : List UInt8}
    (h : plainValue encoding value = true) :
    cstr (encodeString value) = value.flatMap encodeChar ∧ stepped encoding 0 value = true := by
  simp only [plainValue, Bool.and_eq_true, decide_eq_true_eq] at h
  rw [encodeString_short h.1.2, encodeFrom_plain h.1.1]
  refine ⟨cstr_eq_self fun zero => ?_, h.2⟩
  obtain ⟨c, -, inside⟩ := List.mem_flatMap.mp zero
  exact zero_not_mem_encodeChar c inside

/-- What comes behind a name: none of its characters. -/
def EndsName (rest : List UInt8) : Prop := ∃ c t, rest = c :: t ∧ isNameChar c = false

theorem isNameChar_of_mem {name : List UInt8} (h : isName name = true) {c : UInt8}
    (hc : c ∈ name) : isNameChar c = true := by
  cases name with
  | nil => cases hc
  | cons d name =>
      rw [isName, Bool.and_eq_true, List.all_eq_true] at h
      rcases List.mem_cons.mp hc with rfl | inside
      · exact isNameChar_of_start h.1
      · exact h.2 c inside

theorem readName_append {name rest : List UInt8} (h : isName name = true)
    (behind : EndsName rest) : readName (name ++ rest) = (name, some rest) := by
  obtain ⟨c, t, rfl, notChar⟩ := behind
  have chars : ∀ d ∈ name, isNameChar d = true := fun d => isNameChar_of_mem h
  cases name with
  | nil => cases h
  | cons d name =>
      rw [isName, Bool.and_eq_true] at h
      rw [List.cons_append, readName, if_pos h.1, ← List.cons_append,
        List.takeWhile_append_of_pos chars, List.dropWhile_append_of_pos chars,
        List.takeWhile_cons, List.dropWhile_cons, notChar]
      simp

theorem nameChar_bytes {c : UInt8} (h : isNameChar c = true) : 32 < c ∧ c ≠ 34 ∧ c ≠ 38 ∧
    c ≠ 39 ∧ c ≠ 47 ∧ c ≠ 60 ∧ c ≠ 61 ∧ c ≠ 62 ∧ isSpace c = false := by
  have all : ∀ c, isNameChar c = true → 32 < c ∧ c ≠ 34 ∧ c ≠ 38 ∧ c ≠ 39 ∧ c ≠ 47 ∧ c ≠ 60 ∧
      c ≠ 61 ∧ c ≠ 62 ∧ isSpace c = false := forall_byte (by decide +kernel)
  exact all c h

/-- Names are printed as they are. -/
theorem cstr_name {name : List UInt8} (h : isName name = true) : cstr name = name := by
  refine cstr_eq_self fun zero => ?_
  have := (nameChar_bytes (isNameChar_of_mem h zero)).1
  grind

theorem encodeString_name {name : List UInt8} (h : isName name = true)
    (short : name.length < 2 ^ 31) : encodeString name = name := by
  have bytes_of {c : UInt8} (hc : c ∈ name) := nameChar_bytes (isNameChar_of_mem h hc)
  have noReference : find (bytes "&#x") name = none := by
    rw [find_eq_none_iff]
    intro inside
    exact (bytes_of (inside.subset (List.mem_cons_self (a := 38)))).2.2.1 rfl
  have same (v : List UInt8) (hv : v ⊆ name) : v.flatMap encodeChar = v := by
    induction v with
    | nil => rfl
    | cons c v ih =>
        have single : encodeChar c = [c] := by
          have := bytes_of (hv List.mem_cons_self)
          unfold encodeChar
          grind
        rw [List.flatMap_cons, single, ih fun d hd => hv (List.mem_cons_of_mem c hd)]
        rfl
  rw [encodeString_short short, encodeFrom_plain noReference]
  exact same name (List.Subset.refl _)

end HZRobot.Xml
