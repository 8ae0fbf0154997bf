import HZRobot.CNumbers
import HZRobot.ByteSearch

/-!
string::encode_base64 and decode_base64. Both loops collect a group of bytes and write
it out when it is full; a group that the text ends in is filled up and written in part.
-/

namespace HZRobot.Base64

/-- base64_chars. -/
def base64Chars : List UInt8 :=
  bytes "ABCDEFGHIJKLMNOPQRSTUVWXYZabcdefghijklmnopqrstuvwxyz0123456789+/"

section Encode

/-- char_array_4, from the three bytes of char_array_3. -/
def quad (a b c : UInt8) : List UInt8 :=
  [(a &&& 0xfc) >>> 2, ((a &&& 0x03) <<< 4) + ((b &&& 0xf0) >>> 4),
    ((b &&& 0x0f) <<< 2) + ((c &&& 0xc0) >>> 6), c &&& 0x3f]

def letter (n : UInt8) : UInt8 := base64Chars.getD n.toNat 0

/-- The loop; char_array_3 holds its bytes below i. -/
def encodeLoop : List UInt8 → List UInt8 → List UInt8 → List UInt8 × List UInt8
  | [], char_array_3, ret => (char_array_3, ret)
  | byte :: bytes_to_encode, char_array_3, ret =>
      let char_array_3 := char_array_3 ++ [byte]
      if char_array_3.length = 3 then
        encodeLoop bytes_to_encode []
          (ret ++ (quad (char_array_3.getD 0 0) (char_array_3.getD 1 0) (char_array_3.getD 2 0)).map
            letter)
      else encodeLoop bytes_to_encode char_array_3 ret

/-- The group the text ends in, filled up with zeros, and the padding. -/
def encodeTail (char_array_3 ret : List UInt8) : List UInt8 :=
  let i := char_array_3.length
  if i ≠ 0 then
    let char_array_4 :=
      quad (char_array_3.getD 0 0) (char_array_3.getD 1 0) (char_array_3.getD 2 0)
    ret ++ (char_array_4.take (i + 1)).map letter ++ List.replicate (3 - i) 61
  else ret

/-- string::encode_base64. -/
def encodeBase64 (data : List UInt8) : List UInt8 :=
  encodeTail (encodeLoop data [] []).1 (encodeLoop data [] []).2

end Encode

section Decode

def isBase64 (c : UInt8) : Bool := isAlnum c || c = 43 || c = 47

/-- base64_chars.find as a byte; npos becomes 255. -/
def index (c : UInt8) : UInt8 :=
  match find [c] base64Chars with
  | some i => UInt8.ofNat i
  | none => 255

/-- char_array_3, from the four bytes of char_array_4. -/
def triple (a b c d : UInt8) : List UInt8 :=
  [(a <<< 2) + ((b &&& 0x30) >>> 4), ((b &&& 0xf) <<< 4) + ((c &&& 0x3c) >>> 2),
    ((c &&& 0x3) <<< 6) + d]

def tripleAt (char_array_4 : List UInt8) : List UInt8 :=
  triple (index (char_array_4.getD 0 0)) (index (char_array_4.getD 1 0))
    (index (char_array_4.getD 2 0)) (index (char_array_4.getD 3 0))

/-- The loop; char_array_4 holds its bytes below i, and in_ is an int32. -/
def decodeLoop : List UInt8 → Nat → List UInt8 → List UInt8 → Option (List UInt8 × List UInt8)
  | [], _, char_array_4, ret => some (char_array_4, ret)
  | c :: data, in_, char_array_4, ret =>
      if c ≠ 61 ∧ isBase64 c then
        if 2 ^ 31 ≤ in_ + 1 then none
        else
          let char_array_4 := char_array_4 ++ [c]
          if char_array_4.length = 4 then
            decodeLoop data (in_ + 1) [] (ret ++ tripleAt char_array_4)
          else decodeLoop data (in_ + 1) char_array_4 ret
      else some (char_array_4, ret)

/-- The group the text ends in, filled up with a byte that is no letter. -/
def decodeTail (char_array_4 ret : List UInt8) : List UInt8 :=
  let i := char_array_4.length
  if i ≠ 0 then ret ++ (tripleAt char_array_4).take (i - 1) else ret

/-- string::decode_base64, none when in_ overflows. -/
def decodeBase64 (data : List UInt8) : Option (List UInt8) :=
  (decodeLoop data 0 [] []).map fun end_ => decodeTail end_.1 end_.2

end Decode

section Bits

/-- The parts of a byte that are moved to another one. -/
theorem parts_of_byte : ∀ a : UInt8,
    ((a &&& 0xfc) >>> 2).toNat = a.toNat / 4 ∧ ((a &&& 0x03) <<< 4).toNat = a.toNat % 4 * 16 ∧
    ((a &&& 0xf0) >>> 4).toNat = a.toNat / 16 ∧ ((a &&& 0x0f) <<< 2).toNat = a.toNat % 16 * 4 ∧
    ((a &&& 0xc0) >>> 6).toNat = a.toNat / 64 ∧ (a &&& 0x3f).toNat = a.toNat % 64 := by
  decide +kernel

theorem parts_of_letter : ∀ a : UInt8,
    (a <<< 2).toNat = a.toNat % 64 * 4 ∧ ((a &&& 0x30) >>> 4).toNat = a.toNat / 16 % 4 ∧
    ((a &&& 0xf) <<< 4).toNat = a.toNat % 16 * 16 ∧ ((a &&& 0x3c) >>> 2).toNat = a.toNat / 4 % 16 ∧
    ((a &&& 0x3) <<< 6).toNat = a.toNat % 4 * 64 := by
  decide +kernel

theorem quad_eq (a b c : UInt8) : ∃ p q r s : UInt8, quad a b c = [p, q, r, s] ∧
    p.toNat = a.toNat / 4 ∧ q.toNat = a.toNat % 4 * 16 + b.toNat / 16 ∧
    r.toNat = b.toNat % 16 * 4 + c.toNat / 64 ∧ s.toNat = c.toNat % 64 := by
  obtain ⟨a0, a1, -⟩ := parts_of_byte a
  obtain ⟨-, -, b1, b2, -⟩ := parts_of_byte b
  obtain ⟨-, -, -, -, c2, c3⟩ := parts_of_byte c
  have la := a.toNat_lt
  have lb := b.toNat_lt
  have lc := c.toNat_lt
  refine ⟨_, _, _, _, rfl, a0, ?_, ?_, c3⟩
  · rw [UInt8.toNat_add, a1, b1]
    omega
  · rw [UInt8.toNat_add, b2, c2]
    omega

theorem triple_eq (p q r s : UInt8) : ∃ a b c : UInt8, triple p q r s = [a, b, c] ∧
    a.toNat = p.toNat % 64 * 4 + q.toNat / 16 % 4 ∧
    b.toNat = q.toNat % 16 * 16 + r.toNat / 4 % 16 ∧
    c.toNat = (r.toNat % 4 * 64 + s.toNat) % 256 := by
  obtain ⟨p0, -⟩ := parts_of_letter p
  obtain ⟨-, q0, q1, -⟩ := parts_of_letter q
  obtain ⟨-, -, -, r1, r2⟩ := parts_of_letter r
  refine ⟨_, _, _, rfl, ?_, ?_, ?_⟩
  · rw [UInt8.toNat_add, p0, q0]
    omega
  · rw [UInt8.toNat_add, q1, r1]
    omega
  · rw [UInt8.toNat_add, r2]

/-- A letter is in the alphabet and is found where it was taken from. -/
theorem letter_found {n : UInt8} (small : n.toNat < 64) :
    index (letter n) = n ∧ letter n ≠ 61 ∧ isBase64 (letter n) = true ∧
      letter n ∈ base64Chars := by
  have all : ∀ k < 64, index (letter (UInt8.ofNat k)) = UInt8.ofNat k ∧
      letter (UInt8.ofNat k) ≠ 61 ∧ isBase64 (letter (UInt8.ofNat k)) = true ∧
      letter (UInt8.ofNat k) ∈ base64Chars := by
    decide +kernel
  have this := all n.toNat small
  rwa [UInt8.ofNat_toNat] at this

end Bits

section Groups

variable {α : Type*}

/-- A list taken three elements at a time. -/
theorem by_threes {motive : List α → Prop} (nil : motive []) (one : ∀ a, motive [a])
    (two : ∀ a b, motive [a, b]) (more : ∀ a b c l, motive l → motive (a :: b :: c :: l))
    (l : List α) : motive l := by
  induction hn : l.length using Nat.strongRecOn generalizing l with
  | ind n ih =>
      rcases l with _ | ⟨a, _ | ⟨b, _ | ⟨c, l⟩⟩⟩
      · exact nil
      · exact one a
      · exact two a b
      · simp only [List.length_cons] at hn
        exact more a b c l (ih l.length (by omega) l rfl)

end Groups

section RoundTrip

theorem encodeLoop_append (data group front ret : List UInt8) :
    encodeLoop data group (front ++ ret) =
      ((encodeLoop data group ret).1, front ++ (encodeLoop data group ret).2) := by
  induction data generalizing group ret with
  | nil => rfl
  | cons byte data ih =>
      simp only [encodeLoop]
      split
      · rw [List.append_assoc, ih]
      · exact ih _ _

theorem encodeTail_append (group front ret : List UInt8) :
    encodeTail group (front ++ ret) = front ++ encodeTail group ret := by
  simp only [encodeTail]
  split
  · simp only [List.append_assoc]
  · rfl

theorem encode_more (a b c : UInt8) (data : List UInt8) :
    encodeBase64 (a :: b :: c :: data) = (quad a b c).map letter ++ encodeBase64 data := by
  have loop : encodeLoop (a :: b :: c :: data) [] [] =
      encodeLoop data [] ((quad a b c).map letter ++ []) := by
    rw [List.append_nil]
    rfl
  rw [encodeBase64, loop, encodeLoop_append, encodeTail_append, encodeBase64]

theorem encode_one (a : UInt8) :
    encodeBase64 [a] = ((quad a 0 0).take 2).map letter ++ [61, 61] := rfl

theorem encode_two (a b : UInt8) :
    encodeBase64 [a, b] = ((quad a b 0).take 3).map letter ++ [61] := rfl

theorem decodeLoop_letter {n : UInt8} (small : n.toNat < 64) {in_ : Nat} (room : in_ + 1 < 2 ^ 31)
    (data group ret : List UInt8) :
    decodeLoop (letter n :: data) in_ group ret =
      if group.length = 3 then decodeLoop data (in_ + 1) [] (ret ++ tripleAt (group ++ [letter n]))
      else decodeLoop data (in_ + 1) (group ++ [letter n]) ret := by
  obtain ⟨-, noPadding, letter_, -⟩ := letter_found small
  simp only [decodeLoop, noPadding, letter_, ne_eq, not_false_eq_true, and_self, if_true,
    Nat.not_le_of_lt room, if_false, List.length_append, List.length_singleton,
    Nat.reduceEqDiff]

theorem decodeLoop_padding (in_ : Nat) (data group ret : List UInt8) :
    decodeLoop (61 :: data) in_ group ret = some (group, ret) := by
  rw [decodeLoop, if_neg (by simp)]

/-- A full group comes back. -/
theorem decodeLoop_quad (a b c : UInt8) {in_ : Nat} (room : in_ + 4 < 2 ^ 31)
    (data ret : List UInt8) :
    decodeLoop ((quad a b c).map letter ++ data) in_ [] ret =
      decodeLoop data (in_ + 4) [] (ret ++ [a, b, c]) := by
  obtain ⟨p, q, r, s, letters, hp, hq, hr, hs⟩ := quad_eq a b c
  obtain ⟨a', b', c', back, ha, hb, hc⟩ := triple_eq p q r s
  have la := a.toNat_lt
  have lb := b.toNat_lt
  have lc := c.toNat_lt
  have sp : p.toNat < 64 := by omega
  have sq : q.toNat < 64 := by omega
  have sr : r.toNat < 64 := by omega
  have ss : s.toNat < 64 := by omega
  have group : tripleAt [letter p, letter q, letter r, letter s] = triple p q r s := by
    simp only [tripleAt, List.getD_cons_zero, List.getD_cons_succ, (letter_found sp).1,
      (letter_found sq).1, (letter_found sr).1, (letter_found ss).1]
  have same : [a', b', c'] = [a, b, c] := by
    rw [UInt8.toNat_inj.mp (ha.trans (by omega) : a'.toNat = a.toNat),
      UInt8.toNat_inj.mp (hb.trans (by omega) : b'.toNat = b.toNat),
      UInt8.toNat_inj.mp (hc.trans (by omega) : c'.toNat = c.toNat)]
  rw [letters]
  simp only [List.map_cons, List.map_nil, List.cons_append, List.nil_append]
  rw [decodeLoop_letter sp (by omega), if_neg (by simp), decodeLoop_letter sq (by omega),
    if_neg (by simp), decodeLoop_letter sr (by omega), if_neg (by simp),
    decodeLoop_letter ss (by omega), if_pos (by simp)]
  simp only [List.nil_append, List.cons_append, group, back, same]

theorem decode_one (a : UInt8) {in_ : Nat} (room : in_ + 4 < 2 ^ 31) (ret : List UInt8) :
    (decodeLoop (encodeBase64 [a]) in_ [] ret).map (fun end_ => decodeTail end_.1 end_.2) =
      some (ret ++ [a]) := by
  obtain ⟨p, q, r, s, letters, hp, hq, -, -⟩ := quad_eq a 0 0
  obtain ⟨a', b', c', back, ha, -, -⟩ := triple_eq p q 255 255
  have la := a.toNat_lt
  have zero : (0 : UInt8).toNat = 0 := rfl
  have sp : p.toNat < 64 := by omega
  have sq : q.toNat < 64 := by omega
  have filler : index 0 = 255 := by decide +kernel
  have group : tripleAt [letter p, letter q] = triple p q 255 255 := by
    simp only [tripleAt, List.getD_cons_zero, List.getD_cons_succ, List.getD_nil,
      (letter_found sp).1, (letter_found sq).1, filler]
  have same : a' = a := UInt8.toNat_inj.mp (ha.trans (by omega))
  rw [encode_one, letters]
  simp only [List.take_succ_cons, List.take_zero, List.map_cons, List.map_nil, List.cons_append,
    List.nil_append]
  rw [decodeLoop_letter sp (by omega), if_neg (by simp), decodeLoop_letter sq (by omega),
    if_neg (by simp), decodeLoop_padding]
  simp only [Option.map_some, List.nil_append, List.cons_append, decodeTail, group, back, same]
  rfl

theorem decode_two (a b : UInt8) {in_ : Nat} (room : in_ + 4 < 2 ^ 31) (ret : List UInt8) :
    (decodeLoop (encodeBase64 [a, b]) in_ [] ret).map (fun end_ => decodeTail end_.1 end_.2) =
      some (ret ++ [a, b]) := by
  obtain ⟨p, q, r, s, letters, hp, hq, hr, -⟩ := quad_eq a b 0
  obtain ⟨a', b', c', back, ha, hb, -⟩ := triple_eq p q r 255
  have la := a.toNat_lt
  have lb := b.toNat_lt
  have zero : (0 : UInt8).toNat = 0 := rfl
  have sp : p.toNat < 64 := by omega
  have sq : q.toNat < 64 := by omega
  have sr : r.toNat < 64 := by omega
  have filler : index 0 = 255 := by decide +kernel
  have group : tripleAt [letter p, letter q, letter r] = triple p q r 255 := by
    simp only [tripleAt, List.getD_cons_zero, List.getD_cons_succ, List.getD_nil,
      (letter_found sp).1, (letter_found sq).1, (letter_found sr).1, filler]
  have first : a' = a := UInt8.toNat_inj.mp (ha.trans (by omega))
  have second : b' = b := UInt8.toNat_inj.mp (hb.trans (by omega))
  rw [encode_two, letters]
  simp only [List.take_succ_cons, List.take_zero, List.map_cons, List.map_nil, List.cons_append,
    List.nil_append]
  rw [decodeLoop_letter sp (by omega), if_neg (by simp), decodeLoop_letter sq (by omega),
    if_neg (by simp), decodeLoop_letter sr (by omega), if_neg (by simp), decodeLoop_padding]
  simp only [Option.map_some, List.nil_append, List.cons_append, decodeTail, group, back, first,
    second]
  rfl

/-- What the loop makes of an encoded text and the group it ends in. -/
theorem decode_from (d : List UInt8) (in_ : Nat) (room : in_ + 4 * ((d.length + 2) / 3) < 2 ^ 31)
    (ret : List UInt8) :
    (decodeLoop (encodeBase64 d) in_ [] ret).map (fun end_ => decodeTail end_.1 end_.2) =
      some (ret ++ d) := by
  induction d using by_threes generalizing in_ ret with
  | nil => simp [encodeBase64, encodeLoop, encodeTail, decodeLoop, decodeTail]
  | one a => exact decode_one a (by simpa using room) ret
  | two a b => exact decode_two a b (by simpa using room) ret
  | more a b c l ih =>
      simp only [List.length_cons] at room
      rw [encode_more, decodeLoop_quad a b c (by omega), ih _ (by omega), List.append_assoc]
      rfl

theorem length_quad (a b c : UInt8) : (quad a b c).length = 4 := rfl

theorem encode_length (d : List UInt8) : (encodeBase64 d).length = 4 * ((d.length + 2) / 3) := by
  induction d using by_threes with
  | nil => rfl
  | one a => simp [encode_one, length_quad]
  | two a b => simp [encode_two, length_quad]
  | more a b c l ih =>
      simp only [encode_more, List.length_append, List.length_map, length_quad, ih,
        List.length_cons]
      omega

theorem letters_in_alphabet (a b c : UInt8) : ∀ l ∈ (quad a b c).map letter, l ∈ base64Chars := by
  obtain ⟨p, q, r, s, letters, hp, hq, hr, hs⟩ := quad_eq a b c
  have la := a.toNat_lt
  have lb := b.toNat_lt
  have lc := c.toNat_lt
  intro l mem
  obtain ⟨n, inQuad, rfl⟩ := List.mem_map.mp mem
  refine (letter_found ?_).2.2.2
  rw [letters] at inQuad
  simp only [List.mem_cons, List.not_mem_nil, or_false] at inQuad
  rcases inQuad with rfl | rfl | rfl | rfl <;> omega

/-- Letters, then the padding that fills the last group. -/
theorem encode_shape (d : List UInt8) : ∃ body,
    encodeBase64 d = body ++ List.replicate ((3 - d.length % 3) % 3) 61 ∧
      ∀ l ∈ body, l ∈ base64Chars := by
  induction d using by_threes with
  | nil => exact ⟨[], rfl, by simp⟩
  | one a =>
      refine ⟨((quad a 0 0).take 2).map letter, rfl, fun l mem => ?_⟩
      rw [List.map_take] at mem
      exact letters_in_alphabet a 0 0 l (List.mem_of_mem_take mem)
  | two a b =>
      refine ⟨((quad a b 0).take 3).map letter, rfl, fun l mem => ?_⟩
      rw [List.map_take] at mem
      exact letters_in_alphabet a b 0 l (List.mem_of_mem_take mem)
  | more a b c l ih =>
      obtain ⟨body, whole, inside⟩ := ih
      refine ⟨(quad a b c).map letter ++ body, ?_, fun x mem => ?_⟩
      · have same : (a :: b :: c :: l).length % 3 = l.length % 3 := by
          simp only [List.length_cons]
          omega
        rw [encode_more, whole, same, List.append_assoc]
      · rcases List.mem_append.mp mem with here | later
        · exact letters_in_alphabet a b c x here
        · exact inside x later

/-- decode_base64 gives back what encode_base64 was given, whose text is letters of the
alphabet and padding to a multiple of four. -/
theorem base64_round_trip (d : List UInt8) (small : d.length < 2 ^ 30) :
    decodeBase64 (encodeBase64 d) = some d ∧
      (encodeBase64 d).length = 4 * ((d.length + 2) / 3) ∧
      ∃ body, encodeBase64 d = body ++ List.replicate ((3 - d.length % 3) % 3) 61 ∧
        ∀ l ∈ body, l ∈ base64Chars := by
  refine ⟨?_, encode_length d, encode_shape d⟩
  have all := decode_from d 0 (by omega) []
  rwa [List.nil_append] at all

end RoundTrip

theorem hello_round_trip :
    decodeBase64 (encodeBase64 (bytes "hello")) = some (bytes "hello") ∧
      (encodeBase64 (bytes "hello")).length = 8 :=
  ⟨(base64_round_trip (bytes "hello") (by decide)).1,
    (base64_round_trip (bytes "hello") (by decide)).2.1⟩

example : encodeBase64 (bytes "hello") = bytes "aGVsbG8=" := by decide +kernel

end HZRobot.Base64
