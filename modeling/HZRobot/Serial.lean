import HZRobot.Decoding
import HZRobot.SerialTypes

/-!
The serialization library: shine_serial_encode_field and shine_serial_decode_field for
every field type, and the member functions SHINE_SERIAL generates. Encoders extend the
string they are given; decoders fill a target from a buffer and move a cursor. Sums
in the bound checks are taken modulo 2^64. Negation and narrowing wrap; a shift by 64
or more, undefined in the source, is logged and gives 0.
-/

namespace HZRobot.Serial

/-- No object is larger; assign and resize throw beyond. -/
def maxSize : Nat := 2 ^ 63 - 1

def add64 (a b : Nat) : Nat := (a + b) % 2 ^ 64

def sub64 (a b : Nat) : Nat := (a + (2 ^ 64 - b % 2 ^ 64)) % 2 ^ 64

def byteAt (data : List UInt8) (i : Nat) : UInt8 := data.getD i 0

inductive Event where
  /-- shine_serial_decode_size is called. -/
  | sizeAt (start : Nat)
  /-- shine_serial_decode_integer is called. -/
  | integerAt (start : Nat)
  | read (start stop : Nat)
  | shift (amount : Nat)
  deriving DecidableEq, Repr

section Encode

/-- string::insert. -/
def insertAt (pos : Nat) (text ret : List UInt8) : List UInt8 :=
  ret.take pos ++ text ++ ret.drop pos

/-- shine_serial_encode_size. -/
def encodeSize (len : Nat) (ret : List UInt8) (back : Bool) (pos : Nat) : List UInt8 :=
  let ch := UInt8.ofNat (len &&& (1 <<< 7 - 1))
  let rest := len >>> 7
  let ch := if rest ≠ 0 then ch ||| 0x80 else ch
  let ret := if back then ret ++ [ch] else insertAt pos [ch] ret
  let pos := if back then pos else pos + 1
  if _h : rest ≠ 0 then encodeSize rest ret back pos else ret
termination_by len
decreasing_by
  simp only [rest, Nat.shiftRight_eq_div_pow, ne_eq, Nat.div_eq_zero_iff] at _h ⊢
  omega

/-- The loop of shine_serial_encode_integer. -/
def encodeGroups (value : Nat) (ret : List UInt8) : List UInt8 :=
  let ch := UInt8.ofNat (value &&& 0x3F)
  let rest := value >>> 6
  let ch := if rest ≠ 0 then ch ||| 0x80 else ch
  let ret := ret ++ [ch]
  if _h : rest ≠ 0 then encodeGroups rest ret else ret
termination_by value
decreasing_by
  simp only [rest, Nat.shiftRight_eq_div_pow, ne_eq, Nat.div_eq_zero_iff] at _h ⊢
  omega

def negative (signed : Bool) {w : Nat} (val : BitVec w) : Bool := signed && val.msb

/-- The conversion to size_t. -/
def widen (signed : Bool) {w : Nat} (val : BitVec w) : BitVec 64 :=
  if signed then val.signExtend 64 else val.zeroExtend 64

/-- The negation takes place in int or wider. -/
def magnitude (signed : Bool) {w : Nat} (val : BitVec w) : BitVec 64 :=
  if negative signed val then widen true (-(val.signExtend (max 32 w))) else widen signed val

def encodeInteger (signed : Bool) {w : Nat} (val : BitVec w) (ret : List UInt8) : List UInt8 :=
  let size := ret.length
  let ret := encodeGroups (magnitude signed val).toNat ret
  if negative signed val then ret.modify size (· ||| 0x40) else ret

def encodeBool (val : Bool) (ret : List UInt8) : List UInt8 := ret ++ [if val then 1 else 0]

def encodeChar (val : UInt8) (ret : List UInt8) : List UInt8 := ret ++ [val]

def encodeFloat {n : Nat} (val : Fin n → UInt8) (ret : List UInt8) : List UInt8 :=
  ret ++ List.ofFn val

def encodeString (val ret : List UInt8) : List UInt8 :=
  encodeSize val.length ret true 0 ++ val

variable {α κ ν : Type}

def encodeEach (encode : α → List UInt8 → List UInt8) (vals : List α) (ret : List UInt8) :
    List UInt8 :=
  vals.foldl (fun ret val => encode val ret) ret

def encodeMap (encodeKey : κ → List UInt8 → List UInt8) (encodeValue : ν → List UInt8 → List UInt8)
    (order : (Finmap fun _ : κ => ν) → List (Sigma fun _ : κ => ν)) (val : Finmap fun _ : κ => ν)
    (ret : List UInt8) : List UInt8 :=
  encodeEach (fun iter ret => encodeValue iter.2 (encodeKey iter.1 ret)) (order val)
    (encodeSize val.entries.card ret true 0)

def encodeSequence (encode : α → List UInt8 → List UInt8) (val : List α) (ret : List UInt8) :
    List UInt8 :=
  encodeEach encode val (encodeSize val.length ret true 0)

/-- Each element is written to a string of its own and inserted in front. -/
def encodeForwardList (encode : α → List UInt8 → List UInt8) (val : List α) (ret : List UInt8) :
    List UInt8 :=
  let begin_ := ret.length
  encodeSize val.length
    (val.foldl (fun ret iter => insertAt begin_ (encode iter []) ret) ret) false begin_

def encodeSet (encode : α → List UInt8 → List UInt8) (order : Finset α → List α) (val : Finset α)
    (ret : List UInt8) : List UInt8 :=
  encodeEach encode (order val) (ret ++ encodeSize val.card [] true 0)

/-- One SHINE_SERIAL_ENCODE_FIELD and the ones behind it. -/
def encodeNextField (encode : α → List UInt8 → List UInt8) (encodeRest : κ → List UInt8 → List UInt8)
    (val : α × κ) (ret : List UInt8) : List UInt8 :=
  encodeRest val.2 (encode val.1 ret)

/-- shine_serial_encode: the length goes in front of the fields when they are there. -/
def encodeStruct (encodeFields : α → List UInt8 → List UInt8) (val : α) (ret : List UInt8) :
    List UInt8 :=
  let old_size_flag := ret.length
  let ret := encodeFields val ret
  encodeSize (ret.length - old_size_flag) ret false old_size_flag

mutual

def encodeField (order : Iteration) : (t : Ty) → Val t → List UInt8 → List UInt8
  | .bool => encodeBool
  | .char => encodeChar
  | .integer kind => encodeInteger kind.signed
  | .floating _ => encodeFloat
  | .string => encodeString
  | .map kind key value =>
      encodeMap (encodeField order key) (encodeField order value) (order.entries kind key value)
  | .sequence _ element => encodeSequence (encodeField order element)
  | .forwardList element => encodeForwardList (encodeField order element)
  | .set kind element => encodeSet (encodeField order element) (order.elements kind element)
  | .struct fields => encodeStruct (encodeFields order fields)

def encodeFields (order : Iteration) : (f : Fields) → FieldVals f → List UInt8 → List UInt8
  | .one field => encodeField order field
  | .cons field rest => encodeNextField (encodeField order field) (encodeFields order rest)

end

end Encode

section Decode

/-- The bits of one byte are or-ed into the value, shifted as a size_t. -/
def orGroup (bits : Nat) (signed : Bool) {w : Nat} (byte : UInt8) (amount : Nat) (val : BitVec w) :
    BitVec w :=
  (widen signed val ||| (BitVec.ofNat 64 (byte.toNat &&& (1 <<< bits - 1))) <<< amount).truncate w

/-- The loop of shine_serial_decode_size and shine_serial_decode_integer, which take 7
and 6 bits of a byte. -/
def varintLoop (bits : Nat) (signed : Bool) {w : Nat} (data : List UInt8) (cost_len avail i : Nat)
    (val : BitVec w) : Decoded Event (BitVec w) :=
  let byte := byteAt data (cost_len + i)
  let val := orGroup bits signed byte (bits * i) val
  let events := [.read (cost_len + i) (cost_len + i + 1), .shift (bits * i)]
  if byte &&& 0x80 ≠ 0 then
    if avail ≤ i + 1 then ⟨.failed, val, cost_len, events⟩
    else (varintLoop bits signed data cost_len avail (i + 1) val).after events
  else ⟨.ok, val, cost_len + (i + 1), events⟩
termination_by avail - i

def decodeSize (data : List UInt8) (cost_len : Nat) : Decoded Event Nat :=
  Decoded.after [.sizeAt cost_len]
    (if data.length < add64 cost_len 1 then ⟨.failed, 0, cost_len, []⟩
    else (varintLoop 7 false data cost_len (sub64 data.length cost_len) 0 (0 : BitVec 64)).map
      BitVec.toNat)

def decodeInteger (signed : Bool) {w : Nat} (data : List UInt8) (val : BitVec w) (cost_len : Nat) :
    Decoded Event (BitVec w) :=
  Decoded.after [.integerAt cost_len]
    (if sub64 data.length cost_len < 1 then ⟨.failed, val, cost_len, []⟩
    else
      let flag := byteAt data cost_len &&& 0x40 > 0
      Decoded.after [.read cost_len (cost_len + 1)]
        ((varintLoop 6 signed data cost_len (sub64 data.length cost_len) 0 (0 : BitVec w)).andThen id
          fun val cost_len => ⟨.ok, if flag then -val else val, cost_len, []⟩))

def decodeBool (data : List UInt8) (val : Bool) (cost_len : Nat) : Decoded Event Bool :=
  if data.length < add64 cost_len 1 then ⟨.failed, val, cost_len, []⟩
  else ⟨.ok, byteAt data cost_len == 1, cost_len + 1, [.read cost_len (cost_len + 1)]⟩

def decodeChar (data : List UInt8) (val : UInt8) (cost_len : Nat) : Decoded Event UInt8 :=
  if data.length < add64 cost_len 1 then ⟨.failed, val, cost_len, []⟩
  else ⟨.ok, byteAt data cost_len, cost_len + 1, [.read cost_len (cost_len + 1)]⟩

def decodeFloat {n : Nat} (data : List UInt8) (val : Fin n → UInt8) (cost_len : Nat) :
    Decoded Event (Fin n → UInt8) :=
  if data.length < add64 cost_len n then ⟨.failed, val, cost_len, []⟩
  else ⟨.ok, fun i => byteAt data (cost_len + i), cost_len + n, [.read cost_len (cost_len + n)]⟩

def decodeString (data val : List UInt8) (cost_len : Nat) : Decoded Event (List UInt8) :=
  (decodeSize data cost_len).andThen (fun _ => val) fun size cost_len =>
    if data.length < add64 size cost_len then ⟨.failed, val, cost_len, []⟩
    else if maxSize < size then ⟨.threw, val, cost_len, []⟩
    else
      ⟨.ok, (data.drop cost_len).take size, cost_len + size, [.read cost_len (cost_len + size)]⟩

variable {α κ ν : Type}

def emplace [DecidableEq κ] (k : κ) (v : ν) (val : Finmap fun _ : κ => ν) :
    Finmap fun _ : κ => ν :=
  if k ∈ val then val else val.insert k v

/-- The loop of the containers without a place for each element: decode and put in. -/
def decodeTimes {σ : Type} (decode : Nat → Decoded Event α) (put : α → σ → σ) :
    Nat → σ → Nat → Decoded Event σ
  | 0, val, cost_len => ⟨.ok, val, cost_len, []⟩
  | n + 1, val, cost_len =>
      (decode cost_len).andThen (fun _ => val) fun v cost_len =>
        decodeTimes decode put n (put v val) cost_len

def decodePair (decodeKey : Nat → Decoded Event κ) (decodeValue : ν → Nat → Decoded Event ν)
    (new : ν) (cost_len : Nat) : Decoded Event (κ × ν) :=
  (decodeKey cost_len).andThen (fun k => (k, new)) fun k cost_len =>
    (decodeValue new cost_len).map fun v => (k, v)

def decodeMap [DecidableEq κ] (decodeKey : Nat → Decoded Event κ)
    (decodeValue : ν → Nat → Decoded Event ν) (new : ν) (data : List UInt8)
    (val : Finmap fun _ : κ => ν) (cost_len : Nat) : Decoded Event (Finmap fun _ : κ => ν) :=
  (decodeSize data cost_len).andThen (fun _ => val) fun size cost_len =>
    decodeTimes (decodePair decodeKey decodeValue new) (fun iter val => emplace iter.1 iter.2 val)
      size val cost_len

def resize (size : Nat) (new : α) (val : List α) : List α :=
  val.take size ++ List.replicate (size - val.length) new

theorem length_resize (size : Nat) (new : α) (val : List α) : (resize size new val).length = size := by
  rw [resize, List.length_append, List.length_take, List.length_replicate]
  omega

def decodeElements (decode : α → Nat → Decoded Event α) :
    List α → Nat → Decoded Event (List α)
  | [], cost_len => ⟨.ok, [], cost_len, []⟩
  | val :: vals, cost_len =>
      (decode val cost_len).andThen (fun val => val :: vals) fun val cost_len =>
        (decodeElements decode vals cost_len).map (val :: ·)

def decodeSequence (decode : α → Nat → Decoded Event α) (new : α) (data : List UInt8)
    (val : List α) (cost_len : Nat) : Decoded Event (List α) :=
  (decodeSize data cost_len).andThen (fun _ => val) fun size cost_len =>
    if maxSize < size then ⟨.threw, val, cost_len, []⟩
    else decodeElements decode (resize size new val) cost_len

def decodeForwardList (decode : Nat → Decoded Event α) (data : List UInt8) (val : List α)
    (cost_len : Nat) : Decoded Event (List α) :=
  (decodeSize data cost_len).andThen (fun _ => val) fun size cost_len =>
    decodeTimes decode (fun v val => v :: val) size val cost_len

def decodeSet [DecidableEq α] (decode : Nat → Decoded Event α) (data : List UInt8)
    (val : Finset α) (cost_len : Nat) : Decoded Event (Finset α) :=
  (decodeSize data cost_len).andThen (fun _ => val) fun size cost_len =>
    decodeTimes decode insert size val cost_len

/-- The last SHINE_SERIAL_DECODE_FIELD and the end of shine_serial_decode. -/
def decodeLastField (decode : α → Nat → Decoded Event α) (flag size : Nat) (val : α)
    (cost_len : Nat) : Decoded Event α :=
  (decode val cost_len).andThen id fun val cost_len =>
    ⟨.ok, val, if size ≤ sub64 cost_len flag then cost_len else flag + size, []⟩

/-- One SHINE_SERIAL_DECODE_FIELD, which returns when size is consumed, and the ones
behind it. -/
def decodeNextField (decode : α → Nat → Decoded Event α)
    (decodeRest : Nat → Nat → κ → Nat → Decoded Event κ) (flag size : Nat) (val : α × κ)
    (cost_len : Nat) : Decoded Event (α × κ) :=
  (decode val.1 cost_len).andThen (fun first => (first, val.2)) fun first cost_len =>
    if size ≤ sub64 cost_len flag then ⟨.ok, (first, val.2), cost_len, []⟩
    else (decodeRest flag size val.2 cost_len).map fun others => (first, others)

/-- shine_serial_decode; decodeFields gets flag and size. -/
def decodeStruct (decodeFields : Nat → Nat → α → Nat → Decoded Event α) (data : List UInt8)
    (val : α) (cost_len : Nat) : Decoded Event α :=
  if sub64 data.length cost_len = 0 then ⟨.ok, val, cost_len, []⟩
  else
    (decodeSize data cost_len).andThen (fun _ => val) fun size flag =>
      if size = 0 then ⟨.ok, val, flag, []⟩
      else if sub64 data.length flag < size then ⟨.failed, val, flag, []⟩
      else decodeFields flag size val flag

mutual

def decodeField (data : List UInt8) : (t : Ty) → Val t → Nat → Decoded Event (Val t)
  | .bool => decodeBool data
  | .char => decodeChar data
  | .integer kind => decodeInteger kind.signed data
  | .floating _ => decodeFloat data
  | .string => decodeString data
  | .map _ key value =>
      decodeMap (decodeField data key (fresh key)) (decodeField data value) (fresh value) data
  | .sequence _ element => decodeSequence (decodeField data element) (fresh element) data
  | .forwardList element => decodeForwardList (decodeField data element (fresh element)) data
  | .set _ element => decodeSet (decodeField data element (fresh element)) data
  | .struct fields => decodeStruct (decodeFields data fields) data

def decodeFields (data : List UInt8) :
    (f : Fields) → Nat → Nat → FieldVals f → Nat → Decoded Event (FieldVals f)
  | .one field => decodeLastField (decodeField data field)
  | .cons field rest => decodeNextField (decodeField data field) (decodeFields data rest)

end

end Decode

end HZRobot.Serial
