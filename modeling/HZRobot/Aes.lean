import HZRobot.AesTables
import HZRobot.Blocks
import Mathlib.Data.UInt

/-!
util/aes.hpp: the block cipher of aes_impl and the strings of class aes. The cipher is a chain
of permutations of the state; the inverse cipher takes them off in the other order. encode
fills the text up to whole blocks and writes the number of filled bytes behind them.
-/

namespace HZRobot.Aes

open Blocks

/-- aes_mode_t. -/
inductive Mode where
  | e_aes_128
  | e_aes_192
  | e_aes_256
  deriving DecidableEq

/-- mode / 8, the size of the key. -/
def Mode.keySize : Mode → Nat
  | .e_aes_128 => 16
  | .e_aes_192 => 24
  | .e_aes_256 => 32

/-- aes_init. -/
def Mode.Nk : Mode → Nat
  | .e_aes_128 => 4
  | .e_aes_192 => 6
  | .e_aes_256 => 8

def Mode.Nr : Mode → Nat
  | .e_aes_128 => 10
  | .e_aes_192 => 12
  | .e_aes_256 => 14

/-- Four bytes: a column, or a word of the key schedule. -/
abbrev Word := Vector UInt8 4

/-- state[4 * Nb], row by row. -/
abbrev State := Vector UInt8 16

section Cipher

def gmult (a b : UInt8) : UInt8 := ((gmultAes.lookup a).getD []).getD b.toNat 0

/-- s_box, or inv_s_box, at the row and the column a byte selects. -/
def substitute (box : List UInt8) (b : UInt8) : UInt8 :=
  box.getD (16 * ((b &&& 0xf0) >>> 4).toNat + (b &&& 0x0f).toNat) 0

def coefAdd (a b : Word) : Word := Vector.ofFn fun i => a[i] ^^^ b[i]

def coefMult (a b : Word) : Word := #v[
  gmult a[0] b[0] ^^^ gmult a[3] b[1] ^^^ gmult a[2] b[2] ^^^ gmult a[1] b[3],
  gmult a[1] b[0] ^^^ gmult a[0] b[1] ^^^ gmult a[3] b[2] ^^^ gmult a[2] b[3],
  gmult a[2] b[0] ^^^ gmult a[1] b[1] ^^^ gmult a[0] b[2] ^^^ gmult a[3] b[3],
  gmult a[3] b[0] ^^^ gmult a[2] b[1] ^^^ gmult a[1] b[2] ^^^ gmult a[0] b[3]]

/-- w is key_buf, cut into its words. -/
def addRoundKey (state : State) (w : List Word) (r : Nat) : State :=
  Vector.ofFn fun n => state[n] ^^^ (w.getD (4 * r + n % 4) 0)[n.val / 4]

def column (state : State) (j : Fin 4) : Word := Vector.ofFn fun i => state[4 * i.val + j.val]

/-- The loop of mix_columns and of inv_mix_columns, for the polynomial a. -/
def mixWith (a : Word) (state : State) : State :=
  Vector.ofFn fun n => (coefMult a (column state ⟨n.val % 4, by omega⟩))[n.val / 4]

def mixColumns : State → State := mixWith #v[0x02, 0x01, 0x01, 0x03]

def invMixColumns : State → State := mixWith #v[0x0e, 0x09, 0x0d, 0x0b]

/-- Row i moves d places to the left. -/
def rotateRow (d i : Nat) (state : State) : State :=
  Vector.ofFn fun n =>
    if n.val / 4 = i then state[4 * (n.val / 4) + (n.val % 4 + d) % 4] else state[n]

/-- One run of the while loop of shift_rows, and of inv_shift_rows. -/
def shiftRow (i : Nat) : State → State := rotateRow 1 i

def invShiftRow (i : Nat) : State → State := rotateRow 3 i

def shiftRows (state : State) : State :=
  [1, 2, 3].foldl (fun state i => (shiftRow i)^[i] state) state

def invShiftRows (state : State) : State :=
  [1, 2, 3].foldl (fun state i => (invShiftRow i)^[i] state) state

def subBytes (state : State) : State := state.map (substitute sBox)

def invSubBytes (state : State) : State := state.map (substitute invSBox)

/-- state[Nb * i + j] = in[i + 4 * j], and the way back. -/
def transpose (state : State) : State :=
  Vector.ofFn fun n => state[n.val / 4 + 4 * (n.val % 4)]

def round (w : List Word) (state : State) (r : Nat) : State :=
  addRoundKey (mixColumns (shiftRows (subBytes state))) w r

def invRound (w : List Word) (r : Nat) (state : State) : State :=
  invMixColumns (addRoundKey (invSubBytes (invShiftRows state)) w r)

def aesCipher (Nr : Nat) (w : List Word) (input : State) : State :=
  let state := addRoundKey (transpose input) w 0
  let state := (List.range' 1 (Nr - 1)).foldl (round w) state
  transpose (addRoundKey (shiftRows (subBytes state)) w Nr)

/-- The loop counts r down from Nr - 1 to 1. -/
def aesInvCipher (Nr : Nat) (w : List Word) (input : State) : State :=
  let state := addRoundKey (transpose input) w Nr
  let state := (List.range' 1 (Nr - 1)).foldr (invRound w) state
  transpose (addRoundKey (invSubBytes (invShiftRows state)) w 0)

end Cipher

section KeySchedule

def subWord (w : Word) : Word := w.map (substitute sBox)

def rotWord (w : Word) : Word := #v[w[1], w[2], w[3], w[0]]

/-- Rcon sets R[0] and returns the whole of R. -/
def rcon (R : Word) (i : Nat) : Word :=
  if i = 1 then R.set 0 0x01
  else if 1 < i then R.set 0 ((fun r => gmult r 0x02)^[i - 2] 0x02)
  else R

/-- The word i of the key schedule, from the words below it. -/
def nextWord (Nk : Nat) (R : Word) (w : List Word) (i : Nat) : Word :=
  let tmp := w.getD (i - 1) 0
  let tmp :=
    if i % Nk = 0 then coefAdd (subWord (rotWord tmp)) (rcon R (i / Nk))
    else if 6 < Nk ∧ i % Nk = 4 then subWord tmp
    else tmp
  coefAdd (w.getD (i - Nk) 0) tmp

def keyWords (Nk : Nat) (key : List UInt8) : List Word :=
  (List.range Nk).map fun i => Vector.ofFn fun c => key.getD (4 * i + c) 0

def aesKeyExpansion (Nk Nr : Nat) (R : Word) (key : List UInt8) : List Word :=
  (List.range' Nk (4 * (Nr + 1) - Nk)).foldl (fun w i => w ++ [nextWord Nk R w i])
    (keyWords Nk key)

/-- std::string::resize. -/
def resize (n : Nat) (s : List UInt8) : List UInt8 := s.take n ++ List.replicate (n - s.length) 0

/-- aes_impl: the mode and the words of key_buf. -/
structure Impl where
  mode : Mode
  w : List Word
  full : w.length = 4 * (mode.Nr + 1)

theorem aesKeyExpansion_length (mode : Mode) (R : Word) (key : List UInt8) :
    (aesKeyExpansion mode.Nk mode.Nr R key).length = 4 * (mode.Nr + 1) := by
  have grows : ∀ (l : List Nat) (w : List Word),
      (l.foldl (fun w i => w ++ [nextWord mode.Nk R w i]) w).length = w.length + l.length := by
    intro l
    induction l with
    | nil => exact fun w => rfl
    | cons i l ih =>
        intro w
        rw [List.foldl_cons, ih, List.length_append, List.length_cons]
        simp only [List.length_cons, List.length_nil]
        omega
  rw [aesKeyExpansion, grows, keyWords, List.length_map, List.length_range, List.length_range']
  cases mode <;> rfl

/-- The constructor. The key schedule is computed before R is given its values: R holds
what the memory held. -/
def Impl.new (mode : Mode) (key : List UInt8) (R : Word) : Impl where
  mode := mode
  w := aesKeyExpansion mode.Nk mode.Nr R (resize mode.keySize key)
  full := aesKeyExpansion_length mode R _

end KeySchedule

section Strings

def toBlock (b : List UInt8) : State := Vector.ofFn fun n => b.getD n 0

def Impl.cipherBlock (impl : Impl) (b : List UInt8) : List UInt8 :=
  (aesCipher impl.mode.Nr impl.w (toBlock b)).toList

def Impl.invCipherBlock (impl : Impl) (b : List UInt8) : List UInt8 :=
  (aesInvCipher impl.mode.Nr impl.w (toBlock b)).toList

/-- The number of bytes the last block is filled up with. -/
def padOf (size : Nat) : Nat := if 0 < size % 16 then 16 - size % 16 else size % 16

/-- aes::encode. -/
def Impl.encode (impl : Impl) (data : List UInt8) : List UInt8 :=
  if data = [] then []
  else
    let pad := padOf data.length
    each 16 impl.cipherBlock (resize (data.length + pad) data) ++ [UInt8.ofNat pad]

/-- decode's checks; the last byte is a signed char. -/
def Accepted (data : List UInt8) : Prop :=
  ¬ (data.length < 16 + 1 ∨ data.length % 16 ≠ 1 ∨ 128 ≤ data.getLastD 0 ∨ 15 < data.getLastD 0)

instance (data : List UInt8) : Decidable (Accepted data) := inferInstanceAs (Decidable (¬ _))

/-- aes::decode. -/
def Impl.decode (impl : Impl) (data : List UInt8) : List UInt8 :=
  if Accepted data then
    let pad := (data.getLastD 0).toNat
    let ret := each 16 impl.invCipherBlock data.dropLast
    ret.take (ret.length - pad)
  else []

end Strings

end HZRobot.Aes
