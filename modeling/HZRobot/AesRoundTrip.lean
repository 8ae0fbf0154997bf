import HZRobot.Aes
import Mathlib.Data.Finite.Prod
import Mathlib.Data.Fintype.Card
import Mathlib.Data.List.GetD
import Mathlib.Tactic.IntervalCases

/-!
decode takes back what encode wrote, under every key schedule; what the inverse cipher reads
is what the cipher wrote and the other way round, and the texts that encode can have written
are told by decode's checks and the filled bytes.
-/

namespace HZRobot.Aes

open Blocks

section Bytes

/-- A table with 256 entries, read at a byte. -/
private theorem table_getD {f : UInt8 → UInt8} (b : UInt8) :
    ((List.range 256).map fun n => f (UInt8.ofNat n)).getD b.toNat 0 = f b := by
  have inside : b.toNat < ((List.range 256).map fun n => f (UInt8.ofNat n)).length := by
    simpa using b.toNat_lt
  rw [List.getD_eq_getElem _ _ inside, List.getElem_map, List.getElem_range, UInt8.ofNat_toNat]

private theorem nibbles (b : UInt8) :
    16 * ((b &&& 0xf0) >>> 4).toNat + (b &&& 0x0f).toNat = b.toNat := by
  have table : (List.range 256).all fun n =>
      16 * ((UInt8.ofNat n &&& 0xf0) >>> 4).toNat + (UInt8.ofNat n &&& 0x0f).toNat == n := by
    decide +kernel
  have at_b := List.all_eq_true.mp table b.toNat (List.mem_range.mpr b.toNat_lt)
  simpa using at_b

private theorem substitute_substitute {box back : List UInt8} (size : box.length = 256)
    (table : box.map (fun c => back.getD c.toNat 0) = (List.range 256).map fun n => UInt8.ofNat n)
    (b : UInt8) : substitute back (substitute box b) = b := by
  have inside : b.toNat < box.length := size ▸ b.toNat_lt
  have entry := table_getD (f := id) b
  simp only [id_eq] at entry
  rw [← table, List.getD_eq_getElem _ _ (by simpa using inside), List.getElem_map] at entry
  rw [substitute, substitute, nibbles, nibbles, List.getD_eq_getElem _ _ inside]
  exact entry

theorem invSBox_sBox (b : UInt8) : substitute invSBox (substitute sBox b) = b :=
  substitute_substitute (by decide +kernel) (by decide +kernel) b

/-- Multiplication by two in the field of the tables. -/
def xtime (b : UInt8) : UInt8 := (b <<< 1) ^^^ (if b.toBitVec.msb then 0x1b else 0)

theorem xtime_xor (a b : UInt8) : xtime (a ^^^ b) = xtime a ^^^ xtime b := by
  have shift : (a ^^^ b) <<< 1 = a <<< 1 ^^^ b <<< 1 := by
    apply UInt8.toBitVec_inj.mp
    simp only [UInt8.toBitVec_shiftLeft, UInt8.toBitVec_xor]
    exact BitVec.shiftLeft_xor_distrib ..
  have carry : ∀ p q : Bool, (if p ^^ q then (0x1b : UInt8) else 0) =
      (if p then 0x1b else 0) ^^^ (if q then 0x1b else 0) := by decide
  simp only [xtime, UInt8.toBitVec_xor, BitVec.msb_xor, shift, carry]
  ac_rfl

private theorem gmult_of_row {a : UInt8} {f : UInt8 → UInt8}
    (row : gmultAes.lookup a = some ((List.range 256).map fun n => f (UInt8.ofNat n)))
    (b : UInt8) : gmult a b = f b := by
  rw [gmult, row, Option.getD_some, table_getD]

/-- The rows of the table the two polynomials select, as sums of doublings. -/
theorem gmult_rows (b : UInt8) :
    gmult 0x01 b = b ∧ gmult 0x02 b = xtime b ∧ gmult 0x03 b = xtime b ^^^ b ∧
      gmult 0x09 b = xtime (xtime (xtime b)) ^^^ b ∧
      gmult 0x0b b = xtime (xtime (xtime b)) ^^^ xtime b ^^^ b ∧
      gmult 0x0d b = xtime (xtime (xtime b)) ^^^ xtime (xtime b) ^^^ b ∧
      gmult 0x0e b = xtime (xtime (xtime b)) ^^^ xtime (xtime b) ^^^ xtime b := by
  refine ⟨?_, ?_, ?_, ?_, ?_, ?_, ?_⟩
  · exact gmult_of_row (f := fun b => b) (by decide +kernel) b
  · exact gmult_of_row (f := fun b => xtime b) (by decide +kernel) b
  · exact gmult_of_row (f := fun b => xtime b ^^^ b) (by decide +kernel) b
  · exact gmult_of_row (f := fun b => xtime (xtime (xtime b)) ^^^ b) (by decide +kernel) b
  · exact gmult_of_row (f := fun b => xtime (xtime (xtime b)) ^^^ xtime b ^^^ b)
      (by decide +kernel) b
  · exact gmult_of_row (f := fun b => xtime (xtime (xtime b)) ^^^ xtime (xtime b) ^^^ b)
      (by decide +kernel) b
  · exact gmult_of_row (f := fun b => xtime (xtime (xtime b)) ^^^ xtime (xtime b) ^^^ xtime b)
      (by decide +kernel) b

/-- The coefficients of the two polynomials. -/
def Coefficient (c : UInt8) : Prop := c ∈ [0x01, 0x02, 0x03, 0x09, 0x0b, 0x0d, 0x0e]

instance (c : UInt8) : Decidable (Coefficient c) := inferInstanceAs (Decidable (_ ∈ _))

theorem gmult_xor {c : UInt8} (h : Coefficient c) (a b : UInt8) :
    gmult c (a ^^^ b) = gmult c a ^^^ gmult c b := by
  obtain ⟨a1, a2, a3, a9, ab, ad, ae⟩ := gmult_rows a
  obtain ⟨b1, b2, b3, b9, bb, bd, be⟩ := gmult_rows b
  obtain ⟨s1, s2, s3, s9, sb, sd, se⟩ := gmult_rows (a ^^^ b)
  simp only [Coefficient, List.mem_cons, List.not_mem_nil, or_false] at h
  rcases h with rfl | rfl | rfl | rfl | rfl | rfl | rfl
  · rw [s1, a1, b1]
  · rw [s2, a2, b2, xtime_xor]
  · rw [s3, a3, b3, xtime_xor]; ac_rfl
  · rw [s9, a9, b9]; simp only [xtime_xor]; ac_rfl
  · rw [sb, ab, bb]; simp only [xtime_xor]; ac_rfl
  · rw [sd, ad, bd]; simp only [xtime_xor]; ac_rfl
  · rw [se, ae, be]; simp only [xtime_xor]; ac_rfl

theorem xor_cancel_left (a b : UInt8) : a ^^^ (a ^^^ b) = b := by
  rw [← UInt8.xor_assoc, UInt8.xor_self, UInt8.zero_xor]

theorem xor_left_comm (a b c : UInt8) : a ^^^ (b ^^^ c) = b ^^^ (a ^^^ c) := by ac_rfl

/-- The products of the two polynomials, coefficient by coefficient. -/
theorem polynomials_inverse (b : UInt8) :
    (gmult 0x0e (gmult 0x02 b) ^^^ gmult 0x0b (gmult 0x01 b) ^^^ gmult 0x0d (gmult 0x01 b) ^^^
      gmult 0x09 (gmult 0x03 b) = b) ∧
    (gmult 0x0e (gmult 0x03 b) ^^^ gmult 0x0b (gmult 0x02 b) ^^^ gmult 0x0d (gmult 0x01 b) ^^^
      gmult 0x09 (gmult 0x01 b) = 0) ∧
    (gmult 0x0e (gmult 0x01 b) ^^^ gmult 0x0b (gmult 0x03 b) ^^^ gmult 0x0d (gmult 0x02 b) ^^^
      gmult 0x09 (gmult 0x01 b) = 0) ∧
    (gmult 0x0e (gmult 0x01 b) ^^^ gmult 0x0b (gmult 0x01 b) ^^^ gmult 0x0d (gmult 0x03 b) ^^^
      gmult 0x09 (gmult 0x02 b) = 0) := by
  have rows1 (x : UInt8) := (gmult_rows x).1
  have rows2 (x : UInt8) := (gmult_rows x).2.1
  have rows3 (x : UInt8) := (gmult_rows x).2.2.1
  have rows9 (x : UInt8) := (gmult_rows x).2.2.2.1
  have rowsb (x : UInt8) := (gmult_rows x).2.2.2.2.1
  have rowsd (x : UInt8) := (gmult_rows x).2.2.2.2.2.1
  have rowse (x : UInt8) := (gmult_rows x).2.2.2.2.2.2
  simp only [rows1, rows2, rows3, rows9, rowsb, rowsd, rowse, xtime_xor, UInt8.xor_assoc,
    xor_left_comm, UInt8.xor_comm, xor_cancel_left, UInt8.xor_self, UInt8.xor_zero, and_self]

end Bytes

section Layers

/-- One entry of a column behind both polynomials. -/
private theorem mixed_entry (b0 b1 b2 b3 : UInt8) :
    gmult 0x0e (gmult 0x02 b0 ^^^ gmult 0x03 b1 ^^^ gmult 0x01 b2 ^^^ gmult 0x01 b3) ^^^
      gmult 0x0b (gmult 0x01 b0 ^^^ gmult 0x02 b1 ^^^ gmult 0x03 b2 ^^^ gmult 0x01 b3) ^^^
      gmult 0x0d (gmult 0x01 b0 ^^^ gmult 0x01 b1 ^^^ gmult 0x02 b2 ^^^ gmult 0x03 b3) ^^^
      gmult 0x09 (gmult 0x03 b0 ^^^ gmult 0x01 b1 ^^^ gmult 0x01 b2 ^^^ gmult 0x02 b3) = b0 := by
  have linear {c : UInt8} (h : Coefficient c) (a b d e : UInt8) :
      gmult c (a ^^^ b ^^^ d ^^^ e) = gmult c a ^^^ gmult c b ^^^ gmult c d ^^^ gmult c e := by
    rw [gmult_xor h, gmult_xor h, gmult_xor h]
  obtain ⟨p0, -, -, -⟩ := polynomials_inverse b0
  obtain ⟨-, p1, -, -⟩ := polynomials_inverse b1
  obtain ⟨-, -, p2, -⟩ := polynomials_inverse b2
  obtain ⟨-, -, -, p3⟩ := polynomials_inverse b3
  have sorted : ∀ e0 e1 e2 e3 f0 f1 f2 f3 g0 g1 g2 g3 h0 h1 h2 h3 : UInt8,
      e0 ^^^ e1 ^^^ e2 ^^^ e3 ^^^ (f0 ^^^ f1 ^^^ f2 ^^^ f3) ^^^ (g0 ^^^ g1 ^^^ g2 ^^^ g3) ^^^
        (h0 ^^^ h1 ^^^ h2 ^^^ h3) =
      e0 ^^^ f0 ^^^ g0 ^^^ h0 ^^^ (e1 ^^^ f1 ^^^ g1 ^^^ h1) ^^^ (e2 ^^^ f2 ^^^ g2 ^^^ h2) ^^^
        (e3 ^^^ f3 ^^^ g3 ^^^ h3) := by
    intros
    ac_rfl
  rw [linear (by decide), linear (by decide), linear (by decide), linear (by decide), sorted,
    p0, p1, p2, p3]
  simp only [UInt8.xor_zero]

theorem coefMult_coefMult (b : Word) :
    coefMult #v[0x0e, 0x09, 0x0d, 0x0b] (coefMult #v[0x02, 0x01, 0x01, 0x03] b) = b := by
  have e0 := mixed_entry b[0] b[1] b[2] b[3]
  have e1 := mixed_entry b[1] b[2] b[3] b[0]
  have e2 := mixed_entry b[2] b[3] b[0] b[1]
  have e3 := mixed_entry b[3] b[0] b[1] b[2]
  apply Vector.ext
  intro i hi
  interval_cases i
  · exact e0
  · refine Eq.trans ?_ e1
    simp only [coefMult, Vector.getElem_mk, List.getElem_toArray, List.getElem_cons_zero,
      List.getElem_cons_succ]
    ac_rfl
  · refine Eq.trans ?_ e2
    simp only [coefMult, Vector.getElem_mk, List.getElem_toArray, List.getElem_cons_zero,
      List.getElem_cons_succ]
    ac_rfl
  · refine Eq.trans ?_ e3
    simp only [coefMult, Vector.getElem_mk, List.getElem_toArray, List.getElem_cons_zero,
      List.getElem_cons_succ]
    ac_rfl

theorem column_mixWith (a : Word) (state : State) (j : Fin 4) :
    column (mixWith a state) j = coefMult a (column state j) := by
  apply Vector.ext
  intro i hi
  have col : (4 * i + j.val) % 4 = j.val := by omega
  have row : (4 * i + j.val) / 4 = i := by omega
  simp only [column, mixWith, Vector.getElem_ofFn, col, row]

theorem invMixColumns_mixColumns (state : State) : invMixColumns (mixColumns state) = state := by
  apply Vector.ext
  intro n hn
  have cell : 4 * (n / 4) + n % 4 = n := Nat.div_add_mod n 4
  rw [invMixColumns, mixWith, Vector.getElem_ofFn]
  simp only [mixColumns, column_mixWith, coefMult_coefMult]
  simp only [column, Vector.getElem_ofFn, cell]

theorem invSubBytes_subBytes (state : State) : invSubBytes (subBytes state) = state := by
  apply Vector.ext
  intro n hn
  simp only [invSubBytes, subBytes, Vector.getElem_map, invSBox_sBox]

theorem rotateRow_iterate (d i k : Nat) (state : State) {n : Nat} (hn : n < 16) :
    ((rotateRow d i)^[k] state)[n] =
      if n / 4 = i then state[4 * (n / 4) + (n % 4 + k * d) % 4] else state[n] := by
  induction k generalizing n with
  | zero =>
      have cell : 4 * (n / 4) + (n % 4 + 0 * d) % 4 = n := by omega
      simp only [Function.iterate_zero, id_eq, cell, ite_self]
  | succ k ih =>
      rw [Function.iterate_succ_apply', rotateRow, Vector.getElem_ofFn]
      dsimp only
      split
      · case isTrue row =>
          subst row
          have row' : (4 * (n / 4) + (n % 4 + d) % 4) / 4 = n / 4 := by omega
          have cell : ((4 * (n / 4) + (n % 4 + d) % 4) % 4 + k * d) % 4 =
              (n % 4 + (k + 1) * d) % 4 := by
            rw [Nat.add_mul, Nat.one_mul]
            omega
          rw [ih (by omega), if_pos row']
          simp only [row', cell]
      · case isFalse row =>
          simp only [Fin.getElem_fin, ih, if_neg row]

/-- Row i of what the three while loops leave: i times d places to the left. -/
theorem rotateRows_get (d : Nat) (state : State) {n : Nat} (hn : n < 16) :
    ([1, 2, 3].foldl (fun state i => (rotateRow d i)^[i] state) state)[n] =
      state[4 * (n / 4) + (n % 4 + (n / 4) * d) % 4] := by
  have rows : n / 4 = 0 ∨ n / 4 = 1 ∨ n / 4 = 2 ∨ n / 4 = 3 := by omega
  have inRow (x : Nat) : (4 * (n / 4) + x % 4) / 4 = n / 4 := by omega
  simp only [List.foldl_cons, List.foldl_nil, rotateRow_iterate, inRow]
  rcases rows with row | row | row | row
  · have first : n % 4 = n := by omega
    simp [row, first]
  · simp [row]
  · simp [row]
  · simp [row]

theorem invShiftRows_shiftRows (state : State) : invShiftRows (shiftRows state) = state := by
  apply Vector.ext
  intro n hn
  have cell : 4 * ((4 * (n / 4) + (n % 4 + n / 4 * 3) % 4) / 4) +
      ((4 * (n / 4) + (n % 4 + n / 4 * 3) % 4) % 4 +
        (4 * (n / 4) + (n % 4 + n / 4 * 3) % 4) / 4 * 1) % 4 = n := by omega
  have rotated := rotateRows_get 3 (shiftRows state) hn
  rw [show invShiftRows (shiftRows state) = _ from rfl]
  refine rotated.trans ((rotateRows_get 1 state _).trans ?_)
  simp only [cell]

theorem addRoundKey_addRoundKey (state : State) (w : List Word) (r : Nat) :
    addRoundKey (addRoundKey state w r) w r = state := by
  apply Vector.ext
  intro n hn
  simp only [addRoundKey, Vector.getElem_ofFn, UInt8.xor_assoc, UInt8.xor_self, UInt8.xor_zero,
    Fin.getElem_fin]

theorem transpose_transpose (state : State) : transpose (transpose state) = state := by
  apply Vector.ext
  intro n hn
  have cell : (n / 4 + 4 * (n % 4)) / 4 + 4 * ((n / 4 + 4 * (n % 4)) % 4) = n := by omega
  simp only [transpose, Vector.getElem_ofFn, cell]

/-- The last round is taken off down to the substitution, then every other round. -/
theorem aesInvCipher_aesCipher (Nr : Nat) (w : List Word) (input : State) :
    aesInvCipher Nr w (aesCipher Nr w input) = input := by
  have cancel : ∀ (state : State) (r : Nat),
      invRound w r (shiftRows (subBytes (round w state r))) = shiftRows (subBytes state) := by
    intro state r
    rw [invRound, invShiftRows_shiftRows, invSubBytes_subBytes, round, addRoundKey_addRoundKey,
      invMixColumns_mixColumns]
  have back := foldr_foldl_cancel (h := fun state => shiftRows (subBytes state)) cancel
    (List.range' 1 (Nr - 1)) (addRoundKey (transpose input) w 0)
  simp only [aesInvCipher, aesCipher, transpose_transpose, addRoundKey_addRoundKey, back,
    invShiftRows_shiftRows, invSubBytes_subBytes]

private theorem finite_state : Finite State := by
  have bytes : Finite UInt8 := Finite.of_injective UInt8.toFin fun a b h => UInt8.toFin_inj.mp h
  refine Finite.of_injective (fun (state : State) (n : Fin 16) => state[n]) fun a b h => ?_
  apply Vector.ext
  intro n hn
  exact congrFun h ⟨n, hn⟩

/-- There are finitely many states: the inverse from one side is the inverse from the other. -/
theorem aesCipher_aesInvCipher (Nr : Nat) (w : List Word) (input : State) :
    aesCipher Nr w (aesInvCipher Nr w input) = input := by
  have finite := finite_state
  have left : Function.LeftInverse (aesInvCipher Nr w) (aesCipher Nr w) :=
    aesInvCipher_aesCipher Nr w
  exact left.rightInverse_of_surjective (Finite.surjective_of_injective left.injective) input

end Layers

section Strings

variable (impl : Impl)

theorem toBlock_toList (state : State) : toBlock state.toList = state := by
  apply Vector.ext
  intro n hn
  simp [toBlock]

theorem toList_toBlock {b : List UInt8} (h : b.length = 16) : (toBlock b).toList = b := by
  apply List.ext_getElem
  · simp [h]
  · intro n hn hb
    simp [toBlock, hb]

theorem cipherBlock_length (b : List UInt8) : (impl.cipherBlock b).length = 16 := by
  simp [Impl.cipherBlock]

theorem invCipherBlock_length (b : List UInt8) : (impl.invCipherBlock b).length = 16 := by
  simp [Impl.invCipherBlock]

theorem invCipherBlock_cipherBlock {b : List UInt8} (h : b.length = 16) :
    impl.invCipherBlock (impl.cipherBlock b) = b := by
  rw [Impl.invCipherBlock, Impl.cipherBlock, toBlock_toList, aesInvCipher_aesCipher,
    toList_toBlock h]

theorem cipherBlock_invCipherBlock {b : List UInt8} (h : b.length = 16) :
    impl.cipherBlock (impl.invCipherBlock b) = b := by
  rw [Impl.invCipherBlock, Impl.cipherBlock, toBlock_toList, aesCipher_aesInvCipher,
    toList_toBlock h]

theorem deciphered {text : List UInt8} (h : 16 ∣ text.length) :
    each 16 impl.invCipherBlock (each 16 impl.cipherBlock text) = text :=
  each_each (by decide) (fun b _ => cipherBlock_length impl b)
    (fun _ hb => invCipherBlock_cipherBlock impl hb) h

theorem enciphered {text : List UInt8} (h : 16 ∣ text.length) :
    each 16 impl.cipherBlock (each 16 impl.invCipherBlock text) = text :=
  each_each (by decide) (fun b _ => invCipherBlock_length impl b)
    (fun _ hb => cipherBlock_invCipherBlock impl hb) h

theorem resize_of_le {n : Nat} {s : List UInt8} (h : s.length ≤ n) :
    resize n s = s ++ List.replicate (n - s.length) 0 := by
  rw [resize, List.take_of_length_le h]

theorem padOf_le (size : Nat) : padOf size ≤ 15 ∧ 16 ∣ size + padOf size := by
  rw [padOf]
  split <;> omega

theorem pad_toNat {pad : Nat} (h : pad ≤ 15) : (UInt8.ofNat pad).toNat = pad := by
  rw [UInt8.toNat_ofNat']
  omega

/-- decode's checks, on a text and the byte behind it. -/
theorem accepted_append {text : List UInt8} {last : UInt8} :
    Accepted (text ++ [last]) ↔ 16 ∣ text.length ∧ text ≠ [] ∧ last.toNat ≤ 15 := by
  have signed : 128 ≤ last ↔ 128 ≤ last.toNat := UInt8.le_iff_toNat_le
  have bound : 15 < last ↔ 15 < last.toNat := UInt8.lt_iff_toNat_lt
  rw [Accepted, List.getLastD_concat, List.length_append, List.length_singleton, signed, bound,
    ← List.length_pos_iff]
  constructor
  · intro h
    omega
  · intro h
    omega

theorem decode_append {text : List UInt8} {last : UInt8} (h : Accepted (text ++ [last])) :
    impl.decode (text ++ [last]) =
      (each 16 impl.invCipherBlock text).take
        ((each 16 impl.invCipherBlock text).length - last.toNat) := by
  rw [Impl.decode, if_pos h, List.getLastD_concat, List.dropLast_concat]

/-- The text encode writes blocks of. -/
private theorem filled_length (data : List UInt8) :
    (resize (data.length + padOf data.length) data).length = data.length + padOf data.length := by
  rw [resize_of_le (Nat.le_add_right _ _), List.length_append, List.length_replicate]
  omega

private theorem filled_blocks (data : List UInt8) :
    16 ∣ (resize (data.length + padOf data.length) data).length := by
  rw [filled_length]
  exact (padOf_le data.length).2

theorem decode_of_encode (data : List UInt8) : impl.decode (impl.encode data) = data := by
  by_cases empty : data = []
  · rw [empty]
    rfl
  · have small := (padOf_le data.length).1
    have pos : 0 < data.length := List.length_pos_iff.mpr empty
    have size := each_length (fun b _ => cipherBlock_length impl b) (filled_blocks data)
    have ok : Accepted (each 16 impl.cipherBlock (resize (data.length + padOf data.length) data) ++
        [UInt8.ofNat (padOf data.length)]) := by
      rw [accepted_append, pad_toNat small, size]
      refine ⟨filled_blocks data, ?_, small⟩
      rw [← List.length_pos_iff, size, filled_length]
      omega
    simp only [Impl.encode, if_neg empty]
    rw [decode_append impl ok, deciphered impl (filled_blocks data), filled_length, pad_toNat small,
      Nat.add_sub_cancel, resize_of_le (Nat.le_add_right _ _), List.take_left]

/-- What decode deciphers, before it cuts the filled bytes off. -/
def Impl.plain (data : List UInt8) : List UInt8 := each 16 impl.invCipherBlock data.dropLast

/-- The bytes decode cuts off. -/
def Impl.filling (data : List UInt8) : List UInt8 :=
  (impl.plain data).drop ((impl.plain data).length - (data.getLastD 0).toNat)

private theorem padOf_sub {size pad : Nat} (h : 16 ∣ size) (pos : 0 < size) (small : pad ≤ 15) :
    padOf (size - pad) = pad := by
  rw [padOf]
  split <;> omega

/-- What encode makes of the text decode has cut out of a plain text of whole blocks. -/
private theorem encode_take {plain : List UInt8} {pad : Nat} (h : 16 ∣ plain.length)
    (some_block : plain ≠ []) (small : pad ≤ 15) :
    impl.encode (plain.take (plain.length - pad)) =
      each 16 impl.cipherBlock (plain.take (plain.length - pad) ++ List.replicate pad 0) ++
        [UInt8.ofNat pad] := by
  have pos : 0 < plain.length := List.length_pos_iff.mpr some_block
  have size : (plain.take (plain.length - pad)).length = plain.length - pad := by
    rw [List.length_take]
    omega
  have kept : plain.take (plain.length - pad) ≠ [] := by
    rw [← List.length_pos_iff, size]
    omega
  simp only [Impl.encode, if_neg kept]
  rw [size, padOf_sub h pos small, resize_of_le (by rw [size]; omega), size]
  congr 4
  omega

/-- encode is undone the other way round on the texts it writes: those decode accepts and
in which only zeros were filled in. -/
theorem encode_decode_iff (data : List UInt8) :
    impl.encode (impl.decode data) = data ↔
      data = [] ∨ Accepted data ∧ ∀ b ∈ impl.filling data, b = 0 := by
  by_cases ok : Accepted data
  · obtain ⟨text, last, rfl⟩ : ∃ text last, data = text ++ [last] := by
      rcases List.eq_nil_or_concat' data with rfl | ⟨text, last, rfl⟩
      · exact absurd ok (by decide)
      · exact ⟨text, last, rfl⟩
    obtain ⟨blocks, some_block, small⟩ := accepted_append.mp ok
    have size : (each 16 impl.invCipherBlock text).length = text.length :=
      each_length (fun b _ => invCipherBlock_length impl b) blocks
    have some_plain : each 16 impl.invCipherBlock text ≠ [] := by
      rw [← List.length_pos_iff, size]
      exact List.length_pos_iff.mpr some_block
    have zeros : (∀ b ∈ impl.filling (text ++ [last]), b = 0) ↔
        (each 16 impl.invCipherBlock text).drop
          ((each 16 impl.invCipherBlock text).length - last.toNat) =
            List.replicate last.toNat 0 := by
      rw [List.eq_replicate_iff, Impl.filling, Impl.plain, List.dropLast_concat,
        List.getLastD_concat, List.length_drop]
      constructor
      · intro h
        refine ⟨?_, h⟩
        have : 16 ≤ text.length := Nat.le_of_dvd (List.length_pos_iff.mpr some_block) blocks
        omega
      · exact fun h => h.2
    rw [decode_append impl ok, encode_take impl (size ▸ blocks) some_plain small,
      UInt8.ofNat_toNat, List.append_left_inj, zeros]
    have refilled : 16 ∣ ((each 16 impl.invCipherBlock text).take
        ((each 16 impl.invCipherBlock text).length - last.toNat) ++
          List.replicate last.toNat 0).length := by
      have : 16 ≤ text.length := Nat.le_of_dvd (List.length_pos_iff.mpr some_block) blocks
      rw [List.length_append, List.length_take, List.length_replicate, size,
        Nat.min_eq_left (Nat.sub_le _ _), Nat.sub_add_cancel (by omega)]
      exact blocks
    constructor
    · intro h
      have back := congrArg (each 16 impl.invCipherBlock) h
      rw [deciphered impl refilled] at back
      exact .inr ⟨ok, (List.append_cancel_left
        (back.trans (List.take_append_drop _ _).symm)).symm⟩
    · rintro (none | ⟨-, filled⟩)
      · exact absurd none (List.append_ne_nil_of_right_ne_nil _ (List.cons_ne_nil _ _))
      · rw [← filled, List.take_append_drop, enciphered impl blocks]
  · rw [Impl.decode, if_neg ok]
    constructor
    · exact fun h => .inl h.symm
    · rintro (rfl | ⟨yes, -⟩)
      · rfl
      · exact absurd yes ok

end Strings

section KeySchedule

variable {R R' : Word}

theorem rcon_tail (R : Word) {i j : Nat} (hi : 0 < i) (hj : j < 4) (h : j ≠ 0) :
    (rcon R i)[j] = R[j] := by
  rw [rcon]
  split
  · rw [Vector.getElem_set_ne _ _ (Ne.symm h)]
  · split
    · rw [Vector.getElem_set_ne _ _ (Ne.symm h)]
    · omega

theorem rcon_congr (h : ∀ j : Fin 4, j ≠ 0 → R.get j = R'.get j) {i : Nat} (hi : 0 < i) :
    rcon R i = rcon R' i := by
  have heads : ∀ c : UInt8, R.set 0 c = R'.set 0 c := by
    intro c
    apply Vector.ext
    intro j hj
    by_cases head : j = 0
    · subst head
      rw [Vector.getElem_set_self, Vector.getElem_set_self]
    · rw [Vector.getElem_set_ne _ _ (Ne.symm head), Vector.getElem_set_ne _ _ (Ne.symm head)]
      exact h ⟨j, hj⟩ fun zero => head (congrArg Fin.val zero)
  rw [rcon, rcon]
  split
  · exact heads _
  · rw [if_pos (by omega), if_pos (by omega), heads]

private theorem expansion_extends (Nk : Nat) (R : Word) (l : List Nat) (w : List Word) :
    ∃ more, l.foldl (fun w i => w ++ [nextWord Nk R w i]) w = w ++ more := by
  induction l generalizing w with
  | nil => exact ⟨[], (List.append_nil w).symm⟩
  | cons i l ih =>
      obtain ⟨more, h⟩ := ih (w ++ [nextWord Nk R w i])
      exact ⟨nextWord Nk R w i :: more, by rw [List.foldl_cons, h, List.append_assoc]; rfl⟩

private theorem new_w (mode : Mode) (key : List UInt8) (R : Word) : (Impl.new mode key R).w =
    (List.range' mode.Nk (4 * (mode.Nr + 1) - mode.Nk)).foldl
      (fun w i => w ++ [nextWord mode.Nk R w i]) (keyWords mode.Nk (resize mode.keySize key)) :=
  rfl

private theorem nextWord_congr {Nk i : Nat} (h : rcon R (i / Nk) = rcon R' (i / Nk))
    (w : List Word) : nextWord Nk R w i = nextWord Nk R' w i := by
  unfold nextWord
  rw [h]

private theorem expansion_congr {mode : Mode}
    (h : ∀ i, 0 < i → rcon R i = rcon R' i) {l : List Nat} (above : ∀ i ∈ l, mode.Nk ≤ i)
    (w : List Word) :
    l.foldl (fun w i => w ++ [nextWord mode.Nk R w i]) w =
      l.foldl (fun w i => w ++ [nextWord mode.Nk R' w i]) w := by
  induction l generalizing w with
  | nil => rw [List.foldl_nil, List.foldl_nil]
  | cons i l ih =>
      have pos : 0 < i / mode.Nk := by
        refine Nat.div_pos (above i List.mem_cons_self) ?_
        cases mode <;> decide
      rw [List.foldl_cons, List.foldl_cons, nextWord_congr (h _ pos) w]
      exact ih (fun j hj => above j (List.mem_cons_of_mem i hj)) _

/-- The first word behind the key takes the whole of R in. -/
private theorem first_word_tail {mode : Mode} {w : List Word}
    (h : nextWord mode.Nk R w mode.Nk = nextWord mode.Nk R' w mode.Nk) {j : Nat} (hj : j < 4)
    (tail : j ≠ 0) : R[j] = R'[j] := by
  have pos : 0 < mode.Nk := by cases mode <;> decide
  have entry := congrArg (fun word : Word => word[j]) h
  simp only [nextWord, Nat.mod_self, if_true, Nat.div_self pos, coefAdd, Vector.getElem_ofFn,
    Fin.getElem_fin, rcon_tail _ Nat.one_pos hj tail, UInt8.xor_right_inj] at entry
  exact entry

/-- Two objects with one key have the same key schedule only when the bytes of R that
the constructor reads before it sets them are the same. -/
theorem key_schedule_eq_iff (mode : Mode) (key : List UInt8) (R R' : Word) :
    (Impl.new mode key R).w = (Impl.new mode key R').w ↔
      ∀ j : Fin 4, j ≠ 0 → R.get j = R'.get j := by
  rw [new_w, new_w]
  constructor
  · obtain ⟨count, hcount⟩ : ∃ count, 4 * (mode.Nr + 1) - mode.Nk = count + 1 :=
      Nat.exists_eq_succ_of_ne_zero (by cases mode <;> decide)
    rw [hcount, List.range'_succ, List.foldl_cons, List.foldl_cons]
    intro h
    obtain ⟨more, hm⟩ := expansion_extends mode.Nk R (List.range' (mode.Nk + 1) count)
      (keyWords mode.Nk (resize mode.keySize key) ++
        [nextWord mode.Nk R (keyWords mode.Nk (resize mode.keySize key)) mode.Nk])
    obtain ⟨more', hm'⟩ := expansion_extends mode.Nk R' (List.range' (mode.Nk + 1) count)
      (keyWords mode.Nk (resize mode.keySize key) ++
        [nextWord mode.Nk R' (keyWords mode.Nk (resize mode.keySize key)) mode.Nk])
    rw [hm, hm', List.append_assoc, List.append_assoc] at h
    have word := (List.cons.inj (List.append_cancel_left h)).1
    exact fun j tail => first_word_tail word j.isLt fun zero => tail (Fin.ext zero)
  · intro same
    exact expansion_congr (fun i hi => rcon_congr same hi)
      (fun i hi => (List.mem_range'_1.mp hi).1) _

end KeySchedule

end HZRobot.Aes
