import HZRobot.SerialVarint

/-!
Encoding and decoding against each other. What decoding an encoding of y makes of a
target x is a value merge x y, whatever stands around the encoding; on a fresh target
it is y, and on any other one exactly when the target brings nothing of its own.
-/

namespace HZRobot.Serial

open Varint

section Bytes

variable {α κ ν : Type}

/-- The encoder only appends, and what it appends does not depend on what is there. -/
def Appends (encode : α → List UInt8 → List UInt8) : Prop :=
  ∀ val ret, encode val ret = ret ++ encode val []

theorem Appends.of_eq {encode : α → List UInt8 → List UInt8} (bytes : α → List UInt8)
    (h : ∀ val ret, encode val ret = ret ++ bytes val) : Appends encode := by
  intro val ret
  rw [h val ret, h val [], List.nil_append]

theorem encodeEach_eq {encode : α → List UInt8 → List UInt8} (h : Appends encode)
    (vals : List α) (ret : List UInt8) :
    encodeEach encode vals ret = ret ++ vals.flatMap fun val => encode val [] := by
  induction vals generalizing ret with
  | nil => simp [encodeEach]
  | cons val vals ih =>
      have step : encodeEach encode (val :: vals) ret =
          encodeEach encode vals (encode val ret) := rfl
      rw [step, ih, h val ret, List.flatMap_cons, List.append_assoc]

theorem encodeMap_eq {encodeKey : κ → List UInt8 → List UInt8}
    {encodeValue : ν → List UInt8 → List UInt8} (hk : Appends encodeKey) (hv : Appends encodeValue)
    (order : (Finmap fun _ : κ => ν) → List (Sigma fun _ : κ => ν)) (val : Finmap fun _ : κ => ν)
    (ret : List UInt8) :
    encodeMap encodeKey encodeValue order val ret =
      ret ++ (sizeBytes val.entries.card ++
        (order val).flatMap fun iter => encodeKey iter.1 [] ++ encodeValue iter.2 []) := by
  have both : Appends fun (iter : Sigma fun _ : κ => ν) ret =>
      encodeValue iter.2 (encodeKey iter.1 ret) :=
    .of_eq (fun iter => encodeKey iter.1 [] ++ encodeValue iter.2 []) fun iter ret => by
      rw [hv, hk, List.append_assoc]
  rw [encodeMap, encodeEach_eq both, encodeSize_back, List.append_assoc]
  simp only [hv _ (encodeKey _ [])]

theorem encodeSequence_eq {encode : α → List UInt8 → List UInt8} (h : Appends encode)
    (val : List α) (ret : List UInt8) :
    encodeSequence encode val ret =
      ret ++ (sizeBytes val.length ++ val.flatMap fun iter => encode iter []) := by
  rw [encodeSequence, encodeEach_eq h, encodeSize_back, List.append_assoc]

theorem encodeSet_eq {encode : α → List UInt8 → List UInt8} (h : Appends encode)
    (order : Finset α → List α) (val : Finset α) (ret : List UInt8) :
    encodeSet encode order val ret =
      ret ++ (sizeBytes val.card ++ (order val).flatMap fun iter => encode iter []) := by
  rw [encodeSet, encodeEach_eq h, encodeSize_back, List.nil_append, List.append_assoc]

theorem insertAt_length (text ret more : List UInt8) :
    insertAt ret.length text (ret ++ more) = ret ++ (text ++ more) := by
  rw [insertAt, List.take_left, List.drop_left, List.append_assoc]

/-- Inserting each element in front turns the list around. -/
theorem encodeForwardList_eq (encode : α → List UInt8 → List UInt8) (val : List α)
    (ret : List UInt8) :
    encodeForwardList encode val ret =
      ret ++ (sizeBytes val.length ++ val.reverse.flatMap fun iter => encode iter []) := by
  have turn : ∀ (vals : List α) (more : List UInt8),
      vals.foldl (fun text iter => insertAt ret.length (encode iter []) text) (ret ++ more) =
        ret ++ ((vals.reverse.flatMap fun iter => encode iter []) ++ more) := by
    intro vals
    induction vals with
    | nil => simp
    | cons iter vals ih =>
        intro more
        rw [List.foldl_cons, insertAt_length, ih, List.reverse_cons, List.flatMap_append]
        simp
  have all := turn val []
  rw [List.append_nil, List.append_nil] at all
  rw [encodeForwardList, all, encodeSize_insert _ (by simp), insertAt_length]

theorem encodeStruct_eq {encodeFields : α → List UInt8 → List UInt8} (h : Appends encodeFields)
    (val : α) (ret : List UInt8) :
    encodeStruct encodeFields val ret =
      ret ++ (sizeBytes (encodeFields val []).length ++ encodeFields val []) := by
  rw [encodeStruct, h val ret]
  simp only [List.length_append, Nat.add_sub_cancel_left]
  rw [encodeSize_insert _ (by simp), insertAt_length]

theorem append_ne_nil {text more : List UInt8} (h : text ≠ []) : text ++ more ≠ [] :=
  fun nil => h (List.append_eq_nil_iff.mp nil).1

/-- An encoder of values, none of which is written as nothing. -/
structure Writer (encode : α → List UInt8 → List UInt8) : Prop where
  appends : Appends encode
  ne_nil : ∀ val, encode val [] ≠ []

theorem Writer.of_eq {encode : α → List UInt8 → List UInt8} (bytes : α → List UInt8)
    (h : ∀ val ret, encode val ret = ret ++ bytes val) (some_ : ∀ val, bytes val ≠ []) :
    Writer encode := by
  refine ⟨.of_eq bytes h, fun val => ?_⟩
  rw [h val [], List.nil_append]
  exact some_ val

theorem writer_bool : Writer encodeBool :=
  .of_eq (fun val => [if val then 1 else 0]) (fun _ _ => rfl) fun _ => List.cons_ne_nil _ _

theorem writer_char : Writer encodeChar :=
  .of_eq (fun val => [val]) (fun _ _ => rfl) fun _ => List.cons_ne_nil _ _

theorem writer_integer (signed : Bool) (w : Nat) : Writer (encodeInteger signed (w := w)) :=
  .of_eq _ (encodeInteger_eq signed) fun val => (groups_integerBytes signed val).ne_nil

theorem writer_float {n : Nat} (positive : 0 < n) : Writer (encodeFloat (n := n)) := by
  refine .of_eq (fun val => List.ofFn val) (fun _ _ => rfl) fun val nil => ?_
  have length := congrArg List.length nil
  rw [List.length_ofFn, List.length_nil] at length
  omega

theorem encodeString_eq (val ret : List UInt8) :
    encodeString val ret = ret ++ (sizeBytes val.length ++ val) := by
  rw [encodeString, encodeSize_back, List.append_assoc]

theorem writer_string : Writer encodeString :=
  .of_eq _ encodeString_eq fun _ => append_ne_nil (sizeBytes_ne_nil _)

theorem Writer.map {encodeKey : κ → List UInt8 → List UInt8}
    {encodeValue : ν → List UInt8 → List UInt8} (hk : Writer encodeKey) (hv : Writer encodeValue)
    (order : (Finmap fun _ : κ => ν) → List (Sigma fun _ : κ => ν)) :
    Writer (encodeMap encodeKey encodeValue order) :=
  .of_eq _ (encodeMap_eq hk.appends hv.appends order) fun _ => append_ne_nil (sizeBytes_ne_nil _)

variable {encode : α → List UInt8 → List UInt8}

theorem Writer.sequence (h : Writer encode) : Writer (encodeSequence encode) :=
  .of_eq _ (encodeSequence_eq h.appends) fun _ => append_ne_nil (sizeBytes_ne_nil _)

theorem writer_forwardList : Writer (encodeForwardList encode) :=
  .of_eq _ (encodeForwardList_eq encode) fun _ => append_ne_nil (sizeBytes_ne_nil _)

theorem Writer.set (h : Writer encode) (order : Finset α → List α) :
    Writer (encodeSet encode order) :=
  .of_eq _ (encodeSet_eq h.appends order) fun _ => append_ne_nil (sizeBytes_ne_nil _)

theorem Writer.struct (h : Writer encode) : Writer (encodeStruct encode) :=
  .of_eq _ (encodeStruct_eq h.appends) fun _ => append_ne_nil (sizeBytes_ne_nil _)

theorem encodeNextField_eq {rest : κ → List UInt8 → List UInt8} (h : Writer encode)
    (h' : Writer rest) (val : α × κ) (ret : List UInt8) :
    encodeNextField encode rest val ret = ret ++ (encode val.1 [] ++ rest val.2 []) := by
  rw [encodeNextField, h'.appends, h.appends, List.append_assoc]

theorem Writer.next {rest : κ → List UInt8 → List UInt8} (h : Writer encode) (h' : Writer rest) :
    Writer (encodeNextField encode rest) :=
  .of_eq _ (encodeNextField_eq h h') fun val => append_ne_nil (h.ne_nil val.1)

end Bytes

variable (order : Iteration)

theorem FloatKind.size_pos (kind : FloatKind) : 0 < kind.size := by
  cases kind <;> decide

mutual

/-- No field has an empty encoding. -/
theorem writer_field : (t : Ty) → Writer (encodeField order t)
  | .bool => writer_bool
  | .char => writer_char
  | .integer kind => writer_integer kind.signed kind.width
  | .floating kind => writer_float kind.size_pos
  | .string => writer_string
  | .map kind key value =>
      (writer_field key).map (writer_field value) (order.entries kind key value)
  | .sequence _ element => (writer_field element).sequence
  | .forwardList _ => writer_forwardList
  | .set kind element => (writer_field element).set (order.elements kind element)
  | .struct fields => (writer_fields fields).struct

theorem writer_fields : (f : Fields) → Writer (encodeFields order f)
  | .one field => writer_field field
  | .cons field rest => (writer_field field).next (writer_fields rest)

end

section Restore

variable {α β κ ν σ : Type} {data : List UInt8}

def mergeMap [DecidableEq κ] (x y : Finmap fun _ : κ => ν) : Finmap fun _ : κ => ν := x ∪ y

def mergeSet [DecidableEq α] (x y : Finset α) : Finset α := x ∪ y

def mergeForwardList (x y : List α) : List α := y ++ x

def mergeSequence (merge : α → α → α) (new : α) (x y : List α) : List α :=
  List.zipWith merge (resize y.length new x) y

/-- Wherever the encoding of y stands in the buffer, decoding it into x returns true,
leaves merge x y, and moves the cursor behind it. -/
def Restores (data : List UInt8) (encode : α → List UInt8 → List UInt8)
    (decode : α → Nat → Decoded Event α) (merge : α → α → α) : Prop :=
  ∀ x y p q, data = p ++ (encode y [] ++ q) →
    (decode x p.length).Returns (merge x y) (p.length + (encode y []).length)

theorem length_le_flatMap (bytes : β → List UInt8) (some_ : ∀ v, bytes v ≠ []) (vals : List β) :
    vals.length ≤ (vals.flatMap bytes).length := by
  induction vals with
  | nil => exact Nat.le_refl _
  | cons v vals ih =>
      have := List.length_pos_iff.mpr (some_ v)
      rw [List.flatMap_cons, List.length_append, List.length_cons]
      omega

/-- A size and what is done with it. -/
theorem decodeSize_andThen {n : Nat} {p body q : List UInt8} (fits : data.length ≤ maxSize)
    (split : data = p ++ ((sizeBytes n ++ body) ++ q)) (small : n ≤ body.length)
    {stop : Nat → σ} {next : Nat → Nat → Decoded Event σ} {val : σ}
    (k : data = (p ++ sizeBytes n) ++ (body ++ q) →
      (next n (p ++ sizeBytes n).length).Returns val ((p ++ sizeBytes n).length + body.length)) :
    ((decodeSize data p.length).andThen stop next).Returns val
      (p.length + (sizeBytes n ++ body).length) := by
  have front : data = p ++ (sizeBytes n ++ (body ++ q)) := by
    rw [split, List.append_assoc]
  have total : n < 2 ^ 64 := by
    have := congrArg List.length split
    simp only [List.length_append] at this
    have : maxSize < 2 ^ 64 := by decide
    omega
  have size : (decodeSize data p.length).Returns n (p.length + (sizeBytes n).length) := by
    rw [front] at fits ⊢
    exact decodeSize_returns total p (body ++ q) fits
  have next := k (by rw [front, List.append_assoc])
  rw [List.length_append] at next
  rw [List.length_append, ← Nat.add_assoc]
  exact size.andThen next

theorem decodeTimes_returns {decode : Nat → Decoded Event β} {bytes : β → List UInt8}
    (each : ∀ v p q, data = p ++ (bytes v ++ q) →
      (decode p.length).Returns v (p.length + (bytes v).length))
    (put : β → σ → σ) (vals : List β) (val : σ) (p q : List UInt8)
    (split : data = p ++ (vals.flatMap bytes ++ q)) :
    (decodeTimes decode put vals.length val p.length).Returns
      (vals.foldl (fun val v => put v val) val) (p.length + (vals.flatMap bytes).length) := by
  induction vals generalizing val p with
  | nil => exact ⟨rfl, rfl, rfl⟩
  | cons v vals ih =>
      rw [List.flatMap_cons] at split ⊢
      have first := each v p (vals.flatMap bytes ++ q) (by rw [split, List.append_assoc])
      have others := ih (put v val) (p ++ bytes v) (by rw [split]; simp only [List.append_assoc])
      rw [List.length_append] at others
      rw [List.length_append, ← Nat.add_assoc]
      exact first.andThen others

variable {encode : α → List UInt8 → List UInt8} {decode : α → Nat → Decoded Event α}
  {merge : α → α → α}

theorem Restores.at_fresh {new : α} (h : Restores data encode decode merge)
    (clean : ∀ y, merge new y = y) (v : α) (p q : List UInt8)
    (split : data = p ++ (encode v [] ++ q)) :
    (decode new p.length).Returns v (p.length + (encode v []).length) := by
  have back := h new v p q split
  rwa [clean] at back

theorem restores_bool (fits : data.length ≤ maxSize) :
    Restores data encodeBool (decodeBool data) fun _ y => y := by
  intro x y p q split
  have length := congrArg List.length split
  simp only [encodeBool, List.nil_append, List.length_append, List.length_singleton] at length
  have byte : byteAt data p.length = if y then 1 else 0 := split ▸ byteAt_here rfl _ q
  rw [decodeBool, add64_eq (by omega), if_neg (by omega), byte]
  cases y with
  | true => exact ⟨rfl, rfl, rfl⟩
  | false => exact ⟨rfl, rfl, rfl⟩

theorem restores_char (fits : data.length ≤ maxSize) :
    Restores data encodeChar (decodeChar data) fun _ y => y := by
  intro x y p q split
  have length := congrArg List.length split
  simp only [encodeChar, List.nil_append, List.length_append, List.length_singleton] at length
  have byte : byteAt data p.length = y := split ▸ byteAt_here rfl y q
  rw [decodeChar, add64_eq (by omega), if_neg (by omega), byte]
  exact ⟨rfl, rfl, rfl⟩

theorem restores_integer (fits : data.length ≤ maxSize) (signed : Bool) {w : Nat} (le : w ≤ 64) :
    Restores data (encodeInteger signed (w := w)) (decodeInteger signed data) fun _ y => y := by
  intro x y p q split
  rw [encodeInteger_eq, List.nil_append] at split ⊢
  subst split
  exact decodeInteger_returns signed le x y p q (lt_of_le_of_lt fits (by decide))

theorem restores_float (fits : data.length ≤ maxSize) {n : Nat} :
    Restores data (encodeFloat (n := n)) (decodeFloat data) fun _ y => y := by
  intro x y p q split
  have length := congrArg List.length split
  simp only [encodeFloat, List.nil_append, List.length_append, List.length_ofFn] at length
  rw [decodeFloat, add64_eq (by omega), if_neg (by omega)]
  refine ⟨rfl, funext fun i => ?_, by simp [encodeFloat]⟩
  have here : i.val < (List.ofFn y).length := by simp
  simp only [split, byteAt_append, encodeFloat, List.nil_append]
  rw [List.getD_append _ _ _ _ here, List.getD_eq_getElem _ _ here, List.getElem_ofFn]

theorem restores_string (fits : data.length ≤ maxSize) :
    Restores data encodeString (decodeString data) fun _ y => y := by
  intro x y p q split
  rw [encodeString_eq, List.nil_append] at split ⊢
  refine decodeSize_andThen fits split (Nat.le_refl _) fun split => ?_
  have room : (p ++ sizeBytes y.length).length + y.length ≤ data.length := by
    rw [split]
    simp only [List.length_append]
    omega
  rw [add64_eq (by omega), if_neg (by omega), if_neg (by omega), split, List.drop_left,
    List.take_left]
  exact ⟨rfl, rfl, rfl⟩

theorem foldl_emplace [DecidableEq κ] (l : List (κ × ν)) (x : Finmap fun _ : κ => ν) (k : κ) :
    (l.foldl (fun val iter => emplace iter.1 iter.2 val) x).lookup k =
      (x.lookup k).or ((l.map fun iter => ⟨iter.1, iter.2⟩ : List (Sigma fun _ : κ => ν)).dlookup k) := by
  induction l generalizing x with
  | nil => simp
  | cons e l ih =>
      rw [List.foldl_cons, ih, List.map_cons, emplace]
      by_cases same : e.1 = k
      · subst same
        rw [List.dlookup_cons_eq]
        split
        · case isTrue inside =>
            obtain ⟨v, hv⟩ := Finmap.mem_iff.mp inside
            simp [hv]
        · case isFalse outside => simp [Finmap.lookup_eq_none.mpr outside]
      · rw [List.dlookup_cons_ne _ _ (Ne.symm same)]
        split
        · rfl
        · rw [Finmap.lookup_insert_of_ne _ (Ne.symm same)]

theorem lookup_mergeMap [DecidableEq κ] (x y : Finmap fun _ : κ => ν) (k : κ) :
    (mergeMap x y).lookup k = (x.lookup k).or (y.lookup k) := by
  rw [mergeMap]
  by_cases inside : k ∈ x
  · obtain ⟨v, hv⟩ := Finmap.mem_iff.mp inside
    rw [Finmap.lookup_union_left inside, hv, Option.some_or]
  · rw [Finmap.lookup_union_right inside, Finmap.lookup_eq_none.mpr inside, Option.none_or]

theorem restores_map [DecidableEq κ] {encodeKey : κ → List UInt8 → List UInt8}
    {encodeValue : ν → List UInt8 → List UInt8} {decodeKey : κ → Nat → Decoded Event κ}
    {decodeValue : ν → Nat → Decoded Event ν} {mergeKey : κ → κ → κ} {mergeValue : ν → ν → ν}
    {newKey : κ} {new : ν} (fits : data.length ≤ maxSize) (wk : Writer encodeKey)
    (wv : Writer encodeValue) (hk : Restores data encodeKey decodeKey mergeKey)
    (hv : Restores data encodeValue decodeValue mergeValue) (ck : ∀ y, mergeKey newKey y = y)
    (cv : ∀ y, mergeValue new y = y)
    {order : (Finmap fun _ : κ => ν) → List (Sigma fun _ : κ => ν)}
    (order_eq : ∀ m, (order m : Multiset _) = m.entries) :
    Restores data (encodeMap encodeKey encodeValue order)
      (decodeMap (decodeKey newKey) decodeValue new data) mergeMap := by
  intro x y p q split
  rw [encodeMap_eq wk.appends wv.appends, List.nil_append] at split ⊢
  have count : y.entries.card = (order y).length := by
    rw [← order_eq y]
    rfl
  have pairs : ((order y).flatMap fun iter => encodeKey iter.1 [] ++ encodeValue iter.2 []) =
      ((order y).map fun iter => (iter.1, iter.2)).flatMap fun iter : κ × ν =>
        encodeKey iter.1 [] ++ encodeValue iter.2 [] := by
    rw [List.flatMap_map]
  rw [count, pairs] at split ⊢
  have some_ := length_le_flatMap (fun iter : κ × ν =>
    encodeKey iter.1 [] ++ encodeValue iter.2 []) (fun v => append_ne_nil (wk.ne_nil v.1))
    ((order y).map fun iter => (iter.1, iter.2))
  rw [List.length_map] at some_
  refine decodeSize_andThen fits split some_ fun split => ?_
  have each : ∀ (v : κ × ν) p q,
      data = p ++ ((encodeKey v.1 [] ++ encodeValue v.2 []) ++ q) →
        (decodePair (decodeKey newKey) decodeValue new p.length).Returns v
          (p.length + (encodeKey v.1 [] ++ encodeValue v.2 []).length) := by
    intro v p q split
    have first := hk.at_fresh ck v.1 p (encodeValue v.2 [] ++ q) (by rw [split, List.append_assoc])
    have second := hv.at_fresh cv v.2 (p ++ encodeKey v.1 []) q
      (by rw [split]; simp only [List.append_assoc])
    rw [List.length_append] at second
    rw [List.length_append, ← Nat.add_assoc]
    exact first.andThen second.map
  have all := decodeTimes_returns each (fun iter val => emplace iter.1 iter.2 val)
    ((order y).map fun iter => (iter.1, iter.2)) x (p ++ sizeBytes (order y).length) q split
  rw [List.length_map] at all
  obtain ⟨ok, value, pos⟩ := all
  refine ⟨ok, value.trans (Finmap.ext_lookup fun k => ?_), pos⟩
  have whole : y = (⟨order y, by rw [← Multiset.coe_nodupKeys, order_eq y]; exact y.nodupKeys⟩ :
      AList fun _ : κ => ν).toFinmap := Finmap.ext (order_eq y).symm
  have lookup : y.lookup k = (order y).dlookup k := by
    conv_lhs => rw [whole]
    rfl
  rw [foldl_emplace, List.map_map]
  have same : ((order y).map ((fun iter : κ × ν => (⟨iter.1, iter.2⟩ : Sigma fun _ : κ => ν)) ∘
      fun iter => (iter.1, iter.2))) = order y := List.map_id _
  rw [same, ← lookup]
  exact (lookup_mergeMap x y k).symm

theorem foldl_insert [DecidableEq α] (l : List α) (x : Finset α) :
    l.foldl (fun val v => insert v val) x = x ∪ l.toFinset := by
  induction l generalizing x with
  | nil => simp
  | cons v l ih =>
      rw [List.foldl_cons, ih, List.toFinset_cons, Finset.insert_union, Finset.union_insert]

theorem restores_set [DecidableEq α] {new : α} (fits : data.length ≤ maxSize) (w : Writer encode)
    (h : Restores data encode decode merge) (clean : ∀ y, merge new y = y)
    {order : Finset α → List α} (order_eq : ∀ s, (order s : Multiset α) = s.val) :
    Restores data (encodeSet encode order) (decodeSet (decode new) data) mergeSet := by
  intro x y p q split
  rw [encodeSet_eq w.appends, List.nil_append] at split ⊢
  have count : y.card = (order y).length := by
    rw [Finset.card_def, ← order_eq y]
    rfl
  rw [count] at split ⊢
  refine decodeSize_andThen fits split (length_le_flatMap _ w.ne_nil _) fun split => ?_
  have all := decodeTimes_returns (h.at_fresh clean) insert (order y) x
    (p ++ sizeBytes (order y).length) q split
  have members : (order y).toFinset = y := by
    ext v
    rw [List.mem_toFinset, ← Multiset.mem_coe, order_eq y, Finset.mem_val]
  rw [foldl_insert, members] at all
  exact all

theorem restores_forwardList {new : α} (fits : data.length ≤ maxSize) (w : Writer encode)
    (h : Restores data encode decode merge) (clean : ∀ y, merge new y = y) :
    Restores data (encodeForwardList encode) (decodeForwardList (decode new) data)
      mergeForwardList := by
  intro x y p q split
  rw [encodeForwardList_eq, List.nil_append] at split ⊢
  have some_ := length_le_flatMap _ w.ne_nil y.reverse
  rw [List.length_reverse] at some_
  refine decodeSize_andThen fits split some_ fun split => ?_
  have all := decodeTimes_returns (h.at_fresh clean) (fun v val => v :: val) y.reverse x
    (p ++ sizeBytes y.length) q split
  rw [List.length_reverse] at all
  have turned : ∀ l x : List α, l.foldl (fun val v => v :: val) x = l.reverse ++ x := by
    intro l
    induction l with
    | nil => exact fun _ => rfl
    | cons v l ih =>
        intro x
        rw [List.foldl_cons, ih, List.reverse_cons, List.append_assoc]
        rfl
  rw [turned, List.reverse_reverse] at all
  exact all

theorem decodeElements_returns (h : Restores data encode decode merge) (vals : List α)
    (targets : List α) (same : targets.length = vals.length) (p q : List UInt8)
    (split : data = p ++ ((vals.flatMap fun v => encode v []) ++ q)) :
    (decodeElements decode targets p.length).Returns (List.zipWith merge targets vals)
      (p.length + (vals.flatMap fun v => encode v []).length) := by
  induction vals generalizing targets p with
  | nil =>
      rw [List.eq_nil_of_length_eq_zero same]
      exact ⟨rfl, rfl, rfl⟩
  | cons v vals ih =>
      cases targets with
      | nil => cases same
      | cons x targets =>
          rw [List.flatMap_cons] at split ⊢
          have first := h x v p ((vals.flatMap fun v => encode v []) ++ q)
            (by rw [split, List.append_assoc])
          have others := ih targets (Nat.succ.inj same) (p ++ encode v [])
            (by rw [split]; simp only [List.append_assoc])
          rw [List.length_append] at others
          rw [List.length_append, ← Nat.add_assoc, List.zipWith_cons_cons]
          exact first.andThen others.map

theorem restores_sequence {new : α} (fits : data.length ≤ maxSize) (w : Writer encode)
    (h : Restores data encode decode merge) :
    Restores data (encodeSequence encode) (decodeSequence decode new data)
      (mergeSequence merge new) := by
  intro x y p q split
  rw [encodeSequence_eq w.appends, List.nil_append] at split ⊢
  have some_ := length_le_flatMap _ w.ne_nil y
  refine decodeSize_andThen fits split some_ fun split => ?_
  have room : (y.flatMap fun v => encode v []).length ≤ data.length := by
    rw [split]
    simp only [List.length_append]
    omega
  rw [if_neg (by omega)]
  exact decodeElements_returns h y (resize y.length new x) (length_resize _ _ _) _ q split

/-- The fields of a record whose frame holds all of them. -/
def FieldsRestore (data : List UInt8) (encode : α → List UInt8 → List UInt8)
    (decode : Nat → Nat → α → Nat → Decoded Event α) (merge : α → α → α) : Prop :=
  ∀ x y p q flag size, data = p ++ (encode y [] ++ q) → flag ≤ p.length →
    p.length + (encode y []).length ≤ flag + size →
    (decode flag size x p.length).Returns (merge x y) (flag + size)

theorem fieldsRestore_last (fits : data.length ≤ maxSize)
    (h : Restores data encode decode merge) :
    FieldsRestore data encode (decodeLastField decode) merge := by
  intro x y p q flag size split behind inside
  refine (h x y p q split).andThen ⟨rfl, rfl, ?_⟩
  have room := congrArg List.length split
  simp only [List.length_append] at room
  rw [sub64_eq (by omega) (by omega)]
  dsimp only
  split <;> omega

def mergeNext (merge : α → α → α) (mergeRest : κ → κ → κ) (x y : α × κ) : α × κ :=
  (merge x.1 y.1, mergeRest x.2 y.2)

theorem fieldsRestore_next {encodeRest : κ → List UInt8 → List UInt8}
    {decodeRest : Nat → Nat → κ → Nat → Decoded Event κ} {mergeRest : κ → κ → κ}
    (fits : data.length ≤ maxSize) (w : Writer encode) (w' : Writer encodeRest)
    (h : Restores data encode decode merge)
    (h' : FieldsRestore data encodeRest decodeRest mergeRest) :
    FieldsRestore data (encodeNextField encode encodeRest) (decodeNextField decode decodeRest)
      (mergeNext merge mergeRest) := by
  intro x y p q flag size split behind inside
  rw [encodeNextField_eq w w', List.nil_append] at split inside
  have some_ := List.length_pos_iff.mpr (w'.ne_nil y.2)
  have room := congrArg List.length split
  simp only [List.length_append] at room inside
  refine (h x.1 y.1 p (encodeRest y.2 [] ++ q) (by rw [split, List.append_assoc])).andThen ?_
  rw [sub64_eq (by omega) (by omega), if_neg (by omega)]
  have others := h' x.2 y.2 (p ++ encode y.1 []) q flag size
    (by rw [split]; simp only [List.append_assoc]) (by rw [List.length_append]; omega)
    (by rw [List.length_append]; omega)
  rw [List.length_append] at others
  exact others.map

/-- A record whose frame is in the buffer. -/
theorem decodeStruct_returns {decodeFields : Nat → Nat → α → Nat → Decoded Event α} {x val : α}
    {p body q : List UInt8} (fits : data.length ≤ maxSize) (some_ : body ≠ [])
    (split : data = p ++ ((sizeBytes body.length ++ body) ++ q))
    (k : ∀ front : List UInt8, data = front ++ (body ++ q) →
      (decodeFields front.length body.length x front.length).Returns val
        (front.length + body.length)) :
    (decodeStruct decodeFields data x p.length).Returns val
      (p.length + (sizeBytes body.length ++ body).length) := by
  have positive := List.length_pos_iff.mpr some_
  have room := congrArg List.length split
  simp only [List.length_append] at room
  rw [decodeStruct, sub64_eq (by omega) fits, if_neg (by omega)]
  refine decodeSize_andThen fits split (Nat.le_refl _) fun split => ?_
  have front : (p ++ sizeBytes body.length).length = p.length + (sizeBytes body.length).length :=
    List.length_append
  rw [if_neg (by omega), sub64_eq (by omega) fits, if_neg (by omega)]
  exact k _ split

theorem restores_struct {encodeFields : α → List UInt8 → List UInt8}
    {decodeFields : Nat → Nat → α → Nat → Decoded Event α} (fits : data.length ≤ maxSize)
    (w : Writer encodeFields) (h : FieldsRestore data encodeFields decodeFields merge) :
    Restores data (encodeStruct encodeFields) (decodeStruct decodeFields data) merge := by
  intro x y p q split
  rw [encodeStruct_eq w.appends, List.nil_append] at split ⊢
  exact decodeStruct_returns fits (w.ne_nil y) split fun front split =>
    h x y front q _ _ split (Nat.le_refl _) (Nat.le_refl _)

end Restore

theorem IntKind.width_le (kind : IntKind) : kind.width ≤ 64 := by
  cases kind <;> decide

/-- An integer of any kind comes back from the middle of any buffer. -/
theorem integer_round_trip (kind : IntKind) (v val : BitVec kind.width) (p q : List UInt8)
    (fits : (p ++ encodeInteger kind.signed v [] ++ q).length < 2 ^ 64) :
    (decodeInteger kind.signed (p ++ encodeInteger kind.signed v [] ++ q) val p.length).Returns v
      (p.length + (encodeInteger kind.signed v []).length) := by
  rw [encodeInteger_eq, List.nil_append, List.append_assoc] at fits ⊢
  exact decodeInteger_returns kind.signed kind.width_le val v p q fits

theorem encodeInteger_lowestShort : encodeInteger true 0x8000#16 [] = [0xC0, 0x80, 8] := by
  have sign : negative true 0x8000#16 = true := by decide
  have value : (magnitude true 0x8000#16).toNat = 32768 := by decide
  have groups : groupBytes 6 32768 = [0x80, 0x80, 8] := by
    rw [groupBytes_more (by decide) (by decide), groupBytes_more (by decide) (by decide),
      groupBytes_last (by decide)]
    rfl
  rw [encodeInteger_eq, integerBytes, if_pos sign, value, groups]
  rfl

theorem lowest_short_round_trip :
    (decodeInteger true ([1, 2] ++ encodeInteger true 0x8000#16 [] ++ [3]) 0x7FFF#16 2).Returns
      0x8000#16 (2 + (encodeInteger true 0x8000#16 []).length) := by
  have fits : ([1, 2] ++ encodeInteger true 0x8000#16 [] ++ [3]).length < 2 ^ 64 := by
    rw [encodeInteger_lowestShort]
    decide
  exact integer_round_trip .short 0x8000#16 0x7FFF#16 [1, 2] [3] fits

mutual

/-- The value decoding leaves, from the value the target held and the one encoded. -/
def merge : (t : Ty) → Val t → Val t → Val t
  | .bool => fun _ y => y
  | .char => fun _ y => y
  | .integer _ => fun _ y => y
  | .floating _ => fun _ y => y
  | .string => fun _ y => y
  | .map _ _ _ => mergeMap
  | .sequence _ element => mergeSequence (merge element) (fresh element)
  | .forwardList _ => mergeForwardList
  | .set _ _ => mergeSet
  | .struct fields => mergeFields fields

def mergeFields : (f : Fields) → FieldVals f → FieldVals f → FieldVals f
  | .one field => merge field
  | .cons field rest => mergeNext (merge field) (mergeFields rest)

end

section Fresh

variable {α κ ν : Type}

theorem mergeMap_fresh [DecidableEq κ] (y : Finmap fun _ : κ => ν) : mergeMap ∅ y = y :=
  Finmap.empty_union

theorem mergeSet_fresh [DecidableEq α] (y : Finset α) : mergeSet ∅ y = y := Finset.empty_union y

theorem mergeForwardList_fresh (y : List α) : mergeForwardList [] y = y := List.append_nil y

theorem mergeSequence_nil_cons (merge : α → α → α) (new v : α) (y : List α) :
    mergeSequence merge new [] (v :: y) = merge new v :: mergeSequence merge new [] y := by
  simp [mergeSequence, resize, List.replicate_succ]

theorem mergeSequence_cons_cons (merge : α → α → α) (new u v : α) (x y : List α) :
    mergeSequence merge new (u :: x) (v :: y) = merge u v :: mergeSequence merge new x y := by
  simp [mergeSequence, resize]

theorem mergeSequence_fresh {merge : α → α → α} {new : α} (clean : ∀ y, merge new y = y)
    (y : List α) : mergeSequence merge new [] y = y := by
  induction y with
  | nil => rfl
  | cons v y ih => rw [mergeSequence_nil_cons, clean, ih]

end Fresh

mutual

theorem merge_fresh : (t : Ty) → (y : Val t) → merge t (fresh t) y = y
  | .bool, _ => rfl
  | .char, _ => rfl
  | .integer _, _ => rfl
  | .floating _, _ => rfl
  | .string, _ => rfl
  | .map _ _ _, y => mergeMap_fresh y
  | .sequence _ element, y => mergeSequence_fresh (merge_fresh element) y
  | .forwardList _, y => mergeForwardList_fresh y
  | .set _ _, y => mergeSet_fresh y
  | .struct fields, y => mergeFields_fresh fields y

theorem mergeFields_fresh : (f : Fields) → (y : FieldVals f) → mergeFields f (freshFields f) y = y
  | .one field, y => merge_fresh field y
  | .cons field rest, y => Prod.ext (merge_fresh field y.1) (mergeFields_fresh rest y.2)

end

mutual

theorem restores_field {data : List UInt8} (fits : data.length ≤ maxSize) :
    (t : Ty) → Restores data (encodeField order t) (decodeField data t) (merge t)
  | .bool => restores_bool fits
  | .char => restores_char fits
  | .integer kind => restores_integer fits kind.signed kind.width_le
  | .floating _ => restores_float fits
  | .string => restores_string fits
  | .map kind key value =>
      restores_map fits (writer_field order key) (writer_field order value)
        (restores_field fits key) (restores_field fits value) (merge_fresh key) (merge_fresh value)
        (order.entries_eq kind key value)
  | .sequence _ element =>
      restores_sequence fits (writer_field order element) (restores_field fits element)
  | .forwardList element =>
      restores_forwardList fits (writer_field order element) (restores_field fits element)
        (merge_fresh element)
  | .set kind element =>
      restores_set fits (writer_field order element) (restores_field fits element)
        (merge_fresh element) (order.elements_eq kind element)
  | .struct fields =>
      restores_struct fits (writer_fields order fields) (restores_fields fits fields)

theorem restores_fields {data : List UInt8} (fits : data.length ≤ maxSize) :
    (f : Fields) → FieldsRestore data (encodeFields order f) (decodeFields data f) (mergeFields f)
  | .one field => fieldsRestore_last fits (restores_field fits field)
  | .cons field rest =>
      fieldsRestore_next fits (writer_field order field) (writer_fields order rest)
        (restores_field fits field) (restores_fields fits rest)

end

/-- The encoding of a value. -/
def wire (t : Ty) (val : Val t) : List UInt8 := encodeField order t val []

/-- Decoding an encoding anywhere in a buffer into a fresh object gives the value back. -/
theorem decode_encode (t : Ty) (x : Val t) (p q : List UInt8)
    (fits : (p ++ wire order t x ++ q).length ≤ maxSize) :
    (decodeField (p ++ wire order t x ++ q) t (fresh t) p.length).Returns x
      (p.length + (wire order t x).length) :=
  (restores_field order fits t).at_fresh (merge_fresh t) x p q (List.append_assoc _ _ _)

/-- Some order, as the library leaves it open. -/
noncomputable def someOrder : Iteration where
  elements _ _ s := s.toList
  entries _ _ _ m := m.entries.toList
  elements_eq _ _ s := s.coe_toList
  entries_eq _ _ _ m := m.entries.coe_toList

/-- struct with an int and a std::string. -/
def pairType : Ty := .struct (.cons (.integer .int) (.one .string))

def pairValue : Val pairType := (0xFFFFFFFB#32, [104, 105])

theorem encodeInteger_minusFive : encodeInteger true (0xFFFFFFFB#32) [] = [0x45] := by
  have number : groupBytes 6 5 = [5] := groupBytes_last (by decide)
  have sign : negative true (0xFFFFFFFB#32) = true := by decide
  have value : (magnitude true (0xFFFFFFFB#32)).toNat = 5 := by decide
  rw [encodeInteger_eq, integerBytes, if_pos sign, value, number]
  rfl

/-- The record of the int alone. -/
theorem wire_minusFive :
    wire someOrder (.struct (.one (.integer .int))) (0xFFFFFFFB#32) = [1, 0x45] := by
  have whole : sizeBytes 1 = [1] := groupBytes_last (by decide)
  have record := encodeStruct_eq (writer_integer true 32).appends (0xFFFFFFFB#32) []
  rw [encodeInteger_minusFive, List.length_singleton, whole] at record
  exact record

theorem wire_pairValue : wire someOrder pairType pairValue = [4, 0x45, 2, 104, 105] := by
  have size : sizeBytes 2 = [2] := groupBytes_last (by decide)
  have whole : sizeBytes 4 = [4] := groupBytes_last (by decide)
  have fields : encodeNextField (encodeInteger true (w := 32)) encodeString
      ((0xFFFFFFFB#32, [104, 105]) : BitVec 32 × List UInt8) [] = [0x45, 2, 104, 105] := by
    rw [encodeNextField, encodeInteger_minusFive, encodeString_eq, List.length_cons, List.length_singleton, size]
    rfl
  have record := encodeStruct_eq ((writer_integer true 32).next writer_string).appends
    ((0xFFFFFFFB#32, [104, 105]) : BitVec 32 × List UInt8) []
  rw [fields, List.length_cons, List.length_cons, List.length_cons, List.length_singleton,
    whole] at record
  exact record

theorem decode_encode_pair :
    (decodeField ([0] ++ wire someOrder pairType pairValue ++ [1]) pairType (fresh pairType) 1).Returns
      pairValue (1 + (wire someOrder pairType pairValue).length) :=
  decode_encode someOrder pairType pairValue [0] [1] (by rw [wire_pairValue]; decide)

end HZRobot.Serial
