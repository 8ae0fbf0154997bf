import HZRobot.JsonFields
import HZRobot.JsonReading

/-!
Numbers. set_number lets parse_number write into the node before it has seen the whole
text, and parse_number takes any first byte. An integer field is printed with all its
digits and read back through atoi, which cuts to 32 bits, or through a conversion that
stops at the greatest signed number of 64 bits.
-/

namespace HZRobot.Json

/-- An optional minus, digits, and optionally a point and digits. -/
inductive Number : NodeType → List UInt8 → Prop where
  | integer {text : List UInt8} (whole : Integer text) : Number .integer text
  | float {whole : List UInt8} {digit : UInt8} {digits : List UInt8} (front : Integer whole)
      (all : ∀ b ∈ digit :: digits, isDigit b = true) :
      Number .float (whole ++ 46 :: digit :: digits)

section Fractions

variable {whole : List UInt8} {digit : UInt8} {digits : List UInt8}

theorem StartsNumber.append {text : List UInt8} (h : StartsNumber text) (rest : List UInt8) :
    StartsNumber (text ++ rest) := by
  cases h with
  | plain digit => exact .plain digit
  | negative digit => exact .negative digit

theorem fraction_not_malformed (front : Integer whole)
    (all : ∀ b ∈ digit :: digits, isDigit b = true) :
    malformed (whole ++ 46 :: digit :: digits) = false := by
  have noDot : 46 ∉ whole := front.not_mem (by decide) (by decide)
  have noDot' : 46 ∉ digit :: digits := fun inside => isDigit_ne (all 46 inside) (by decide) rfl
  have same : HZRobot.find [46] (whole ++ 46 :: digit :: digits) =
      rfind [46] (whole ++ 46 :: digit :: digits) := by
    rw [find_single noDot, rfind_single noDot']
  have last : (digit :: digits).getLast? ≠ some 46 := fun dot => noDot' (List.mem_of_getLast? dot)
  have noMinus : 45 ∉ digit :: digits := fun inside => isDigit_ne (all 45 inside) (by decide) rfl
  have minus : HZRobot.find [45] (whole ++ 46 :: digit :: digits) = some 0 ∨
      HZRobot.find [45] (whole ++ 46 :: digit :: digits) = none := by
    cases front with
    | plain digits_ =>
        refine .inr (find_none ?_)
        rw [List.mem_append, not_or]
        exact ⟨fun inside => isDigit_ne (digits_ 45 inside) (by decide) rfl, by simpa using noMinus⟩
    | negative digits_ => exact .inl (@find_single _ _ 45 [] List.not_mem_nil _)
  have head : [45, 46].isPrefixOf (whole ++ 46 :: digit :: digits) = false := by
    refine Bool.eq_false_iff.mpr fun inside => ?_
    have front_ := List.isPrefixOf_iff_prefix.mp inside
    cases front with
    | plain digits_ =>
        rw [List.cons_append, List.cons_prefix_cons] at front_
        exact isDigit_ne (digits_ _ List.mem_cons_self) (by decide) front_.1.symm
    | negative digits_ =>
        rw [List.cons_append, List.cons_append, List.cons_prefix_cons, List.cons_prefix_cons]
          at front_
        exact isDigit_ne (digits_ _ List.mem_cons_self) (by decide) front_.2.1.symm
  rw [malformed, same, head]
  rcases minus with zero | none_
  · simp [zero, last]
  · simp [none_, last]

theorem Number.numeral {type : NodeType} {text : List UInt8} (h : Number type text) :
    Numeral type text := by
  cases h with
  | integer whole => exact whole.numeral
  | float front all =>
      refine ⟨front.starts.append _, fun b hb => ?_, fraction_not_malformed front all, if_neg ?_⟩
      · rcases List.mem_append.mp hb with inside | inside
        · exact front.numeric b inside
        rcases List.mem_cons.mp inside with rfl | inside
        · rfl
        · exact isNumeric_of_isDigit (all b inside)
      · rw [find_single (front.not_mem (by decide) (by decide))]
        nofun

end Fractions

section SetNumber

/-- set_number, with the node as it is left when a character access throws, too. -/
def setNumber (node : Node) (value : List UInt8) : Node :=
  let parsed := parseNumber node (value ++ [0]) 0
  if parsed.status = .ok then { parsed.value with kv_childs := [], array_childs := [] }
  else parsed.value

/-- The first byte, and the digits, points and minuses behind it. -/
def scanned : List UInt8 → List UInt8
  | [] => []
  | c :: t => c :: t.takeWhile isNumeric

def numberType (text : List UInt8) : NodeType :=
  if HZRobot.find [46] text = none then .integer else .float

def numberNode (node : Node) (text : List UInt8) : Node :=
  { node with type := numberType text, value := text, kv_childs := [], array_childs := [] }

theorem parseNumber_outcome {node : Node} {data : List UInt8} {pos stop : Nat}
    (scan : (skipNumber data (pos + 1)).Returns () stop) :
    (parseNumber node data pos).status =
        (if malformed (slice data pos stop) then .failed else .ok) ∧
      (parseNumber node data pos).value =
        if malformed (slice data pos stop) then { node with value := slice data pos stop }
        else
          { node with value := slice data pos stop, type := numberType (slice data pos stop) } := by
  obtain ⟨ok, -, rfl⟩ := scan
  rw [parseNumber, Decoded.andThen, if_pos ok]
  dsimp only
  split
  · exact ⟨rfl, rfl⟩
  · exact ⟨rfl, rfl⟩

/-- The node keeps what it is when nothing is scanned or the scan leaves the reach of int32. -/
theorem setNumber_eq (node : Node) (v : List UInt8) :
    setNumber node v =
      if v = [] ∨ limit ≤ (scanned v).length then node
      else if malformed (scanned v) then { node with value := scanned v }
      else numberNode node (scanned v) := by
  cases v with
  | nil => rfl
  | cons c t =>
      obtain ⟨e, rest, split, stop⟩ : ∃ e rest,
          t ++ [0] = t.takeWhile isNumeric ++ e :: rest ∧ isNumeric e = false := by
        cases left : t.dropWhile isNumeric with
        | nil =>
            refine ⟨0, [], ?_, by decide⟩
            have whole := List.takeWhile_append_dropWhile (p := isNumeric) (l := t)
            rw [left, List.append_nil] at whole
            rw [whole]
        | cons e rest =>
            refine ⟨e, rest ++ [0], ?_, ?_⟩
            · have whole := List.takeWhile_append_dropWhile (p := isNumeric) (l := t)
              rw [left] at whole
              conv_lhs => rw [← whole]
              simp
            · have first := List.head?_dropWhile_not isNumeric t
              rw [left] at first
              simpa using first
      have all : ∀ b ∈ t.takeWhile isNumeric, isNumeric b = true :=
        fun b hb => List.mem_takeWhile_imp hb
      have data : c :: t ++ [0] = [c] ++ (t.takeWhile isNumeric ++ e :: rest) := by
        rw [← split]
        rfl
      have scan := scan_within stop all data (List.length_singleton) (show 1 ≤ limit by decide)
      have size : (scanned (c :: t)).length = 1 + (t.takeWhile isNumeric).length := by
        rw [scanned, List.length_cons]
        omega
      have value : slice (c :: t ++ [0]) 0 (1 + (t.takeWhile isNumeric).length) =
          scanned (c :: t) := by
        have whole : c :: t ++ [0] = [] ++ (scanned (c :: t) ++ e :: rest) := data
        have text := slice_eq whole rfl
        rwa [List.length_nil, Nat.zero_add, size] at text
      by_cases far : limit ≤ (scanned (c :: t)).length
      · have stopped : (skipNumber (c :: t ++ [0]) (0 + 1)).status ≠ .ok := scan.2 (by omega)
        rw [if_pos (.inr far), setNumber, parseNumber, Decoded.andThen_stopped stopped,
          if_neg stopped, Decoded.andThen, if_neg stopped]
      · obtain ⟨status, value_⟩ := @parseNumber_outcome node _ _ _ (scan.1 (by omega))
        rw [value] at status value_
        rw [if_neg (by simp [far]), setNumber, status, value_]
        by_cases bad : malformed (scanned (c :: t)) = true
        · rw [if_pos bad, if_pos bad, if_pos bad, if_neg (by decide)]
        · rw [if_neg bad, if_neg bad, if_neg bad, if_pos rfl]
          rfl

theorem Numeral.scanned_eq {type : NodeType} {v : List UInt8} (h : Numeral type v) :
    scanned v = v := by
  cases v with
  | nil => rfl
  | cons c t =>
      rw [scanned, List.takeWhile_eq_self_iff.mpr fun b hb => h.numeric b (List.mem_cons_of_mem _ hb)]

/-- The node is a number node with the text of the number, or it is as it was. -/
def SetsOrKeeps (node : Node) (v : List UInt8) : Prop :=
  (∃ type, Number type v ∧ setNumber node v =
      { node with type := type, value := v, kv_childs := [], array_childs := [] }) ∨
    setNumber node v = node

/-- The scanned text is in the node already. -/
def AlreadySet (node : Node) (v : List UInt8) : Prop :=
  node.value = scanned v ∧
    (malformed (scanned v) = true ∨
      node.type = numberType (scanned v) ∧ node.kv_childs = [] ∧ node.array_childs = [])

theorem sets_or_keeps_iff (node : Node) (v : List UInt8) :
    SetsOrKeeps node v ↔
      (∃ type, Number type v) ∨ v = [] ∨ 2 ^ 31 ≤ (scanned v).length ∨ AlreadySet node v := by
  have reach : limit = 2 ^ 31 := rfl
  rw [SetsOrKeeps, setNumber_eq, ← reach]
  by_cases kept : v = [] ∨ limit ≤ (scanned v).length
  · rw [if_pos kept]
    simp only [or_true, true_iff]
    exact .inr (kept.imp id .inl)
  rw [if_neg kept]
  obtain ⟨some_, short⟩ := not_or.mp kept
  constructor
  · rintro (⟨type, number, -⟩ | same)
    · exact .inl ⟨type, number⟩
    · refine .inr (.inr (.inr ?_))
      split at same
      · case isTrue bad => exact ⟨(congrArg Node.value same).symm, .inl bad⟩
      · exact ⟨(congrArg Node.value same).symm, .inr ⟨(congrArg Node.type same).symm,
          (congrArg Node.kv_childs same).symm, (congrArg Node.array_childs same).symm⟩⟩
  · rintro (⟨type, number⟩ | none_ | far | ⟨value, already⟩)
    · have numeral := number.numeral
      have whole := numeral.scanned_eq
      refine .inl ⟨type, number, ?_⟩
      rw [whole, if_neg (by rw [numeral.sound]; decide), numberNode, numberType, numeral.type_eq]
    · exact absurd none_ some_
    · exact absurd far short
    · refine .inr ?_
      obtain ⟨step, type, key, text, kv, array⟩ := node
      cases value
      split
      · rfl
      · case isFalse sound =>
          obtain ⟨rfl, rfl, rfl⟩ := already.resolve_left sound
          rfl

/-- A letter is taken for a number. -/
theorem letter_set : ¬ ∀ node v, 0 ∉ v → SetsOrKeeps node v := by
  intro all
  have integer : setNumber { decode_step := .type, type := .null } [120] =
      { decode_step := .type, type := .integer, value := [120] } := by rfl
  rcases all { decode_step := .type, type := .null } [120] (by decide) with ⟨type, number, -⟩ | same
  · have numeric := number.numeral.numeric 120 List.mem_cons_self
    exact absurd numeric (by decide)
  · rw [integer] at same
    exact absurd (congrArg Node.type same) (by decide)

end SetNumber

section IntegerFields

inductive IntType where
  | int16
  | uint16
  | int32
  | uint32
  | long
  | uLong
  | int64
  | uint64
  deriving DecidableEq, Repr

namespace IntType

def signed : IntType → Bool
  | .int16 | .int32 | .long | .int64 => true
  | .uint16 | .uint32 | .uLong | .uint64 => false

def width : IntType → Nat
  | .int16 | .uint16 => 16
  | .int32 | .uint32 => 32
  | .long | .uLong | .int64 | .uint64 => 64

/-- atoi for the types of up to 32 bits, atol and atoll for the others. -/
def reader : IntType → List UInt8 → Int
  | .int16 | .uint16 | .int32 | .uint32 => atoi
  | .long | .uLong | .int64 | .uint64 => strtoll

/-- The conversion to the type, modulo its width. -/
def cast (k : IntType) (i : Int) : Int :=
  if k.signed then (i + 2 ^ (k.width - 1)) % 2 ^ k.width - 2 ^ (k.width - 1) else i % 2 ^ k.width

def InRange (k : IntType) (i : Int) : Prop :=
  if k.signed then -2 ^ (k.width - 1) ≤ i ∧ i < 2 ^ (k.width - 1) else 0 ≤ i ∧ i < 2 ^ k.width

instance InRange.decidable (k : IntType) (i : Int) : Decidable (k.InRange i) :=
  inferInstanceAs (Decidable (if k.signed then _ else _))

/-- The values of the type. -/
abbrev Value (k : IntType) : Type := { i : Int // k.InRange i }

/-- json_encode_field: %d, %ld and %lld print the sign, %u and %lu have none. -/
def encodeField (k : IntType) (val : k.Value) : List UInt8 :=
  if k.signed then signedDecimal val.1 else decimal val.1.toNat

/-- json_decode_field, over to_int16 to to_uint64. -/
def decodeField (k : IntType) (node : Node) : Int := k.cast (k.reader node.value)

theorem encodeField_eq (k : IntType) (val : k.Value) : k.encodeField val = signedDecimal val.1 := by
  obtain ⟨i, range⟩ := val
  unfold encodeField
  split
  · rfl
  · case isFalse unsigned =>
      rw [InRange, if_neg unsigned] at range
      have nonneg : ¬ i < 0 := Int.not_lt.mpr range.1
      have digits : i.natAbs = i.toNat := by omega
      rw [signedDecimal, if_neg nonneg, digits]

theorem encodeField_length (k : IntType) (val : k.Value) : (k.encodeField val).length ≤ 21 := by
  obtain ⟨i, range⟩ := val
  have small : i.natAbs < 10 ^ 20 := by
    cases k <;> simp only [InRange, signed, width, if_true, Bool.false_eq_true, if_false] at range <;>
      omega
  have digits := Nat.toDigits_length 10 i.natAbs 20 (by decide) small
  rw [encodeField_eq, signedDecimal]
  split
  · simp only [decimal, List.length_cons, List.length_map]
    omega
  · simp only [decimal, List.length_map]
    omega

/-- The numbers above the greatest signed one are read as that one. -/
theorem strtoll_unsigned {i : Int} (nonneg : 0 ≤ i) :
    strtoll (signedDecimal i) = min (2 ^ 63 - 1) i := by
  have whole := @strtoll_decimal i.natAbs [] fun c none_ => by cases none_
  rw [List.append_nil] at whole
  rw [signedDecimal, if_neg (by omega), whole]
  congr 1
  omega

theorem decodeField_encodeField_iff (k : IntType) (val : k.Value) {node : Node}
    (text : node.value = k.encodeField val) :
    k.decodeField node = val.1 ↔ (k = .uLong ∨ k = .uint64 → val.1 < 2 ^ 63) := by
  obtain ⟨i, range⟩ := val
  rw [decodeField, text, encodeField_eq]
  cases k with
  | int16 | int32 | long | int64 =>
      simp only [InRange, signed, width, if_true] at range
      have back := strtoll_signedDecimal (i := i) (by omega) (by omega)
      simp only [cast, reader, signed, width, atoi, toInt32, back, if_true, reduceCtorEq, or_self,
        false_implies, iff_true]
      omega
  | uint16 | uint32 | uLong | uint64 =>
      simp only [InRange, signed, width, Bool.false_eq_true, if_false] at range
      have back := strtoll_unsigned range.1
      simp only [cast, reader, signed, width, atoi, toInt32, back, Bool.false_eq_true, if_false,
        reduceCtorEq, or_self, or_true, true_or, true_implies, false_implies, iff_true]
      omega

end IntType

theorem before_or_before {a b : List UInt8} (h : a ≠ b) : before a b = true ∨ before b a = true := by
  by_contra neither
  obtain ⟨left, right⟩ := not_or.mp neither
  have total : Std.Trichotomous (α := List UInt8) (· < ·) := inferInstance
  exact h (total.trichotomous a b (fun less => left (decide_eq_true less))
    fun less => right (decide_eq_true less))

/-- The member of an object with a key is the first one that has it. -/
theorem findKvChild_objectNode {front back : List Member} {m : Member}
    (first : ∀ m' ∈ front, m'.key ≠ m.key) :
    findKvChild (objectNode (front ++ m :: back)) m.key = some { m.node with key := m.key } := by
  have childs : (objectNode (front ++ m :: back)).kv_childs =
      ((front.map Member.child) ++ m.child :: back.map Member.child).foldl
        (fun val e => OrderedMap.emplace before e.1 e.2 val) [] := by
    have maps : front.map Member.child ++ m.child :: back.map Member.child =
        (front ++ m :: back).map Member.child := by simp
    rw [maps, List.foldl_map]
    rfl
  have irrefl (a : List UInt8) : before a a = false := decide_eq_false (List.lt_irrefl a)
  have found : ((front.map Member.child ++ m.child :: back.map Member.child).foldl
      (fun val e => OrderedMap.emplace before e.1 e.2 val) []).find?
        (fun e' => e'.1 = m.child.1) = some m.child := by
    refine OrderedMap.find?_foldl_emplace before irrefl StdMap.less_trans fun e' he => ?_
    obtain ⟨m', inside, rfl⟩ := List.mem_map.mp he
    exact before_or_before fun same => first m' inside same.symm
  rw [findKvChild, if_neg (by simp [objectNode]), childs]
  exact congrArg (Option.map Prod.snd) found

/-- A member whose text is a printed integer. -/
def IntType.member (k : IntType) (key : List UInt8) (val : k.Value) : Member where
  key := key
  text := k.encodeField val
  node := { decode_step := .type, type := .integer, value := k.encodeField val }

theorem integer_signedDecimal (i : Int) : Integer (signedDecimal i) := by
  obtain ⟨d, ds, digits⟩ := List.exists_cons_of_ne_nil (decimal_ne_nil i.natAbs)
  have all : ∀ b ∈ d :: ds, isDigit b = true := fun b hb => decimal_isDigit (digits ▸ hb)
  unfold signedDecimal
  rw [digits]
  split
  · exact .negative all
  · exact .plain all

theorem IntType.member_valid (k : IntType) {key : List UInt8} (some_ : key ≠ []) (plain : 34 ∉ key)
    (val : k.Value) : (k.member key val).Valid := by
  refine ⟨some_, plain, ?_⟩
  have integer : Integer (k.encodeField val) := by
    rw [k.encodeField_eq]
    exact integer_signedDecimal val.1
  exact integer.numeral.denotes.behind rfl

theorem jsonDecode_member {ms : List Member} (valid : ∀ m ∈ ms, m.Valid)
    (ok : (jsonDecode (objectText ms)).status = .ok) :
    (jsonDecode (objectText ms)).value = objectNode ms := by
  have within := (closed_object valid).jsonDecode_within
  by_cases small : (objectText ms).length ≤ limit
  · exact (within.1 small).2.1
  · exact absurd ok (within.2 (Nat.lt_of_not_le small))

/-- In every accepted object with such a member, the field of the member gives the integer
back. -/
def FieldSurvives (k : IntType) (val : k.Value) : Prop :=
  ∀ (key : List UInt8) (front back : List Member), key ≠ [] → 34 ∉ key →
    (∀ m ∈ front ++ back, m.Valid) → (∀ m ∈ front, m.key ≠ key) →
      let parsed := jsonDecode (objectText (front ++ k.member key val :: back))
      parsed.status = .ok →
        ∃ node, findKvChild parsed.value key = some node ∧ k.decodeField node = val.1

theorem findKvChild_member {k : IntType} {val : k.Value} {key : List UInt8}
    {front back : List Member} (some_ : key ≠ []) (plain : 34 ∉ key)
    (valid : ∀ m ∈ front ++ back, m.Valid) (first : ∀ m ∈ front, m.key ≠ key)
    (ok : (jsonDecode (objectText (front ++ k.member key val :: back))).status = .ok) :
    findKvChild (jsonDecode (objectText (front ++ k.member key val :: back))).value key =
      some { (k.member key val).node with key := key } := by
  have all : ∀ m ∈ front ++ k.member key val :: back, m.Valid := by
    intro m hm
    rcases List.mem_append.mp hm with before_ | here
    · exact valid m (List.mem_append_left _ before_)
    rcases List.mem_cons.mp here with rfl | behind
    · exact k.member_valid some_ plain val
    · exact valid m (List.mem_append_right _ behind)
  rw [jsonDecode_member all ok]
  exact findKvChild_objectNode (m := k.member key val) first

/-- The smallest object with the member is accepted. -/
theorem FieldSurvives.alone {k : IntType} {val : k.Value} (h : FieldSurvives k val) :
    k.decodeField { (k.member [97] val).node with key := [97] } = val.1 := by
  have valid : ∀ m ∈ [k.member [97] val], m.Valid := by
    intro m hm
    rw [List.mem_singleton.mp hm]
    exact k.member_valid (by decide) (by decide) val
  have ok : (jsonDecode (objectText ([] ++ k.member [97] val :: []))).status = .ok := by
    refine ((closed_object valid).jsonDecode_within.1 ?_).1
    have digits := k.encodeField_length val
    have size : (objectText [k.member [97] val]).length = (k.encodeField val).length + 6 := by
      simp [objectText, insideText, Member.element, memberText, IntType.member]
    unfold limit
    omega
  have none_ : ∀ m ∈ ([] : List Member) ++ [], m.Valid := fun m hm => by cases hm
  have first : ∀ m ∈ ([] : List Member), m.key ≠ [97] := fun m hm => by cases hm
  obtain ⟨node, here, back⟩ := h [97] [] [] (by decide) (by decide) none_ first ok
  rw [findKvChild_member (by decide) (by decide) none_ first ok] at here
  rwa [← Option.some.inj here] at back

theorem field_survives_iff (k : IntType) (val : k.Value) :
    FieldSurvives k val ↔ (k = .uLong ∨ k = .uint64 → val.1 < 2 ^ 63) := by
  constructor
  · exact fun survives => (k.decodeField_encodeField_iff val rfl).mp survives.alone
  · intro small key front back some_ plain valid first parsed ok
    exact ⟨_, findKvChild_member some_ plain valid first ok,
      (k.decodeField_encodeField_iff val rfl).mpr small⟩

def greatest : IntType.uint64.Value := ⟨2 ^ 64 - 1, by decide⟩

/-- The greatest uint64 comes back as the greatest int64. -/
theorem greatest_lost : ¬ ∀ (k : IntType) (val : k.Value), FieldSurvives k val := by
  intro all
  have back := (IntType.uint64.decodeField_encodeField_iff greatest rfl).mp (all _ greatest).alone
  exact absurd (back (.inr rfl)) (by decide)

end IntegerFields

end HZRobot.Json
