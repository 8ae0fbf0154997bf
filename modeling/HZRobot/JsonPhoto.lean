import HZRobot.JsonFields
import HZRobot.JsonNumbers

/-!
A field is encoded and decoded back to what is left of it: an element without text is not
written, and an array element without value and children is not kept by the parser. The
photo configuration comes back as it was if and only if nothing of it is left out.
-/

namespace HZRobot.Json

theorem map_filter_eq_self_iff {α : Type} {keeps : α → Bool} {f : α → α} {l : List α} :
    (l.filter keeps).map f = l ↔ ∀ a ∈ l, keeps a = true ∧ f a = a := by
  constructor
  · intro same
    have whole : l.filter keeps = l := by
      refine List.filter_sublist.eq_of_length ?_
      rw [← List.length_map f, same]
    have all := List.filter_eq_self.mp whole
    rw [whole] at same
    refine fun a ha => ⟨all a ha, ?_⟩
    have fixed : l.map f = l.map id := same.trans (List.map_id l).symm
    exact List.map_inj_left.mp fixed a ha
  · intro all
    rw [List.filter_eq_self.mpr fun a ha => (all a ha).1]
    calc l.map f = l.map id := List.map_congr_left fun a ha => (all a ha).2
      _ = l := List.map_id l

section Parts

/-- The texts that the loop of the encoders appends. -/
def filled (parts : List (List UInt8 × List UInt8)) : List (List UInt8) :=
  (parts.filter fun part => part.2 ≠ []).map fun part => part.1 ++ part.2

theorem appendParts_rest (parts : List (List UInt8 × List UInt8)) (ret : List UInt8) :
    appendParts parts (ret, false) = (ret ++ (filled parts).flatMap fun more => 44 :: more, false) := by
  induction parts generalizing ret with
  | nil => simp [appendParts, filled]
  | cons part parts ih =>
      obtain ⟨label, text⟩ := part
      by_cases none_ : text = []
      · rw [appendParts, if_pos none_, ih]
        simp [filled, none_]
      · rw [appendParts, if_neg none_, ih]
        simp [filled, none_]

theorem appendParts_eq (parts : List (List UInt8 × List UInt8)) (ret : List UInt8) :
    appendParts parts (ret, true) =
      (ret ++ [44].intercalate (filled parts), (filled parts).isEmpty) := by
  induction parts with
  | nil => simp [appendParts, filled]
  | cons part parts ih =>
      obtain ⟨label, text⟩ := part
      by_cases none_ : text = []
      · have same : filled ((label, text) :: parts) = filled parts := by simp [filled, none_]
        rw [appendParts, if_pos none_, ih, same]
      · have more : filled ((label, text) :: parts) = (label ++ text) :: filled parts := by
          simp [filled, none_]
        rw [appendParts, if_neg none_, appendParts_rest, more, intercalate_flatMap]
        simp

end Parts

/-- A key of the photo configuration: not empty, without quotes, backslashes and control
characters. -/
structure PlainKey (key : List UInt8) : Prop where
  some_ : key ≠ []
  plain : ∀ c ∈ key, c ≠ 34 ∧ c ≠ 92 ∧ 32 ≤ c

theorem encodeString_plain {key : List UInt8} (h : PlainKey key) : encodeString key = key := by
  have each : ∀ c ∈ key, escape c = [c] := by
    intro c hc
    obtain ⟨quote, backslash, visible⟩ := h.plain c hc
    have control : ∀ d : UInt8, d < 32 → c ≠ d := by
      rintro d small rfl
      exact absurd small (UInt8.not_lt.mpr visible)
    rw [escape, if_neg backslash, if_neg quote, if_neg (control 8 (by decide)),
      if_neg (control 12 (by decide)), if_neg (control 9 (by decide)),
      if_neg (control 10 (by decide)), if_neg (control 13 (by decide))]
  exact encodeString_eq_self each

theorem encodeStringField_plain {key : List UInt8} (h : PlainKey key) :
    encodeStringField key = 34 :: (key ++ [34]) := by
  rw [encodeStringField, encodeString_plain h, if_pos h.some_]

/-- The text of a value is read as its node, and the node is decoded as what is kept. -/
structure Carried {α : Type} (valid : α → Prop) (encode : α → List UInt8) (decode : Node → α)
    (node : α → Node) (kept : α → α) : Prop where
  denotes : ∀ a, valid a → encode a ≠ [] → Denotes NoNumber (encode a) (node a)
  decode_eq : ∀ a, valid a → encode a ≠ [] → ∀ key, decode { node a with key := key } = kept a

theorem Carried.of_imp {α : Type} {valid valid' : α → Prop} {encode : α → List UInt8}
    {decode : Node → α} {node : α → Node} {kept : α → α}
    (h : Carried valid encode decode node kept) (imp : ∀ a, valid' a → valid a) :
    Carried valid' encode decode node kept :=
  ⟨fun a ok => h.denotes a (imp a ok), fun a ok => h.decode_eq a (imp a ok)⟩

def intNode (val : Int32) : Node where
  decode_step := .type
  type := .integer
  value := encodeIntField val

theorem carried_int :
    Carried (fun _ => True) encodeIntField decodeIntField intNode id := by
  refine ⟨fun val _ _ => (integer_signedDecimal val.toInt).numeral.denotes, fun val _ _ key => ?_⟩
  show Int32.ofInt (atoi (signedDecimal val.toInt)) = val
  rw [atoi_signedDecimal, Int32.ofInt_toInt]

theorem encodeIntField_ne_nil (val : Int32) : encodeIntField val ≠ [] := by
  obtain ⟨ch, t, head, -⟩ := (integer_signedDecimal val.toInt).starts.head
  rw [encodeIntField, head]
  exact List.cons_ne_nil _ _

section Array

variable {α : Type} (encode : α → List UInt8) (node : α → Node)

/-- The elements that are written. -/
def written (vals : List α) : List α := vals.filter fun val => encode val ≠ []

def arrayOf (vals : List α) : List (List UInt8 × Node) :=
  (written encode vals).map fun val => (encode val, node val)

def nodeOfArray (vals : List α) : Node := arrayNode ((written encode vals).map node)

/-- The elements that are written and kept by the parser. -/
def keepsElement (val : α) : Bool := encode val ≠ [] && solid (node val)

def keptArray (kept : α → α) (vals : List α) : List α :=
  (vals.filter (keepsElement encode node)).map kept

theorem encodeArrayField_eq {vals : List α} (some_ : vals ≠ []) :
    encodeArrayField encode vals = arrayText (arrayOf encode node vals) := by
  have texts : filled (vals.map fun iter => ([], encode iter)) = (written encode vals).map encode := by
    rw [filled, List.filter_map, List.map_map]
    rfl
  rw [encodeArrayField, if_neg some_, appendParts_eq, texts, arrayText, insideText, arrayOf,
    List.map_map]
  rfl

theorem nodeOfArray_childs (vals : List α) :
    (nodeOfArray encode node vals).array_childs =
      (vals.filter (keepsElement encode node)).map node := by
  have both : vals.filter (keepsElement encode node) =
      (written encode vals).filter (solid ∘ node) := by
    rw [written, List.filter_filter]
    exact List.filter_congr fun val _ => Bool.and_comm _ _
  show ((written encode vals).map node).filter solid = _
  rw [both, List.filter_map]

theorem encodeArrayField_eq_nil_iff (vals : List α) :
    encodeArrayField encode vals = [] ↔ vals = [] := by
  unfold encodeArrayField
  split
  · case isTrue none_ => exact iff_of_true rfl none_
  · case isFalse some_ => exact iff_of_false (by simp) some_

variable {encode node}

theorem Carried.array {valid : α → Prop} {decode : Node → α} {kept : α → α}
    (h : Carried valid encode decode node kept) :
    Carried (fun vals => ∀ val ∈ vals, valid val) (encodeArrayField encode)
      (decodeArrayField decode) (nodeOfArray encode node) (keptArray encode node kept) := by
  refine ⟨fun vals all some_ => ?_, fun vals all _ key => ?_⟩
  · have full : vals ≠ [] := by
      rintro rfl
      exact some_ rfl
    have each : ∀ e ∈ arrayOf encode node vals, Denotes NoNumber e.1 e.2 := by
      intro e he
      obtain ⟨val, inside, rfl⟩ := List.mem_map.mp he
      obtain ⟨listed, text⟩ := List.mem_filter.mp inside
      exact h.denotes val (all val listed) (of_decide_eq_true text)
    have closed := closed_array (show NoNumber 44 from rfl) rfl each
    rw [arrayOf, List.map_map] at closed
    rw [encodeArrayField_eq encode node full]
    exact closed.denotes NoNumber
  · have childs := nodeOfArray_childs encode node vals
    show (nodeOfArray encode node vals).array_childs.map decode = _
    rw [childs, List.map_map, keptArray]
    refine List.map_congr_left fun val inside => ?_
    obtain ⟨listed, keeps⟩ := List.mem_filter.mp inside
    have some_ := of_decide_eq_true (Bool.and_eq_true_iff.mp keeps).1
    have value := h.decode_eq val (all val listed) some_ []
    rwa [keyless_eq (h.denotes val (all val listed) some_).keyless] at value

end Array

section Members

/-- The parts of a text whose labels are keys in quotes with a colon. -/
theorem intercalate_members (ms : List Member) :
    [44].intercalate (ms.map fun m => 34 :: (m.key ++ [34, 58]) ++ m.text) =
      insideText (ms.map Member.element) := by
  rw [insideText, List.map_map]
  congr 1
  refine List.map_congr_left fun m _ => ?_
  simp [Member.element, memberText]

end Members

section Map

variable {ν : Type} (encode : ν → List UInt8) (node : ν → Node)

def membersOf (m : StdMap (List UInt8) ν) : List Member :=
  (m.entries.filter fun e => encode e.2 ≠ []).map fun e => ⟨e.1, encode e.2, node e.2⟩

def nodeOfMap (m : StdMap (List UInt8) ν) : Node := objectNode (membersOf encode node m)

def keptMap (kept : ν → ν) (m : StdMap (List UInt8) ν) : StdMap (List UInt8) ν :=
  m.select (fun val => encode val ≠ []) kept

theorem encodeMapField_eq {m : StdMap (List UInt8) ν} (some_ : m.entries ≠ [])
    (plain : ∀ e ∈ m.entries, PlainKey e.1) :
    encodeMapField encode m = objectText (membersOf encode node m) := by
  have labels : (m.entries.map fun iter => (encodeStringField iter.1 ++ [58], encode iter.2)) =
      m.entries.map fun iter => (34 :: (iter.1 ++ [34, 58]), encode iter.2) := by
    refine List.map_congr_left fun e he => ?_
    rw [encodeStringField_plain (plain e he)]
    simp
  have texts : filled (m.entries.map fun iter => (34 :: (iter.1 ++ [34, 58]), encode iter.2)) =
      (membersOf encode node m).map fun m => 34 :: (m.key ++ [34, 58]) ++ m.text := by
    rw [filled, List.filter_map, List.map_map, membersOf, List.map_map]
    rfl
  rw [encodeMapField, if_neg some_, labels, appendParts_eq, texts, intercalate_members, objectText]
  rfl

theorem encodeMapField_eq_nil_iff (m : StdMap (List UInt8) ν) :
    encodeMapField encode m = [] ↔ m.entries = [] := by
  unfold encodeMapField
  split
  · case isTrue none_ => exact iff_of_true rfl none_
  · case isFalse some_ => exact iff_of_false (by simp) some_

theorem membersOf_child (m : StdMap (List UInt8) ν) :
    (membersOf encode node m).map Member.child =
      (m.entries.filter fun e => encode e.2 ≠ []).map fun e => (e.1, { node e.2 with key := e.1 }) := by
  rw [membersOf, List.map_map]
  rfl

theorem nodeOfMap_childs (m : StdMap (List UInt8) ν) :
    (nodeOfMap encode node m).kv_childs =
      (m.entries.filter fun e => encode e.2 ≠ []).map fun e => (e.1, { node e.2 with key := e.1 }) := by
  rw [nodeOfMap, kv_childs_sorted, membersOf_child]
  rw [membersOf_child, List.pairwise_map]
  exact m.sorted.sublist List.filter_sublist

variable {encode node}

theorem Carried.map {valid : ν → Prop} {decode : Node → ν} {kept : ν → ν}
    (h : Carried valid encode decode node kept) :
    Carried (fun m : StdMap (List UInt8) ν => ∀ e ∈ m.entries, PlainKey e.1 ∧ valid e.2)
      (encodeMapField encode) (decodeMapField decode) (nodeOfMap encode node)
      (keptMap encode kept) := by
  refine ⟨fun m all some_ => ?_, fun m all _ key => ?_⟩
  · have full : m.entries ≠ [] := fun none_ => some_ (if_pos none_)
    have valid_ : ∀ m' ∈ membersOf encode node m, m'.Valid := by
      intro m' hm
      obtain ⟨e, he, rfl⟩ := List.mem_map.mp hm
      obtain ⟨plain, ok⟩ := all e (List.mem_of_mem_filter he)
      exact ⟨plain.some_, fun quote => (plain.plain 34 quote).1 rfl,
        (h.denotes e.2 ok (of_decide_eq_true (List.mem_filter.mp he).2)).behind rfl⟩
    rw [encodeMapField_eq encode node full fun e he => (all e he).1]
    exact (closed_object valid_).denotes NoNumber
  · have childs := nodeOfMap_childs encode node m
    have sorted : ((nodeOfMap encode node m).kv_childs.map fun child =>
        (child.1, decode child.2)).Pairwise fun a b => decide (a.1 < b.1) = true := by
      rw [childs, List.map_map, List.pairwise_map]
      exact m.sorted.sublist List.filter_sublist
    have entries := StdMap.entries_foldl_emplace
      (fun child : List UInt8 × Node => (child.1, decode child.2)) _ sorted
    ext1
    refine entries.trans ?_
    rw [childs, List.map_map]
    refine List.map_congr_left fun e he => ?_
    have some_ := of_decide_eq_true (List.mem_filter.mp he).2
    have value := h.decode_eq e.2 (all e (List.mem_of_mem_filter he)).2 some_ e.1
    exact congrArg (Prod.mk e.1) value

end Map

section Model

/-- The members of a struct: the fields that have a text. -/
def modelMembers (fields : List (String × List UInt8 × Node)) : List Member :=
  (fields.filter fun field => field.2.1 ≠ []).map fun field =>
    ⟨bytes field.1, field.2.1, field.2.2⟩

theorem encodeModel_eq (fields : List (String × List UInt8 × Node)) :
    encodeModel (fields.map fun field => (field.1, field.2.1)) =
      if modelMembers fields = [] then [] else objectText (modelMembers fields) := by
  have texts : filled ((fields.map fun field => (field.1, field.2.1)).map fun field =>
      (34 :: (bytes field.1 ++ [34, 58]), field.2)) =
        (modelMembers fields).map fun m => 34 :: (m.key ++ [34, 58]) ++ m.text := by
    rw [filled, List.map_map, List.filter_map, List.map_map, modelMembers, List.map_map]
    rfl
  rw [encodeModel, appendParts_eq, texts, intercalate_members]
  cases modelMembers fields with
  | nil => rfl
  | cons m ms => rfl

theorem modelMembers_valid {fields : List (String × List UInt8 × Node)}
    (all : ∀ field ∈ fields, (bytes field.1 ≠ [] ∧ 34 ∉ bytes field.1) ∧
      (field.2.1 ≠ [] → Denotes NoNumber field.2.1 field.2.2)) : ∀ m ∈ modelMembers fields, m.Valid := by
  intro m hm
  obtain ⟨field, inside, rfl⟩ := List.mem_map.mp hm
  obtain ⟨listed, full⟩ := List.mem_filter.mp inside
  obtain ⟨name, denotes⟩ := all field listed
  exact ⟨name.1, name.2, (denotes (of_decide_eq_true full)).behind rfl⟩

/-- The names of the fields of the photo configuration. -/
theorem name_plain : ∀ name ∈ ["type", "tablenum", "param"],
    bytes name ≠ [] ∧ 34 ∉ bytes name := by
  decide

end Model

abbrev Cell := StdMap (List UInt8) Int32

/-- The keys of a cell are plain. -/
def PlainCell (cell : Cell) : Prop := ∀ e ∈ cell.entries, PlainKey e.1

def PlainRows (rows : List (List Cell)) : Prop := ∀ row ∈ rows, ∀ cell ∈ row, PlainCell cell

def nodeOfRow (row : List Cell) : Node :=
  nodeOfArray (encodeMapField encodeIntField) (nodeOfMap encodeIntField intNode) row

def keptRow (row : List Cell) : List Cell :=
  keptArray (encodeMapField encodeIntField) (nodeOfMap encodeIntField intNode)
    (keptMap encodeIntField id) row

def nodeOfRows (rows : List (List Cell)) : Node :=
  nodeOfArray (encodeArrayField (encodeMapField encodeIntField)) nodeOfRow rows

def keptRows (rows : List (List Cell)) : List (List Cell) :=
  keptArray (encodeArrayField (encodeMapField encodeIntField)) nodeOfRow keptRow rows

theorem carried_rows : Carried PlainRows encodeRows decodeRows nodeOfRows keptRows :=
  carried_int.map.array.array.of_imp fun _ plain row hrow cell hcell e he =>
    ⟨plain row hrow cell hcell e he, trivial⟩

namespace EaPhotoL1

def fields (x : EaPhotoL1) : List (String × List UInt8 × Node) :=
  [("param", encodeRows x.param, nodeOfRows x.param)]

def node (x : EaPhotoL1) : Node := objectNode (modelMembers x.fields)

def kept (x : EaPhotoL1) : EaPhotoL1 := ⟨keptRows x.param⟩

theorem members (x : EaPhotoL1) : modelMembers x.fields =
    if encodeRows x.param = [] then []
    else [⟨bytes "param", encodeRows x.param, nodeOfRows x.param⟩] := by
  by_cases none_ : encodeRows x.param = []
  · simp [modelMembers, fields, none_]
  · simp [modelMembers, fields, none_]

theorem jsonEncode_eq (x : EaPhotoL1) : x.jsonEncode =
    if modelMembers x.fields = [] then [] else objectText (modelMembers x.fields) :=
  encodeModel_eq x.fields

theorem jsonEncode_eq_nil_iff (x : EaPhotoL1) : x.jsonEncode = [] ↔ encodeRows x.param = [] := by
  rw [jsonEncode_eq, members]
  split
  · case isTrue none_ => simp [none_]
  · case isFalse some_ => simp [some_, objectText]

theorem carried : Carried (fun x => PlainRows x.param) jsonEncode decodeNew node kept := by
  refine ⟨fun x plain some_ => ?_, fun x plain some_ key => ?_⟩
  · have valid := @modelMembers_valid x.fields fun field inside => by
      rw [List.mem_singleton.mp inside]
      exact ⟨name_plain "param" (by simp), carried_rows.denotes x.param plain⟩
    have rows := mt (jsonEncode_eq_nil_iff x).mpr some_
    rw [jsonEncode_eq, if_neg (by rw [members, if_neg rows]; exact List.cons_ne_nil _ _)]
    exact (closed_object valid).denotes NoNumber
  · have rows := mt (jsonEncode_eq_nil_iff x).mpr some_
    have value := carried_rows.decode_eq x.param plain rows (bytes "param")
    rw [node, members, if_neg rows, kept, ← value]
    rfl

end EaPhotoL1

namespace EaPhotoL2

/-- The keys of the tables and of the cells are plain. -/
def Plain (x : EaPhotoL2) : Prop := ∀ e ∈ x.param.entries, PlainKey e.1 ∧ PlainRows e.2.param

def fields (x : EaPhotoL2) : List (String × List UInt8 × Node) :=
  [("type", encodeIntField x.type, intNode x.type),
    ("tablenum", encodeIntField x.tablenum, intNode x.tablenum),
    ("param", encodeMapField EaPhotoL1.jsonEncode x.param,
      nodeOfMap EaPhotoL1.jsonEncode EaPhotoL1.node x.param)]

def node (x : EaPhotoL2) : Node := objectNode (modelMembers x.fields)

/-- What is left of the value when its text has been decoded. -/
def kept (x : EaPhotoL2) : EaPhotoL2 :=
  { x with param := keptMap EaPhotoL1.jsonEncode EaPhotoL1.kept x.param }

theorem carried_param : Carried
    (fun m : StdMap (List UInt8) EaPhotoL1 => ∀ e ∈ m.entries, PlainKey e.1 ∧ PlainRows e.2.param)
    (encodeMapField EaPhotoL1.jsonEncode) (decodeMapField EaPhotoL1.decodeNew)
    (nodeOfMap EaPhotoL1.jsonEncode EaPhotoL1.node) (keptMap EaPhotoL1.jsonEncode EaPhotoL1.kept) :=
  EaPhotoL1.carried.map

theorem closed {x : EaPhotoL2} (plain : x.Plain) : Closed x.jsonEncode x.node := by
  have text := encodeModel_eq x.fields
  have some_ : modelMembers x.fields ≠ [] := by
    simp [modelMembers, fields, encodeIntField_ne_nil]
  rw [if_neg some_] at text
  have same : x.jsonEncode = objectText (modelMembers x.fields) := text
  rw [same, node]
  refine closed_object (modelMembers_valid fun field inside => ?_)
  simp only [fields, List.mem_cons, List.not_mem_nil, or_false] at inside
  rcases inside with rfl | rfl | rfl
  · exact ⟨name_plain "type" (by simp), carried_int.denotes x.type trivial⟩
  · exact ⟨name_plain "tablenum" (by simp), carried_int.denotes x.tablenum trivial⟩
  · exact ⟨name_plain "param" (by simp), carried_param.denotes x.param plain⟩

theorem modelMembers_fields (x : EaPhotoL2) : modelMembers x.fields =
    ⟨bytes "type", encodeIntField x.type, intNode x.type⟩ ::
      ⟨bytes "tablenum", encodeIntField x.tablenum, intNode x.tablenum⟩ ::
        if x.param.entries = [] then []
        else [⟨bytes "param", encodeMapField EaPhotoL1.jsonEncode x.param,
          nodeOfMap EaPhotoL1.jsonEncode EaPhotoL1.node x.param⟩] := by
  split
  · case isTrue none_ =>
      have text := (encodeMapField_eq_nil_iff EaPhotoL1.jsonEncode x.param).mpr none_
      simp [modelMembers, fields, encodeIntField_ne_nil, text]
  · case isFalse some_ =>
      have text := mt (encodeMapField_eq_nil_iff EaPhotoL1.jsonEncode x.param).mp some_
      simp [modelMembers, fields, encodeIntField_ne_nil, text]

theorem jsonDecodeNode_node {x y : EaPhotoL2} (plain : y.Plain) (fresh : x.param = .empty) :
    x.jsonDecodeNode y.node = y.kept := by
  have type := carried_int.decode_eq y.type trivial (encodeIntField_ne_nil _) (bytes "type")
  have tablenum :=
    carried_int.decode_eq y.tablenum trivial (encodeIntField_ne_nil _) (bytes "tablenum")
  rw [node, modelMembers_fields]
  split
  · case isTrue none_ =>
      have left : keptMap EaPhotoL1.jsonEncode EaPhotoL1.kept y.param = .empty := by
        ext1
        show (y.param.entries.filter _).map _ = []
        rw [none_]
        rfl
      calc x.jsonDecodeNode _
          = ⟨decodeIntField { intNode y.type with key := bytes "type" },
              decodeIntField { intNode y.tablenum with key := bytes "tablenum" }, x.param⟩ := rfl
        _ = y.kept := by rw [type, tablenum, fresh, kept, left]; rfl
  · case isFalse some_ =>
      have text := mt (encodeMapField_eq_nil_iff EaPhotoL1.jsonEncode y.param).mp some_
      have param := carried_param.decode_eq y.param plain text (bytes "param")
      calc x.jsonDecodeNode _
          = ⟨decodeIntField { intNode y.type with key := bytes "type" },
              decodeIntField { intNode y.tablenum with key := bytes "tablenum" },
              decodeMapField EaPhotoL1.decodeNew
                { nodeOfMap EaPhotoL1.jsonEncode EaPhotoL1.node y.param with
                  key := bytes "param" }⟩ := rfl
        _ = y.kept := by rw [type, tablenum, param]; rfl

/-- The text is decoded as what is left of the value, as long as it can be read to its end. -/
theorem jsonDecode_jsonEncode {x y : EaPhotoL2} (plain : y.Plain) (fresh : x.param = .empty) :
    (y.jsonEncode.length ≤ limit → x.jsonDecode y.jsonEncode = (.ok, y.kept)) ∧
      (limit < y.jsonEncode.length → (x.jsonDecode y.jsonEncode).1 ≠ .ok) := by
  obtain ⟨inside, outside⟩ := (closed plain).jsonDecode_within
  constructor
  · intro small
    obtain ⟨ok, value, -⟩ := inside small
    rw [jsonDecode, ok, value, jsonDecodeNode_node plain fresh]
    rfl
  · intro long
    have failed := outside long
    rw [jsonDecode, if_neg failed]
    exact failed

end EaPhotoL2

section Full

theorem keptMap_int (cell : Cell) : keptMap encodeIntField id cell = cell := by
  ext1
  refine map_filter_eq_self_iff.mpr fun e _ => ⟨?_, rfl⟩
  exact decide_eq_true (encodeIntField_ne_nil e.2)

theorem solid_cell {cell : Cell} (some_ : cell.entries ≠ []) :
    solid (nodeOfMap encodeIntField intNode cell) = true := by
  refine decide_eq_true (.inr (.inl ?_))
  have all : ∀ e ∈ cell.entries, decide (encodeIntField e.2 ≠ []) = true := fun e _ =>
    decide_eq_true (encodeIntField_ne_nil e.2)
  rw [nodeOfMap_childs, List.filter_eq_self.mpr all, List.length_map]
  exact List.length_pos_iff.mpr some_

theorem keptRow_eq_iff (row : List Cell) :
    keptRow row = row ↔ ∀ cell ∈ row, cell.entries ≠ [] := by
  refine map_filter_eq_self_iff.trans (forall₂_congr fun cell _ => ?_)
  constructor
  · rintro ⟨keeps, -⟩ none_
    have text := of_decide_eq_true (Bool.and_eq_true_iff.mp keeps).1
    exact text ((encodeMapField_eq_nil_iff _ cell).mpr none_)
  · intro some_
    have text := mt (encodeMapField_eq_nil_iff encodeIntField cell).mp some_
    exact ⟨Bool.and_eq_true_iff.mpr ⟨decide_eq_true text, solid_cell some_⟩, keptMap_int cell⟩

theorem keptRows_eq_iff (rows : List (List Cell)) :
    keptRows rows = rows ↔ ∀ row ∈ rows, row ≠ [] ∧ ∀ cell ∈ row, cell.entries ≠ [] := by
  refine map_filter_eq_self_iff.trans (forall₂_congr fun row _ => ?_)
  rw [keptRow_eq_iff]
  refine and_congr_left fun cells => ?_
  have text := not_congr (encodeArrayField_eq_nil_iff (encodeMapField encodeIntField) row)
  constructor
  · intro keeps
    exact text.mp (of_decide_eq_true (Bool.and_eq_true_iff.mp keeps).1)
  · intro some_
    refine Bool.and_eq_true_iff.mpr ⟨decide_eq_true (text.mpr some_), ?_⟩
    have whole := congrArg List.length ((keptRow_eq_iff row).mpr cells)
    refine decide_eq_true (.inr (.inr ?_))
    rw [nodeOfRow, nodeOfArray_childs, List.length_map]
    rw [keptRow, keptArray, List.length_map] at whole
    rw [whole]
    exact List.length_pos_iff.mpr some_

/-- Nothing of the rows is empty. -/
def EaPhotoL1.Full (x : EaPhotoL1) : Prop :=
  x.param ≠ [] ∧ ∀ row ∈ x.param, row ≠ [] ∧ ∀ cell ∈ row, cell.entries ≠ []

def EaPhotoL2.Full (x : EaPhotoL2) : Prop := ∀ e ∈ x.param.entries, e.2.Full

theorem EaPhotoL2.kept_eq_iff (x : EaPhotoL2) : x.kept = x ↔ x.Full := by
  have entries : x.kept = x ↔ x.kept.param.entries = x.param.entries := by
    refine ⟨fun same => by rw [same], fun same => ?_⟩
    have param : x.kept.param = x.param := StdMap.ext same
    cases x
    exact congrArg (EaPhotoL2.mk _ _) param
  refine entries.trans (map_filter_eq_self_iff.trans (forall₂_congr fun e _ => ?_))
  have rows : e.2.kept = e.2 ↔ keptRows e.2.param = e.2.param := by
    refine ⟨congrArg EaPhotoL1.param, fun same => ?_⟩
    rw [EaPhotoL1.kept, same]
  have named : (e.1, e.2.kept) = e ↔ e.2.kept = e.2 :=
    ⟨congrArg Prod.snd, fun same => by rw [same]⟩
  have text : decide (e.2.jsonEncode ≠ []) = true ↔ e.2.param ≠ [] := by
    rw [decide_eq_true_iff, ne_eq, EaPhotoL1.jsonEncode_eq_nil_iff]
    exact not_congr (encodeArrayField_eq_nil_iff _ _)
  exact and_congr text (named.trans (rows.trans (keptRows_eq_iff e.2.param)))

end Full

section Size

/-- The characters that %d prints. -/
def intSize (val : Int32) : Nat := (signedDecimal val.toInt).length

def cellSize (cell : Cell) : Nat :=
  1 + (cell.entries.map fun e => e.1.length + intSize e.2 + 4).sum

def rowSize (row : List Cell) : Nat := 1 + (row.map fun cell => cellSize cell + 1).sum

def EaPhotoL1.size (x : EaPhotoL1) : Nat := 11 + (x.param.map fun row => rowSize row + 1).sum

/-- The length of the text of a value of which nothing is empty. -/
def EaPhotoL2.size (x : EaPhotoL2) : Nat :=
  21 + intSize x.type + intSize x.tablenum +
    if x.param.entries = [] then 0
    else 10 + (x.param.entries.map fun e => e.1.length + e.2.size + 4).sum

theorem arrayText_length {es : List (List UInt8 × Node)} (some_ : es ≠ []) :
    (arrayText es).length = 1 + (es.map fun e => e.1.length + 1).sum := by
  rw [← insideText_length some_, arrayText]
  simp only [List.length_append, List.length_cons, List.length_nil]
  omega

theorem objectText_length {ms : List Member} (some_ : ms ≠ []) :
    (objectText ms).length = 1 + (ms.map fun m => m.key.length + m.text.length + 4).sum := by
  have inside := insideText_length (mt List.map_eq_nil_iff.mp some_ : ms.map Member.element ≠ [])
  have member : ∀ m ∈ ms, (m.element.1.length + 1) = m.key.length + m.text.length + 4 := fun m _ => by
    simp only [Member.element, memberText, List.length_cons, List.length_append]
    omega
  rw [List.map_map] at inside
  rw [← List.map_congr_left member]
  have same : (ms.map fun m => m.element.1.length + 1) =
      ms.map ((fun e => e.1.length + 1) ∘ Member.element) := rfl
  rw [same, ← inside, objectText]
  simp only [List.length_append, List.length_cons, List.length_nil]
  omega

theorem encodeArrayField_length {α : Type} {encode : α → List UInt8} {vals : List α}
    (some_ : vals ≠ []) (all : ∀ val ∈ vals, encode val ≠ []) :
    (encodeArrayField encode vals).length =
      1 + (vals.map fun val => (encode val).length + 1).sum := by
  have whole : arrayOf encode (fun _ => { decode_step := .type }) vals =
      vals.map fun val => (encode val, { decode_step := .type }) := by
    rw [arrayOf, written, List.filter_eq_self.mpr fun val inside => decide_eq_true (all val inside)]
  have full : (vals.map fun val => (encode val, ({ decode_step := .type } : Node))) ≠ [] :=
    mt List.map_eq_nil_iff.mp some_
  rw [encodeArrayField_eq encode (fun _ => { decode_step := .type }) some_, whole,
    arrayText_length full, List.map_map]
  rfl

theorem encodeMapField_length {ν : Type} {encode : ν → List UInt8} {m : StdMap (List UInt8) ν}
    (some_ : m.entries ≠ []) (plain : ∀ e ∈ m.entries, PlainKey e.1)
    (all : ∀ e ∈ m.entries, encode e.2 ≠ []) :
    (encodeMapField encode m).length =
      1 + (m.entries.map fun e => e.1.length + (encode e.2).length + 4).sum := by
  have whole : membersOf encode (fun _ => { decode_step := .type }) m =
      m.entries.map fun e => ⟨e.1, encode e.2, { decode_step := .type }⟩ := by
    rw [membersOf, List.filter_eq_self.mpr fun e he => decide_eq_true (all e he)]
  have full : (m.entries.map fun e =>
      (⟨e.1, encode e.2, { decode_step := .type }⟩ : Member)) ≠ [] :=
    mt List.map_eq_nil_iff.mp some_
  rw [encodeMapField_eq encode (fun _ => { decode_step := .type }) some_ plain, whole,
    objectText_length full, List.map_map]
  rfl

theorem cell_length {cell : Cell} (plain : PlainCell cell) (some_ : cell.entries ≠ []) :
    (encodeMapField encodeIntField cell).length = cellSize cell :=
  encodeMapField_length some_ plain fun e _ => encodeIntField_ne_nil e.2

theorem row_length {row : List Cell} (plain : ∀ cell ∈ row, PlainCell cell) (some_ : row ≠ [])
    (cells : ∀ cell ∈ row, cell.entries ≠ []) :
    (encodeArrayField (encodeMapField encodeIntField) row).length = rowSize row := by
  have text : ∀ cell ∈ row, encodeMapField encodeIntField cell ≠ [] := fun cell inside =>
    mt (encodeMapField_eq_nil_iff _ cell).mp (cells cell inside)
  rw [encodeArrayField_length some_ text, rowSize]
  refine congrArg (fun sizes : List Nat => 1 + sizes.sum) (List.map_congr_left fun cell inside => ?_)
  rw [cell_length (plain cell inside) (cells cell inside)]

theorem EaPhotoL1.jsonEncode_length {x : EaPhotoL1} (plain : PlainRows x.param) (full : x.Full) :
    x.jsonEncode.length = x.size := by
  have text : encodeRows x.param ≠ [] := mt (encodeArrayField_eq_nil_iff _ _).mp full.1
  have rows : (encodeRows x.param).length = 1 + (x.param.map fun row => rowSize row + 1).sum := by
    have each : ∀ row ∈ x.param, encodeArrayField (encodeMapField encodeIntField) row ≠ [] :=
      fun row inside => mt (encodeArrayField_eq_nil_iff _ row).mp (full.2 row inside).1
    rw [encodeRows, encodeArrayField_length full.1 each]
    refine congrArg (fun sizes : List Nat => 1 + sizes.sum)
      (List.map_congr_left fun row inside => ?_)
    rw [row_length (plain row inside) (full.2 row inside).1 (full.2 row inside).2]
  rw [jsonEncode_eq, members, if_neg text, if_neg (List.cons_ne_nil _ _),
    objectText_length (List.cons_ne_nil _ _), size]
  have name : (bytes "param").length = 5 := by decide
  simp only [List.map_cons, List.map_nil, List.sum_cons, List.sum_nil, rows, name]
  omega

theorem EaPhotoL2.jsonEncode_length {x : EaPhotoL2} (plain : x.Plain) (full : x.Full) :
    x.jsonEncode.length = x.size := by
  have names : (bytes "type").length = 4 ∧ (bytes "tablenum").length = 8 ∧
      (bytes "param").length = 5 := by decide
  have text : x.jsonEncode = objectText (modelMembers x.fields) :=
    (encodeModel_eq x.fields).trans (if_neg (by rw [modelMembers_fields]; exact List.cons_ne_nil _ _))
  have some_ : modelMembers x.fields ≠ [] := by
    rw [modelMembers_fields]
    exact List.cons_ne_nil _ _
  rw [text, objectText_length some_, modelMembers_fields, size]
  split
  · simp only [List.map_cons, List.map_nil, List.sum_cons, List.sum_nil, names, encodeIntField,
      intSize]
    omega
  · case isFalse some_ =>
      have tables : (encodeMapField EaPhotoL1.jsonEncode x.param).length =
          1 + (x.param.entries.map fun e => e.1.length + e.2.size + 4).sum := by
        have each : ∀ e ∈ x.param.entries, e.2.jsonEncode ≠ [] := fun e he =>
          mt ((EaPhotoL1.jsonEncode_eq_nil_iff e.2).trans (encodeArrayField_eq_nil_iff _ _)).mp
            (full e he).1
        rw [encodeMapField_length some_ (fun e he => (plain e he).1) each]
        refine congrArg (fun sizes : List Nat => 1 + sizes.sum)
          (List.map_congr_left fun e he => ?_)
        rw [EaPhotoL1.jsonEncode_length (plain e he).2 (full e he)]
      simp only [List.map_cons, List.map_nil, List.sum_cons, List.sum_nil, names, tables,
        encodeIntField, intSize]
      omega

end Size

/-- The photo configuration survives its text exactly when nothing of it is empty and the
text ends within the reach of int32. -/
theorem photo_round_trip_iff (x y : EaPhotoL2) (fresh : x.param = .empty) (plain : y.Plain) :
    x.jsonDecode y.jsonEncode = (.ok, y) ↔ y.Full ∧ y.size ≤ 2 ^ 31 := by
  obtain ⟨inside, outside⟩ := EaPhotoL2.jsonDecode_jsonEncode plain fresh
  constructor
  · intro same
    have small : y.jsonEncode.length ≤ limit := by
      by_contra long
      exact outside (Nat.lt_of_not_le long) (congrArg Prod.fst same)
    have full := (EaPhotoL2.kept_eq_iff y).mp (congrArg Prod.snd ((inside small).symm.trans same))
    exact ⟨full, EaPhotoL2.jsonEncode_length plain full ▸ small⟩
  · rintro ⟨full, small⟩
    rw [inside (by rw [EaPhotoL2.jsonEncode_length plain full]; exact small),
      (EaPhotoL2.kept_eq_iff y).mpr full]

/-- One table with one row of one cell. -/
def onePhoto : EaPhotoL2 :=
  ⟨1, -2, ⟨[([97], ⟨[[⟨[([107], 3)], List.pairwise_singleton _ _⟩]]⟩)], List.pairwise_singleton _ _⟩⟩

theorem onePhoto_plain : onePhoto.Plain := by
  have key (c : UInt8) (h : c ≠ 34 ∧ c ≠ 92 ∧ 32 ≤ c) : PlainKey [c] :=
    ⟨List.cons_ne_nil _ _, fun b hb => List.mem_singleton.mp hb ▸ h⟩
  intro e he
  cases List.mem_singleton.mp he
  refine ⟨key 97 (by decide), fun row hrow cell hcell e' he' => ?_⟩
  cases List.mem_singleton.mp hrow
  cases List.mem_singleton.mp hcell
  cases List.mem_singleton.mp he'
  exact key 107 (by decide)

theorem onePhoto_full : onePhoto.Full := by
  intro e he
  cases List.mem_singleton.mp he
  refine ⟨List.cons_ne_nil _ _, fun row hrow => ?_⟩
  cases List.mem_singleton.mp hrow
  refine ⟨List.cons_ne_nil _ _, fun cell hcell => ?_⟩
  cases List.mem_singleton.mp hcell
  exact List.cons_ne_nil _ _

theorem onePhoto_round_trip :
    (⟨0, 0, .empty⟩ : EaPhotoL2).jsonDecode onePhoto.jsonEncode = (.ok, onePhoto) :=
  (photo_round_trip_iff ⟨0, 0, .empty⟩ onePhoto rfl onePhoto_plain).mpr
    ⟨onePhoto_full, by decide⟩

/-- The same with an empty row in front. -/
def emptyRow : EaPhotoL2 :=
  ⟨1, -2, ⟨[([97], ⟨[[], [⟨[([107], 3)], List.pairwise_singleton _ _⟩]]⟩)],
    List.pairwise_singleton _ _⟩⟩

theorem emptyRow_plain : emptyRow.Plain := by
  intro e he
  cases List.mem_singleton.mp he
  obtain ⟨key, rows⟩ := onePhoto_plain _ List.mem_cons_self
  refine ⟨key, fun row hrow => ?_⟩
  rcases List.mem_cons.mp hrow with rfl | same
  · exact fun _ none_ => by cases none_
  · exact rows row same

theorem emptyRow_lost :
    ¬ ∀ x y : EaPhotoL2, x.param = .empty → y.Plain → x.jsonDecode y.jsonEncode = (.ok, y) := by
  intro all
  have same := all ⟨0, 0, .empty⟩ emptyRow rfl emptyRow_plain
  obtain ⟨inside, outside⟩ :=
    EaPhotoL2.jsonDecode_jsonEncode (x := ⟨0, 0, .empty⟩) emptyRow_plain rfl
  have small : emptyRow.jsonEncode.length ≤ limit := by
    by_contra long
    exact outside (Nat.lt_of_not_le long) (congrArg Prod.fst same)
  have kept := congrArg Prod.snd ((inside small).symm.trans same)
  have full := (EaPhotoL2.kept_eq_iff emptyRow).mp kept _ List.mem_cons_self
  exact (full.2 [] List.mem_cons_self).1 rfl

end HZRobot.Json
