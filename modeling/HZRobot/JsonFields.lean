import HZRobot.Json

/-!
The JSON fields of a struct. An encoder gives the text of a field, which is empty for an
empty container and then left out; a decoder takes the value from a node of the parsed
text, and clears a container before it fills it.
-/

namespace HZRobot.Json

/-- encode_string for one byte. -/
def escape (c : UInt8) : List UInt8 :=
  if c = 92 then [92, 92]
  else if c = 34 then [92, 34]
  else if c = 8 then [92, 98]
  else if c = 12 then [92, 102]
  else if c = 9 then [92, 116]
  else if c = 10 then [92, 110]
  else if c = 13 then [92, 114]
  else [c]

def encodeString (in_ : List UInt8) : List UInt8 := in_.flatMap escape

theorem encodeString_eq_self {in_ : List UInt8} (plain : ∀ c ∈ in_, escape c = [c]) :
    encodeString in_ = in_ := by
  rw [encodeString, List.flatMap_congr plain]
  exact List.flatMap_singleton' in_

def encodeStringField (val : List UInt8) : List UInt8 :=
  if encodeString val ≠ [] then 34 :: (encodeString val ++ [34]) else encodeString val

def encodeIntField (val : Int32) : List UInt8 := signedDecimal val.toInt

/-- The loop of the encoders over labels and texts, with the text so far and the flag empty. -/
def appendParts : List (List UInt8 × List UInt8) → List UInt8 × Bool → List UInt8 × Bool
  | [], acc => acc
  | (label, text) :: parts, (ret, empty) =>
      if text = [] then appendParts parts (ret, empty)
      else appendParts parts (ret ++ (if empty then [] else [44]) ++ label ++ text, false)

def encodeMapField {ν : Type} (encodeValue : ν → List UInt8) (val : StdMap (List UInt8) ν) :
    List UInt8 :=
  if val.entries = [] then []
  else
    (appendParts (val.entries.map fun iter =>
      (encodeStringField iter.1 ++ [58], encodeValue iter.2)) ([123], true)).1 ++ [125]

def encodeArrayField {α : Type} (encodeElement : α → List UInt8) (val : List α) : List UInt8 :=
  if val = [] then []
  else (appendParts (val.map fun iter => ([], encodeElement iter)) ([91], true)).1 ++ [93]

/-- json_encode of SHINE_JSON_MODEL, over the names of the fields and their texts. -/
def encodeModel (fields : List (String × List UInt8)) : List UInt8 :=
  let (ret, empty) :=
    appendParts (fields.map fun field => (34 :: (bytes field.1 ++ [34, 58]), field.2)) ([], true)
  if empty then ret else 123 :: (ret ++ [125])

def setString (node : Node) (value : List UInt8) : Node :=
  if node.type ≠ .string then
    { node with type := .string, kv_childs := [], array_childs := [], value := value }
  else { node with value := value }

def decodeStringField (node : Node) : List UInt8 := node.value

def decodeIntField (node : Node) : Int32 := Int32.ofInt (atoi node.value)

def decodeMapField {ν : Type} (decodeValue : Node → ν) (node : Node) : StdMap (List UInt8) ν :=
  node.kv_childs.foldl (fun val child =>
    val.emplace (decodeStringField (setString { decode_step := .key } child.1))
      (decodeValue child.2)) .empty

def decodeArrayField {α : Type} (decodeElement : Node → α) (node : Node) : List α :=
  node.array_childs.map decodeElement

def findKvChild (node : Node) (key : List UInt8) : Option Node :=
  if node.type ≠ .object then none
  else (node.kv_childs.find? fun child => child.1 = key).map (·.2)

/-- JSON_DECODE_FIELD: a field without a member keeps its value. -/
def decodeField {α : Type} (node : Node) (field : String) (decode : Node → α) (val : α) : α :=
  match findKvChild node (bytes field) with
  | some node2 => decode node2
  | none => val

structure EaPhotoL1 where
  param : List (List (StdMap (List UInt8) Int32))

structure EaPhotoL2 where
  type : Int32
  tablenum : Int32
  param : StdMap (List UInt8) EaPhotoL1

def encodeRows (rows : List (List (StdMap (List UInt8) Int32))) : List UInt8 :=
  encodeArrayField (encodeArrayField (encodeMapField encodeIntField)) rows

def decodeRows (node : Node) : List (List (StdMap (List UInt8) Int32)) :=
  decodeArrayField (decodeArrayField (decodeMapField decodeIntField)) node

namespace EaPhotoL1

def jsonEncode (x : EaPhotoL1) : List UInt8 := encodeModel [("param", encodeRows x.param)]

def jsonDecodeNode (x : EaPhotoL1) (node : Node) : EaPhotoL1 where
  param := decodeField node "param" decodeRows x.param

/-- A default-constructed value is filled. -/
def decodeNew (node : Node) : EaPhotoL1 := jsonDecodeNode ⟨[]⟩ node

end EaPhotoL1

namespace EaPhotoL2

def jsonEncode (x : EaPhotoL2) : List UInt8 :=
  encodeModel [("type", encodeIntField x.type), ("tablenum", encodeIntField x.tablenum),
    ("param", encodeMapField EaPhotoL1.jsonEncode x.param)]

def jsonDecodeNode (x : EaPhotoL2) (node : Node) : EaPhotoL2 where
  type := decodeField node "type" decodeIntField x.type
  tablenum := decodeField node "tablenum" decodeIntField x.tablenum
  param := decodeField node "param" (decodeMapField EaPhotoL1.decodeNew) x.param

/-- json_decode on a text; the struct is filled only when the text is accepted. -/
def jsonDecode (x : EaPhotoL2) (str : List UInt8) : Status × EaPhotoL2 :=
  let json := Json.jsonDecode str
  if json.status = .ok then (.ok, x.jsonDecodeNode json.value) else (json.status, x)

end EaPhotoL2

end HZRobot.Json
