import HZRobot.ByteSearch
import HZRobot.CNumbers
import HZRobot.Decoding
import HZRobot.OrderedMap

/-!
The JSON parser. It keeps a cursor of 64 bits and reads characters through at, with the
cursor cut to int32; a read outside the text throws. A null pointer to children is the
same to every function as an empty container, and both are the empty list here.
-/

namespace HZRobot.Json

inductive NodeType where
  | string
  | integer
  | float
  | boolean
  | null
  | object
  | array
  | root
  deriving DecidableEq, Repr

inductive DecodeStep where
  | key
  | type
  | value
  | end_
  deriving DecidableEq, Repr

/-- json_node_t; the children of an object are in the order of their keys. -/
structure Node where
  decode_step : DecodeStep
  type : NodeType := .object
  key : List UInt8 := []
  value : List UInt8 := []
  kv_childs : List (List UInt8 × Node) := []
  array_childs : List Node := []

inductive Event where
  /-- memcmp looks at n bytes from pos. -/
  | peek (pos n : Nat)
  /-- The bound on the depth of the model's recursion is reached. -/
  | unfinished
  deriving DecidableEq, Repr

/-- string::operator[]; a negative index is a huge one for at. -/
def at_ (data : List UInt8) (i : Int) : Option UInt8 :=
  if 0 ≤ i then data[i.toNat]? else none

def read (data : List UInt8) (i : Int) (pos : Nat) : Decoded Event UInt8 :=
  match at_ data i with
  | some c => ⟨.ok, c, pos, []⟩
  | none => ⟨.threw, 0, pos, []⟩

/-- data[(int32)pos] -/
def readAt (data : List UInt8) (pos : Nat) : Decoded Event UInt8 := read data (toInt32 pos) pos

/-- The loop of skip_space, skip_number and find over the bytes left before the end. -/
def scan (skips : UInt8 → Bool) (data : List UInt8) : Nat → Nat → Decoded Event Unit
  | 0, pos => ⟨.failed, (), pos, []⟩
  | left + 1, pos =>
      (readAt data pos).andThen (fun _ => ()) fun c pos =>
        if skips c then scan skips data left (pos + 1) else ⟨.ok, (), pos, []⟩

def isBlank (c : UInt8) : Bool := c = 13 || c = 10 || c = 9 || c = 32

def isNumeric (c : UInt8) : Bool := isDigit c || c = 46 || c = 45

def skipSpace (data : List UInt8) (pos : Nat) : Decoded Event Unit :=
  scan isBlank data (data.length - pos) pos

def skipNumber (data : List UInt8) (pos : Nat) : Decoded Event Unit :=
  scan isNumeric data (data.length - pos) pos

def find (ch : UInt8) (data : List UInt8) (pos : Nat) : Decoded Event Unit :=
  scan (· ≠ ch) data (data.length - pos) pos

def slice (data : List UInt8) (first last : Nat) : List UInt8 :=
  (data.drop first).take (last - first)

/-- What parse_number refuses: a second or a last dot, a minus inside, and -. in front. -/
def malformed (value : List UInt8) : Bool :=
  HZRobot.find [46] value ≠ rfind [46] value || value.getLast? = some 46 ||
    (HZRobot.find [45] value ≠ some 0 && HZRobot.find [45] value ≠ none) ||
    [45, 46].isPrefixOf value

def parseNumber (node : Node) (data : List UInt8) (cost_len : Nat) : Decoded Event Node :=
  (skipNumber data (cost_len + 1)).andThen (fun _ => node) fun _ stop =>
    let value := slice data cost_len stop
    if malformed value then ⟨.failed, { node with value := value }, stop, []⟩
    else
      let type := if HZRobot.find [46] value = none then .integer else .float
      ⟨.ok, { node with value := value, type := type }, stop, []⟩

/-- The loop of parse_string: to a quote without a backslash before it. -/
def findClosing (ch : UInt8) (data : List UInt8) : Nat → Nat → Decoded Event Unit
  | 0, pos => ⟨.threw, (), pos, [.unfinished]⟩
  | fuel + 1, pos =>
      (find ch data pos).andThen (fun _ => ()) fun _ pos =>
        (read data (toInt32 pos - 1) pos).andThen (fun _ => ()) fun before pos =>
          if before ≠ 92 then ⟨.ok, (), pos, []⟩ else findClosing ch data fuel (pos + 1)

def parseString (node : Node) (data : List UInt8) (cost_len : Nat) : Decoded Event Node :=
  (readAt data cost_len).andThen (fun _ => node) fun ch _ =>
    (findClosing ch data (data.length + 1) (cost_len + 1)).andThen (fun _ => node) fun _ stop =>
      let value := slice data (cost_len + 1) stop
      ⟨.ok, { node with value := value, type := .string, decode_step := .end_ }, stop + 1, []⟩

def parseSymbol (node : Node) (data : List UInt8) (cost_len : Nat) (type : NodeType)
    (symbol : List UInt8) : Decoded Event Node :=
  (skipSpace data (cost_len + symbol.length)).andThen (fun _ => node) fun _ cost_len =>
    (readAt data cost_len).andThen (fun _ => node) fun c cost_len =>
      if c ≠ 44 ∧ c ≠ 125 then ⟨.failed, node, cost_len, []⟩
      else ⟨.ok, { node with type := type, value := symbol, decode_step := .end_ }, cost_len, []⟩

/-- The first block of decode; next is what follows it. -/
def decodeKey (node : Node) (data : List UInt8) (cost_len : Nat)
    (next : Node → Nat → Decoded Event Node) : Decoded Event Node :=
  if node.decode_step = .key then
    (skipSpace data cost_len).andThen (fun _ => node) fun _ cost_len =>
      (readAt data cost_len).andThen (fun _ => node) fun ch cost_len =>
        if ch = 39 ∨ ch = 34 then
          (find ch data (cost_len + 1)).andThen (fun _ => node) fun _ stop =>
            next { node with key := slice data (cost_len + 1) stop, decode_step := .type } (stop + 1)
        else if ch = 125 then ⟨.ok, node, cost_len, []⟩
        else ⟨.failed, node, cost_len, []⟩
  else next node cost_len

/-- A number begins with a digit, or with a minus and a digit. -/
def startsNumber (data : List UInt8) (ch : UInt8) (cost_len : Nat) : Decoded Event Bool :=
  if isDigit ch then ⟨.ok, true, cost_len, []⟩
  else if ch = 45 then (read data (toInt32 cost_len + 1) cost_len).map isDigit
  else ⟨.ok, false, cost_len, []⟩

/-- The symbols in the order in which they are tried. -/
def decodeSymbol (node : Node) (data : List UInt8) (cost_len : Nat)
    (next : Node → Nat → Decoded Event Node) :
    List (NodeType × List UInt8) → Decoded Event Node
  | [] => next node cost_len
  | (type, symbol) :: others =>
      (if symbol.isPrefixOf (data.drop cost_len) then parseSymbol node data cost_len type symbol
        else decodeSymbol node data cost_len next others).after [.peek cost_len symbol.length]

def symbols : List (NodeType × List UInt8) :=
  [(.boolean, bytes "true"), (.boolean, bytes "false"), (.null, bytes "null")]

/-- The second block of decode behind the colon. -/
def decodeText (node : Node) (data : List UInt8) (cost_len : Nat)
    (next : Node → Nat → Decoded Event Node) : Decoded Event Node :=
  (readAt data cost_len).andThen (fun _ => node) fun ch cost_len =>
    if ch = 123 then next { node with type := .object, decode_step := .value } (cost_len + 1)
    else if ch = 91 then next { node with type := .array, decode_step := .value } (cost_len + 1)
    else
      (startsNumber data ch cost_len).andThen (fun _ => node) fun number cost_len =>
        if number then parseNumber node data cost_len
        else if ch = 34 ∨ ch = 39 then parseString node data cost_len
        else decodeSymbol node data cost_len next symbols

def decodeColon (node : Node) (data : List UInt8) (cost_len : Nat) : Decoded Event Unit :=
  if node.key = [] then ⟨.ok, (), cost_len, []⟩
  else
    (readAt data cost_len).andThen (fun _ => ()) fun c cost_len =>
      if c = 58 then skipSpace data (cost_len + 1) else ⟨.failed, (), cost_len + 1, []⟩

def decodeType (node : Node) (data : List UInt8) (cost_len : Nat)
    (next : Node → Nat → Decoded Event Node) : Decoded Event Node :=
  if node.decode_step = .type then
    (skipSpace data cost_len).andThen (fun _ => node) fun _ cost_len =>
      (decodeColon node data cost_len).andThen (fun _ => node) fun _ cost_len =>
        decodeText node data cost_len next
  else next node cost_len

/-- The last block of decode. -/
def decodeValue (parse_object : Node → Nat → DecodeStep → UInt8 → Decoded Event Node)
    (node : Node) (cost_len : Nat) : Decoded Event Node :=
  if node.decode_step = .value ∧ node.type = .object then parse_object node cost_len .key 125
  else if node.decode_step = .value ∧ node.type = .array then parse_object node cost_len .type 93
  else ⟨.ok, node, cost_len, []⟩

/-- decode, over the parse_object it calls. -/
def decodeWith (parse_object : Node → Nat → DecodeStep → UInt8 → Decoded Event Node)
    (node : Node) (data : List UInt8) (cost_len : Nat) : Decoded Event Node :=
  decodeKey node data cost_len fun node cost_len =>
    decodeType node data cost_len (decodeValue parse_object)

/-- The order of std::string. -/
def before (a b : List UInt8) : Bool := a < b

/-- An element without key, value and children is dropped. -/
def addChild (node sub_node : Node) : Node :=
  if sub_node.key = [] then
    if sub_node.value ≠ [] ∨ 0 < sub_node.kv_childs.length ∨ 0 < sub_node.array_childs.length then
      { node with array_childs := node.array_childs ++ [sub_node] }
    else node
  else { node with kv_childs := OrderedMap.emplace before sub_node.key sub_node node.kv_childs }

/-- parse_object; every round and every call inside it lowers the fuel. -/
def parseObject (data : List UInt8) : Nat → Node → Nat → DecodeStep → UInt8 → Decoded Event Node
  | 0, node, cost_len, _, _ => ⟨.threw, node, cost_len, [.unfinished]⟩
  | fuel + 1, node, cost_len, decode_step, symbol =>
      (decodeWith (parseObject data fuel) { decode_step := decode_step } data cost_len).andThen
        (fun _ => node) fun sub_node cost_len =>
      (skipSpace data cost_len).andThen (fun _ => node) fun _ cost_len =>
      (readAt data cost_len).andThen (fun _ => addChild node sub_node) fun c cost_len =>
        if c = symbol then
          ⟨.ok, { addChild node sub_node with decode_step := .end_ }, cost_len + 1, []⟩
        else if c = 44 then
          parseObject data fuel (addChild node sub_node) (cost_len + 1) decode_step symbol
        else ⟨.failed, addChild node sub_node, cost_len, []⟩

/-- json_node_t::decode; each call of parse_object has consumed a byte. -/
def decode (node : Node) (data : List UInt8) (cost_len : Nat) : Decoded Event Node :=
  decodeWith (parseObject data (data.length + 1)) node data cost_len

/-- json::decode on a fresh json. -/
def jsonDecode (data : List UInt8) : Decoded Event Node := decode { decode_step := .type } data 0

end HZRobot.Json
