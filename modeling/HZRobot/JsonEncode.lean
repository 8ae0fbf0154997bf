import HZRobot.JsonFields
import HZRobot.JsonReading

/-!
Printing a JSON tree. The printer copies the tree as it goes and changes only the key of
the root; the text it appends is missing where a character access throws.
-/

namespace HZRobot.Json

/-- The loop of encode_string from i on, with so many characters left. -/
def encodeFrom (in_ : List UInt8) : Nat → Nat → Option (List UInt8)
  | 0, _ => some []
  | left + 1, i => do
      let c ← at_ in_ (toInt32 i)
      let out ← encodeFrom in_ left (i + 1)
      return escape c ++ out

def encodeChars (in_ : List UInt8) : Option (List UInt8) := encodeFrom in_ in_.length 0

/-- The key in quotes and the colon. -/
def encodeLabel (key : List UInt8) : Option (List UInt8) :=
  if key ≠ [] then (encodeChars key).map fun key => 34 :: (key ++ [34, 58]) else some []

mutual

/-- json_node_t::encode -/
def encode : Node → Option (List UInt8)
  | ⟨_, type, key, value, kv_childs, array_childs⟩ => do
      let label ← encodeLabel key
      let text ←
        if type = .string then (encodeChars value).map fun value => 34 :: (value ++ [34])
        else if type = .object then
          (encodeKvChilds false kv_childs).map fun texts => 123 :: (texts ++ [125])
        else if type = .array then
          (encodeArrayChilds false array_childs).map fun texts => 91 :: (texts ++ [93])
        else some value
      return label ++ text

def encodeKvChilds (flag : Bool) : List (List UInt8 × Node) → Option (List UInt8)
  | [] => some []
  | (_, node) :: rest => do
      let text ← encode node
      let texts ← encodeKvChilds true rest
      return (if flag then [44] else []) ++ text ++ texts

def encodeArrayChilds (flag : Bool) : List Node → Option (List UInt8)
  | [] => some []
  | node :: rest => do
      let text ← encode node
      let texts ← encodeArrayChilds true rest
      return (if flag then [44] else []) ++ text ++ texts

end

/-- json::encode -/
def jsonEncode (root : Node) : Option (List UInt8) := encode { root with key := [] }

namespace Node

mutual

/-- The tree with the step of each node chosen by its type. -/
def withSteps (step : NodeType → DecodeStep) : Node → Node
  | ⟨_, type, key, value, kv_childs, array_childs⟩ =>
      ⟨step type, type, key, value, withStepsKv step kv_childs, withStepsArray step array_childs⟩

def withStepsKv (step : NodeType → DecodeStep) : List (List UInt8 × Node) → List (List UInt8 × Node)
  | [] => []
  | (key, node) :: rest => (key, withSteps step node) :: withStepsKv step rest

def withStepsArray (step : NodeType → DecodeStep) : List Node → List Node
  | [] => []
  | node :: rest => withSteps step node :: withStepsArray step rest

end

/-- What there is in a tree besides the steps. -/
def erase : Node → Node := withSteps fun _ => .end_

mutual

/-- The bytes that a plain tree takes up when it is printed. -/
def size : Node → Nat
  | ⟨_, type, key, value, kv_childs, array_childs⟩ =>
      (if key ≠ [] then key.length + 3 else 0) +
        match type with
        | .string => value.length + 2
        | .object => sizeKv kv_childs + (kv_childs.length - 1) + 2
        | .array => sizeArray array_childs + (array_childs.length - 1) + 2
        | _ => value.length

def sizeKv : List (List UInt8 × Node) → Nat
  | [] => 0
  | (_, node) :: rest => size node + sizeKv rest

def sizeArray : List Node → Nat
  | [] => 0
  | node :: rest => size node + sizeArray rest

end

end Node

end HZRobot.Json
