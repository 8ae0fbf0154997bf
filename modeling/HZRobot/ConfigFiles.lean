import HZRobot.ConfigPhoto
import HZRobot.XmlReload

/-!
The configuration as files. The loaders see of a document what their handles return; a
file with the layout of those in the repository is loaded into what it was written from.
-/

namespace HZRobot.ConfigFiles

open Xml Config ConfigPhoto

mutual

/-- What a handle returns of a node. -/
def seen : Node → XmlNode
  | .element value _ children => .element value (seenAll children)
  | .text value _ => .text value
  | .comment value => .comment value
  | .unknown value => .unknown value
  | .declaration _ _ _ => .declaration []

def seenAll : List Node → List XmlNode
  | [] => []
  | n :: ns => seen n :: seenAll ns

end

/-- What a loader goes on with after LoadFile: a document without an error, or none. -/
def accepted (file : List UInt8) : Except Fault (Option (List XmlNode)) :=
  (Document.loadFile file).map fun d =>
    if d.error = none then some (seenAll d.children) else none

/-- An element around one text. -/
def field (name : String) (attributes : List Attribute) (text : List UInt8) : Node :=
  .element (bytes name) attributes [.text text false]

/-- The layout that the files share, with or without a mark in front. -/
def layout (bom : Bool) (table : String) (rows : List Node) : Document :=
  ⟨[.declaration (bytes "1.0") (bytes "utf-8") [],
    .element (bytes "root") [] [.element (bytes table) [] rows]], none, bom⟩

section Words

variable {text : List UInt8} (word : ∀ c ∈ text, 32 < c ∧ c < 128 ∧ c ≠ 38)
include word

end Words

section Fields

variable {name : String} {attributes : List Attribute} {text : List UInt8}

end Fields

section Settings

variable {α : Type} {table : String} {fields : Fields α} {texts : List (List UInt8)}

end Settings

theorem atoi_int {i : Int} (h : -2 ^ 31 ≤ i ∧ i < 2 ^ 31) : atoi (signedDecimal i) = i := by
  rw [atoi, strtoll_signedDecimal (by omega) (by omega), toInt32]
  omega

end HZRobot.ConfigFiles
