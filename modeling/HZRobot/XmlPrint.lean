import HZRobot.XmlForm

/-!
Printing a document. Elements, comments and unknowns are indented and on lines of their
own; a text stands where it is, so that reading does not find more white space in it.
-/

namespace HZRobot.Xml

/-- A line is indented by four spaces for each level. -/
def indent : Nat → List UInt8
  | 0 => []
  | depth + 1 => bytes "    " ++ indent depth

/-- The value is in double quotes, unless it has one itself. -/
def Attribute.print (a : Attribute) : List UInt8 :=
  let quote : UInt8 := if (cstr a.value).contains 34 then 39 else 34
  cstr (encodeString a.name) ++ [61, quote] ++ cstr (encodeString a.value) ++ [quote]

def Comment.print (depth : Nat) (value : List UInt8) : List UInt8 :=
  indent depth ++ bytes "<!--" ++ cstr value ++ bytes "-->"

def Unknown.print (depth : Nat) (value : List UInt8) : List UInt8 :=
  indent depth ++ bytes "<" ++ cstr value ++ bytes ">"

/-- CDATA is printed as it is, on a line of its own. -/
def Text.print (depth : Nat) (value : List UInt8) (cdata : Bool) : List UInt8 :=
  if cdata then
    [10] ++ indent depth ++ bytes "<![CDATA[" ++ cstr value ++ bytes "]]>" ++ [10]
  else cstr (encodeString value)

/-- A field of a declaration, if there is something in it. -/
def printField (name value : List UInt8) : List UInt8 :=
  if value = [] then [] else name ++ [61, 34] ++ cstr value ++ [34, 32]

def Declaration.print (version encoding standalone : List UInt8) : List UInt8 :=
  bytes "<?xml " ++ printField (bytes "version") version ++
    printField (bytes "encoding") encoding ++
    printField (bytes "standalone") standalone ++ bytes "?>"

/-- CDATA is a text, too. -/
def Node.toText : Node → Bool
  | .text _ _ => true
  | _ => false

mutual

/-- An element without nodes is an empty tag, one with a text only stays on its line. -/
def Node.print (depth : Nat) : Node → List UInt8
  | .element value attributes children =>
      indent depth ++ [60] ++ cstr value ++ attributes.flatMap (fun a => 32 :: a.print) ++
        match children with
        | [] => bytes " />"
        | [.text text cdata] =>
            [62] ++ Text.print (depth + 1) text cdata ++ bytes "</" ++ cstr value ++ [62]
        | _ =>
            [62] ++ printContent (depth + 1) children ++ [10] ++ indent depth ++ bytes "</" ++
              cstr value ++ [62]
  | .text value cdata => Text.print depth value cdata
  | .comment value => Comment.print depth value
  | .unknown value => Unknown.print depth value
  | .declaration version encoding standalone => Declaration.print version encoding standalone

def printContent (depth : Nat) : List Node → List UInt8
  | [] => []
  | n :: ns => (if n.toText then [] else [10]) ++ n.print depth ++ printContent depth ns

end

def Document.print (d : Document) : List UInt8 := d.children.flatMap fun n => n.print 0 ++ [10]

/-- The bytes from here on make whole characters, none of them with ASCII in it. -/
def stepped (encoding : Encoding) : Nat → List UInt8 → Bool
  | 0, [] => true
  | _ + 1, [] => false
  | 0, c :: rest => stepped encoding (charLength encoding c - 1) rest
  | more + 1, c :: rest => 128 ≤ c && stepped encoding more rest

/-- A value that printing encodes character by character. -/
def plainValue (encoding : Encoding) (value : List UInt8) : Bool :=
  find (bytes "&#x") value = none && value.length < 2 ^ 31 && stepped encoding 0 value

def plainAttribute (encoding : Encoding) (a : Attribute) : Bool :=
  a.name.length < 2 ^ 31 && plainValue encoding a.value

/-- Spaces stand alone and not at the end; at the beginning when nothing is before them. -/
def spaced : Bool → List UInt8 → Bool
  | space, [] => !space
  | space, c :: rest => if c = 32 then !space && spaced true rest else spaced false rest

/-- A field that is read as it is printed. -/
def plainField (encoding : Encoding) (value : List UInt8) : Bool :=
  raw value && !value.contains 34 && !value.contains 38 && stepped encoding 0 value

mutual

/-- What printing and reading keep of a node that has its form. -/
def Node.plain (encoding : Encoding) : Node → Bool
  | .element _ attributes children =>
      attributes.all (plainAttribute encoding) && contentPlain encoding children
  | .text value false => plainValue encoding value && spaced true value && !markAt encoding value
  | .declaration version enc standalone =>
      plainField encoding version && plainField encoding enc && plainField encoding standalone
  | _ => true

def contentPlain (encoding : Encoding) : List Node → Bool
  | [] => true
  | n :: ns => n.plain encoding && contentPlain encoding ns

end

end HZRobot.Xml
