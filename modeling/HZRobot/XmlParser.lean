import HZRobot.XmlText

/-!
Reading a document. Each node reads itself from the pointer it is given and returns the
pointer behind it, or null; it hangs in the tree in either case. What the nodes share is
how far the text is stamped, the row and column there, and the first error.
-/

namespace HZRobot.Xml

inductive ErrorId where
  | parsingElement
  | failedToReadElementName
  | readingElementValue
  | readingAttributes
  | parsingEmpty
  | readingEndTag
  | parsingUnknown
  | parsingComment
  | parsingDeclaration
  | documentEmpty
  | parsingCdata
  deriving DecidableEq, Repr

structure Attribute where
  name : List UInt8
  value : List UInt8
  deriving DecidableEq, Repr

inductive Node where
  | element (value : List UInt8) (attributes : List Attribute) (children : List Node)
  | text (value : List UInt8) (cdata : Bool)
  | comment (value : List UInt8)
  | unknown (value : List UInt8)
  | declaration (version encoding standalone : List UInt8)
  deriving Repr

/-- Two ints, counted from 0. -/
structure Cursor where
  row : Int
  col : Int
  deriving DecidableEq, Repr

/-- What the nodes of one document share while they are read: the text from the stamp on,
its row and column, and the error of the document. -/
structure ParsingData where
  stamp : List UInt8
  cursor : Cursor
  error : Option ErrorId
  deriving DecidableEq, Repr

abbrev Parser (α : Type) := StateT ParsingData (Except Fault) α

/-- How far the stamp goes in one round: not at all where the bytes that should follow an
EF are missing. -/
def stampStep (encoding : Encoding) : List UInt8 → Nat
  | 13 :: 10 :: _ => 2
  | 10 :: 13 :: _ => 2
  | 239 :: rest => if encoding = .utf8 then (if 2 ≤ rest.length then 3 else 0) else 1
  | c :: _ => if c = 13 ∨ c = 10 ∨ c = 9 then 1 else charLength encoding c
  | [] => 0

/-- No document sets another one. -/
def tabsize : Int := 4

/-- What a round of Stamp makes of row and column. A sum that is no int wraps. -/
def Cursor.advance (encoding : Encoding) (cursor : Cursor) : List UInt8 → Cursor
  | [] => cursor
  | c :: rest =>
      if c = 13 ∨ c = 10 then ⟨toInt32 (cursor.row + 1), 0⟩
      else if c = 9 then
        { cursor with col := toInt32 ((cursor.col.tdiv tabsize + 1) * tabsize) }
      else if markAt encoding (c :: rest) then cursor
      else { cursor with col := toInt32 (cursor.col + 1) }

/-- The loop of Stamp from here on, with so many bytes still to be gone over, up to the
text that is left at the pointer. -/
def stampTo (encoding : Encoding) (now : Nat) :
    Nat → List UInt8 → Cursor → Except Fault (List UInt8 × Cursor)
  | _, [], cursor => .ok ([], cursor)
  | skip + 1, _ :: rest, cursor => stampTo encoding now skip rest cursor
  | 0, c :: rest, cursor =>
      if now < (c :: rest).length then
        match stampStep encoding (c :: rest) with
        | 0 => .error .endless
        | skip + 1 => stampTo encoding now skip rest (cursor.advance encoding (c :: rest))
      else .ok (c :: rest, cursor)

def stamp (encoding : Encoding) (now : List UInt8) : Parser Unit := fun d =>
  (stampTo encoding now.length 0 d.stamp d.cursor).bind fun r =>
    if -1 ≤ r.2.row ∧ -1 ≤ r.2.col then .ok ((), { d with stamp := r.1, cursor := r.2 })
    else .error .assertion

/-- The first error stays; its place is stamped when there is a pointer to it. -/
def setError (error : ErrorId) (pError : Pointer) (encoding : Encoding) : Parser Unit := fun d =>
  match d.error, pError with
  | some _, _ => .ok ((), d)
  | none, none => .ok ((), { d with error := some error })
  | none, some now => stamp encoding now { d with error := some error }

/-- What a value without quotes is made of. -/
def isUnquoted (c : UInt8) : Bool :=
  !isSpace c && c ≠ 47 && c ≠ 62 && c ≠ 39 && c ≠ 34

/-- An attribute belongs to a document, which is told of its errors, or to none. -/
def Attribute.failed (document : Bool) (encoding : Encoding) (attrib : Attribute) (p : Pointer) :
    Parser (Attribute × Pointer) := do
  if document then setError .readingAttributes p encoding
  return (attrib, none)

/-- The value behind the `=`, in quotes of either kind or in none. -/
def Attribute.parseValue (document : Bool) (encoding : Encoding) (name : List UInt8) :
    Pointer → Parser (Attribute × Pointer)
  | none => Attribute.failed document encoding ⟨name, []⟩ none
  | some [] => Attribute.failed document encoding ⟨name, []⟩ (some [])
  | some (c :: p) =>
      if c = 39 ∨ c = 34 then do
        let (value, q) ← readText encoding false [c] (some p)
        return (⟨name, value⟩, q)
      else
        match (c :: p).dropWhile isUnquoted with
        | d :: q =>
            if d = 39 ∨ d = 34 then
              Attribute.failed document encoding ⟨name, (c :: p).takeWhile isUnquoted⟩
                (some (d :: q))
            else return (⟨name, (c :: p).takeWhile isUnquoted⟩, some (d :: q))
        | [] => return (⟨name, (c :: p).takeWhile isUnquoted⟩, some [])

def Attribute.parse (document : Bool) (encoding : Encoding) (p : Pointer) :
    Parser (Attribute × Pointer) :=
  match skipWhiteSpace encoding p with
  | none | some [] => return (⟨[], []⟩, none)
  | some start => do
      stamp encoding start
      match readName start with
      | (name, none) | (name, some []) =>
          Attribute.failed document encoding ⟨name, []⟩ (some start)
      | (name, some p) =>
          match skipWhiteSpace encoding (some p) with
          | some (61 :: p) =>
              Attribute.parseValue document encoding name (skipWhiteSpace encoding (some p))
          | p => Attribute.failed document encoding ⟨name, []⟩ p

/-- What a node turns out to be by its first characters. -/
inductive Kind where
  | declaration
  | comment
  | cdata
  | unknown
  | element
  deriving DecidableEq, Repr

/-- What begins with a `<` and these characters. -/
def kindOf (rest : List UInt8) : Kind :=
  if stringEqual (bytes "<?xml") true (60 :: rest) then .declaration
  else if stringEqual (bytes "<!--") false (60 :: rest) then .comment
  else if stringEqual (bytes "<![CDATA[") false (60 :: rest) then .cdata
  else if stringEqual (bytes "<!") false (60 :: rest) then .unknown
  else
    match rest with
    | c :: _ => if isNameStart c then .element else .unknown
    | [] => .unknown

def identify (encoding : Encoding) (p : Pointer) : Option Kind :=
  match skipWhiteSpace encoding p with
  | some (60 :: rest) => some (kindOf rest)
  | _ => none

/-- The text before the tag, and the tag with what follows; all of it when there is none. -/
def splitBefore (tag p : List UInt8) : List UInt8 × List UInt8 :=
  match find tag p with
  | some i => (p.take i, p.drop i)
  | none => (p, [])

def Comment.parse (encoding : Encoding) (p : Pointer) : Parser (Node × Pointer) :=
  match skipWhiteSpace encoding p with
  | none => throw .assertion
  | some p => do
      stamp encoding p
      if p = [] then throw .assertion
      else if stringEqual (bytes "<!--") false p then
        match splitBefore (bytes "-->") (p.drop 4) with
        | (value, []) => return (.comment value, some [])
        | (value, p) => return (.comment value, some (p.drop 3))
      else
        setError .parsingComment (some p) encoding
        return (.comment [], none)

def Unknown.parse (encoding : Encoding) (p : Pointer) : Parser (Node × Pointer) :=
  match skipWhiteSpace encoding p with
  | none => throw .assertion
  | some p => do
      stamp encoding p
      match p with
      | 60 :: p => return (.unknown (p.takeWhile (· ≠ 62)), some ((p.dropWhile (· ≠ 62)).tail))
      | p =>
          setError .parsingUnknown (some p) encoding
          return (.unknown [], none)

def Text.parse (cdata : Bool) (encoding : Encoding) (p : Pointer) : Parser (Node × Pointer) :=
  match p with
  | none => throw .assertion
  | some p => do
      stamp encoding p
      if p = [] then throw .assertion
      else if cdata || stringEqual (bytes "<![CDATA[") false p then
        if stringEqual (bytes "<![CDATA[") false p then
          match splitBefore (bytes "]]>") (p.drop 9) with
          | (value, q) =>
              let (_, q) ← readText encoding false (bytes "]]>") (some q)
              return (.text value true, q)
        else
          setError .parsingCdata (some p) encoding
          return (.text [] true, none)
      else
        let (value, q) ← readText encoding true (bytes "<") (some p)
        return (.text value false, q.map (60 :: ·))

/-- The three fields of a declaration. -/
structure Fields where
  version : List UInt8
  encoding : List UInt8
  standalone : List UInt8
  deriving DecidableEq, Repr

/-- The loop of a declaration. A text that ends behind white space meets an assertion. -/
def readFields (encoding : Encoding) : Nat → Fields → Pointer → Parser (Fields × Pointer)
  | 0, _, _ => throw .fuel
  | _ + 1, f, none | _ + 1, f, some [] => return (f, none)
  | _ + 1, f, some (62 :: p) => return (f, some p)
  | fuel + 1, f, some p =>
      match skipWhiteSpace encoding (some p) with
      | none | some [] => throw .assertion
      | some p => do
          if stringEqual (bytes "version") true p then
            let (attrib, p) ← Attribute.parse false encoding (some p)
            readFields encoding fuel { f with version := cstr attrib.value } p
          else if stringEqual (bytes "encoding") true p then
            let (attrib, p) ← Attribute.parse false encoding (some p)
            readFields encoding fuel { f with encoding := cstr attrib.value } p
          else if stringEqual (bytes "standalone") true p then
            let (attrib, p) ← Attribute.parse false encoding (some p)
            readFields encoding fuel { f with standalone := cstr attrib.value } p
          else
            readFields encoding fuel f (some (p.dropWhile fun c => c ≠ 62 && !isSpace c))

def Declaration.parse (encoding : Encoding) (p : Pointer) : Parser (Node × Pointer) :=
  match skipWhiteSpace encoding p with
  | none | some [] => do
      setError .parsingDeclaration none encoding
      return (.declaration [] [] [], none)
  | some p => do
      if stringEqual (bytes "<?xml") true p then
        stamp encoding p
        let (f, p) ← readFields encoding (p.length + 1) ⟨[], [], []⟩ (some (p.drop 5))
        return (.declaration f.version f.encoding f.standalone, p)
      else
        setError .parsingDeclaration none encoding
        return (.declaration [] [] [], none)

/-- How the attributes of an element end: before its content, behind its empty tag, or
with null. -/
inductive TagEnd where
  | content (p : List UInt8)
  | empty (p : Pointer)
  deriving DecidableEq, Repr

/-- The loop of an element over its attributes, up to the end of the tag. -/
def readAttributes (encoding : Encoding) :
    Nat → List Attribute → Pointer → Parser (List Attribute × TagEnd)
  | 0, _, _ => throw .fuel
  | fuel + 1, attributes, p =>
      match skipWhiteSpace encoding p with
      | none | some [] => do
          setError .readingAttributes p encoding
          return (attributes, .empty none)
      | some (47 :: p) =>
          match p with
          | 62 :: p => return (attributes, .empty (some p))
          | p => do
              setError .parsingEmpty (some p) encoding
              return (attributes, .empty none)
      | some (62 :: p) => return (attributes, .content p)
      | some start => do
          let (attrib, p) ← Attribute.parse true encoding (some start)
          match p with
          | none | some [] =>
              setError .parsingElement (some start) encoding
              return (attributes, .empty none)
          | some p =>
              if attributes.any (·.name = attrib.name) then
                setError .parsingElement (some start) encoding
                return (attributes, .empty none)
              else readAttributes encoding fuel (attributes ++ [attrib]) (some p)

/-- An element behind its tag: its content, if any, and the end tag with its name. -/
def Element.parseContent (readValue : Pointer → Parser (List Node × Pointer))
    (encoding : Encoding) (value : List UInt8) (attributes : List Attribute) :
    TagEnd → Parser (Node × Pointer)
  | .empty p => return (.element value attributes [], p)
  | .content p => do
      let (children, p) ← readValue (some p)
      match p with
      | none | some [] =>
          setError .readingEndTag p encoding
          return (.element value attributes children, none)
      | some p =>
          if stringEqual (bytes "</" ++ value) false p then
            match skipWhiteSpace encoding (some (p.drop (bytes "</" ++ value).length)) with
            | some (62 :: q) => return (.element value attributes children, some q)
            | q =>
                setError .readingEndTag q encoding
                return (.element value attributes children, none)
          else
            setError .readingEndTag (some p) encoding
            return (.element value attributes children, none)

/-- An element, with what reads the nodes of its content. -/
def Element.parse (readValue : Pointer → Parser (List Node × Pointer)) (encoding : Encoding)
    (p : Pointer) : Parser (Node × Pointer) :=
  match skipWhiteSpace encoding p with
  | none | some [] => do
      setError .parsingElement none encoding
      return (.element [] [] [], none)
  | some start => do
      stamp encoding start
      match start with
      | 60 :: p =>
          match skipWhiteSpace encoding (some p) with
          | none => throw .assertion
          | some pErr =>
              match readName pErr with
              | (value, none) | (value, some []) =>
                  setError .failedToReadElementName (some pErr) encoding
                  return (.element value [] [], none)
              | (value, some p) =>
                  let (attributes, tagEnd) ← readAttributes encoding (p.length + 1) [] (some p)
                  Element.parseContent readValue encoding value attributes tagEnd
      | _ =>
          setError .parsingElement (some start) encoding
          return (.element [] [] [], none)

def Node.parse (readValue : Pointer → Parser (List Node × Pointer)) (encoding : Encoding)
    (p : Pointer) : Kind → Parser (Node × Pointer)
  | .declaration => Declaration.parse encoding p
  | .comment => Comment.parse encoding p
  | .cdata => Text.parse true encoding p
  | .unknown => Unknown.parse encoding p
  | .element => Element.parse readValue encoding p

/-- Does the value of a text hold white space only? -/
def Node.blank : Node → Bool
  | .text value _ => value.all isSpace
  | _ => false

/-- The nodes of an element, up to its end tag. White space before them is skipped. -/
def readValue (encoding : Encoding) : Nat → Pointer → Parser (List Node × Pointer)
  | 0, _ => throw .fuel
  | fuel + 1, p =>
      match skipWhiteSpace encoding p with
      | none => do
          setError .readingElementValue none encoding
          return ([], none)
      | some [] => return ([], some [])
      | some (60 :: rest) =>
          if stringEqual (bytes "</") false (60 :: rest) then
            return ([], some (60 :: rest))
          else
            match identify encoding (some (60 :: rest)) with
            | none => return ([], none)
            | some kind => do
                let (node, p) ← Node.parse (readValue encoding fuel) encoding
                  (some (60 :: rest)) kind
                let (nodes, p) ← readValue encoding fuel p
                return (node :: nodes, p)
      | some p => do
          let (node, p) ← Text.parse false encoding (some p)
          let (nodes, p) ← readValue encoding fuel p
          return (if node.blank then nodes else node :: nodes, p)

structure Document where
  children : List Node
  error : Option ErrorId
  useMicrosoftBOM : Bool
  deriving Repr

/-- A declaration at the top says how the rest is encoded, unless that is known. -/
def encodingAfter (encoding : Encoding) : Node → Encoding
  | .declaration _ enc _ =>
      if encoding = .unknown then
        if enc = [] then .utf8
        else if stringEqual (bytes "UTF-8") true enc then .utf8
        else if stringEqual (bytes "UTF8") true enc then .utf8
        else .legacy
      else encoding
  | _ => encoding

/-- The loop over the nodes at the top; what is none ends it. -/
def readDocument : Nat → Encoding → Pointer → Parser (List Node × Pointer)
  | 0, _, _ => throw .fuel
  | _ + 1, _, none => return ([], none)
  | _ + 1, _, some [] => return ([], some [])
  | fuel + 1, encoding, some p =>
      match identify encoding (some p) with
      | none => return ([], some p)
      | some kind => do
          let (node, p) ← Node.parse (readValue encoding (p.length + 1)) encoding (some p) kind
          let encoding := encodingAfter encoding node
          let (nodes, p) ← readDocument fuel encoding (skipWhiteSpace encoding p)
          return (node :: nodes, p)

/-- TiXmlDocument::Parse on a document without nodes. -/
def Document.parse (encoding : Encoding) (text : List UInt8) : Except Fault Document :=
  if text = [] then .ok ⟨[], some .documentEmpty, false⟩
  else
    let bom := encoding = .unknown && [0xEF, 0xBB, 0xBF].isPrefixOf text
    let encoding := if bom then .utf8 else encoding
    match (readDocument (text.length + 1) encoding (skipWhiteSpace encoding (some text))).run
        ⟨text, ⟨0, 0⟩, none⟩ with
    | .error f => .error f
    | .ok ((children, _), d) =>
        .ok ⟨children, if children = [] ∧ d.error = none then some .documentEmpty else d.error,
          bom⟩

/-- A CR, with the LF behind it, becomes an LF. -/
def normalizeLines : List UInt8 → List UInt8
  | [] => []
  | [c] => [if c = 13 then 10 else c]
  | c :: d :: rest =>
      if c = 13 then 10 :: (if d = 10 then normalizeLines rest else normalizeLines (d :: rest))
      else c :: normalizeLines (d :: rest)

/-- LoadFile on the bytes of a file that could be read, up to the first NUL. -/
def Document.loadFile (file : List UInt8) : Except Fault Document :=
  Document.parse .unknown (normalizeLines (cstr file))

end HZRobot.Xml
