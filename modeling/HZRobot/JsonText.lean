import HZRobot.JsonLanguage

/-!
JSON texts after RFC 8259, over bytes: one value with blanks around it. Blanks, digits and
symbols are the parser's; nothing else here refers to it.
-/

namespace HZRobot.Json

def Blanks (w : List UInt8) : Prop := ∀ c ∈ w, isBlank c = true

def Digits (ds : List UInt8) : Prop := ds ≠ [] ∧ ∀ d ∈ ds, isDigit d = true

/-- No leading zero. -/
inductive JsonInt : List UInt8 → Prop
  | zero : JsonInt [48]
  | digits {d : UInt8} {ds : List UInt8} (first : isDigit d = true) (positive : d ≠ 48)
      (others : ∀ b ∈ ds, isDigit b = true) : JsonInt (d :: ds)

inductive JsonFrac : List UInt8 → Prop
  | none : JsonFrac []
  | digits {ds : List UInt8} (digits : Digits ds) : JsonFrac (46 :: ds)

inductive JsonExp : List UInt8 → Prop
  | none : JsonExp []
  | digits {e : UInt8} {sign ds : List UInt8} (letter : e = 101 ∨ e = 69)
      (signed : sign = [] ∨ sign = [43] ∨ sign = [45]) (digits : Digits ds) :
      JsonExp (e :: (sign ++ ds))

inductive JsonNumber : List UInt8 → Prop
  | mk {sign int frac exp : List UInt8} (signed : sign = [] ∨ sign = [45]) (int_ : JsonInt int)
      (frac_ : JsonFrac frac) (exp_ : JsonExp exp) : JsonNumber (sign ++ int ++ frac ++ exp)

def isHex (c : UInt8) : Bool := isDigit c || (65 ≤ c && c ≤ 70) || (97 ≤ c && c ≤ 102)

/-- What stands between the quotes of a string. -/
inductive JsonChars : List UInt8 → Prop
  | nil : JsonChars []
  | plain {c : UInt8} {t : List UInt8} (visible : 32 ≤ c) (noQuote : c ≠ 34)
      (noEscape : c ≠ 92) (later : JsonChars t) : JsonChars (c :: t)
  | escape {c : UInt8} {t : List UInt8} (known : c ∈ [34, 92, 47, 98, 102, 110, 114, 116])
      (later : JsonChars t) : JsonChars (92 :: c :: t)
  | unicode {a b c d : UInt8} {t : List UInt8} (hex : ∀ h ∈ [a, b, c, d], isHex h = true)
      (later : JsonChars t) : JsonChars (92 :: 117 :: a :: b :: c :: d :: t)

/-- A value with the blanks around it. -/
structure ElementText where
  before : List UInt8
  value : List UInt8
  behind : List UInt8

def ElementText.text (e : ElementText) : List UInt8 := e.before ++ e.value ++ e.behind

/-- An element of an object: a name with blanks around it, a colon, and an element. -/
structure MemberText where
  before : List UInt8
  name : List UInt8
  behind : List UInt8
  element : ElementText

def MemberText.text (m : MemberText) : List UInt8 :=
  m.before ++ 34 :: (m.name ++ [34]) ++ m.behind ++ 58 :: m.element.text

inductive JsonValue : List UInt8 → Prop
  | symbol {type : NodeType} {text : List UInt8} (inside : (type, text) ∈ symbols) : JsonValue text
  | number {text : List UInt8} (number : JsonNumber text) : JsonValue text
  | string {t : List UInt8} (chars : JsonChars t) : JsonValue (34 :: (t ++ [34]))
  | emptyArray {w : List UInt8} (blanks : Blanks w) : JsonValue (91 :: (w ++ [93]))
  | array {es : List ElementText} (some_ : es ≠ [])
      (blanks : ∀ e ∈ es, Blanks e.before ∧ Blanks e.behind)
      (values : ∀ e ∈ es, JsonValue e.value) :
      JsonValue (91 :: ([44].intercalate (es.map ElementText.text) ++ [93]))
  | emptyObject {w : List UInt8} (blanks : Blanks w) : JsonValue (123 :: (w ++ [125]))
  | object {ms : List MemberText} (some_ : ms ≠ [])
      (names : ∀ m ∈ ms, JsonChars m.name ∧ Blanks m.before ∧ Blanks m.behind)
      (blanks : ∀ m ∈ ms, Blanks m.element.before ∧ Blanks m.element.behind)
      (values : ∀ m ∈ ms, JsonValue m.element.value) :
      JsonValue (123 :: ([44].intercalate (ms.map MemberText.text) ++ [125]))

/-- One value with blanks around it. -/
def JsonText (s : List UInt8) : Prop :=
  ∃ e : ElementText, s = e.text ∧ Blanks e.before ∧ Blanks e.behind ∧ JsonValue e.value

theorem blanks_nil : Blanks [] := fun _ none_ => absurd none_ List.not_mem_nil

theorem JsonValue.text {v : List UInt8} (h : JsonValue v) : JsonText v :=
  ⟨⟨[], v, []⟩, (List.append_nil v).symm, blanks_nil, blanks_nil, h⟩

end HZRobot.Json
