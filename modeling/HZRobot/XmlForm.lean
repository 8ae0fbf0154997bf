import HZRobot.XmlParser

/-!
The form of the nodes that reading builds: names where they belong, no attribute twice,
no text that is white space only or stands next to another, and nothing in the value of
a node that would have ended it.
-/

namespace HZRobot.Xml

def isName : List UInt8 → Bool
  | [] => false
  | c :: rest => isNameStart c && rest.all isNameChar

theorem isNameChar_of_start {c : UInt8} (h : isNameStart c = true) : isNameChar c = true := by
  unfold isNameStart isAlpha at h
  unfold isNameChar isAlphaNum isAlnum
  split at h
  · case isTrue low =>
      rw [if_pos low]
      simp only [Bool.or_eq_true] at h ⊢
      tauto
  · case isFalse high => simp [if_neg high]

/-- A name that is not taken for a mark where it begins. -/
def named (encoding : Encoding) (name : List UInt8) : Bool :=
  isName name && !markAt encoding name

/-- A value that is in the text as it is. -/
def raw (value : List UInt8) : Bool := !value.contains 0 && !value.contains 13

def Node.isText : Node → Bool
  | .text _ false => true
  | _ => false

/-- An end tag is no node of an element. -/
def Node.inContent : Node → Bool
  | .unknown value => !value.head? = some 47
  | _ => true

def startsWithText : List Node → Bool
  | n :: _ => n.isText
  | [] => false

mutual

def Node.formed (encoding : Encoding) : Node → Bool
  | .element value attributes children =>
      named encoding value && attributes.all (fun a => named encoding a.name) &&
        decide (attributes.map (·.name)).Nodup && contentFormed encoding children
  | .text value false => !value.all isSpace
  | .text value true => raw value && find (bytes "]]>") value = none
  | .comment value => raw value && find (bytes "-->") value = none
  | .unknown value => raw value && !value.contains 62 && kindOf value = .unknown
  | .declaration _ _ _ => true

def contentFormed (encoding : Encoding) : List Node → Bool
  | [] => true
  | n :: ns =>
      n.formed encoding && n.inContent && !(n.isText && startsWithText ns) &&
        contentFormed encoding ns

end

theorem stringEqual_cons {c d : UInt8} (tag rest : List UInt8) :
    stringEqual (c :: tag) false (d :: rest) = (c == d && stringEqual tag false rest) := by
  rw [stringEqual, stringEqual, if_neg Bool.false_ne_true, if_neg Bool.false_ne_true]
  rfl

/-- What begins with another byte is not the tag. -/
theorem stringEqual_of_ne {c d : UInt8} (other : d ≠ c) (tag rest : List UInt8) :
    stringEqual (c :: tag) false (d :: rest) = false := by
  rw [stringEqual_cons, beq_eq_false_iff_ne.mpr other.symm, Bool.false_and]

/-- A tag does not reach over a byte that it has not got. -/
theorem isPrefixOf_append {tag : List UInt8} {b : UInt8} (without : b ∉ tag)
    (a t : List UInt8) : tag.isPrefixOf (a ++ b :: t) = tag.isPrefixOf a := by
  induction tag generalizing a with
  | nil => simp
  | cons c tag ih =>
      simp only [List.mem_cons, not_or] at without
      cases a with
      | nil =>
          have other : (c == b) = false := beq_eq_false_iff_ne.mpr fun h => without.1 h.symm
          simp [List.isPrefixOf, other]
      | cons d a => simp [List.isPrefixOf, ih without.2 a]

theorem stringEqual_append {tag : List UInt8} {ignoreCase : Bool} (without : 62 ∉ tag)
    (a t : List UInt8) :
    stringEqual tag ignoreCase (a ++ 62 :: t) = stringEqual tag ignoreCase a := by
  cases ignoreCase with
  | false => exact isPrefixOf_append without a t
  | true =>
      have lower : 62 ∉ tag.map toLower := by
        intro h
        obtain ⟨c, hc, same⟩ := List.mem_map.mp h
        unfold toLower at same
        split at same
        · case isTrue upper =>
            simp only [Bool.and_eq_true, decide_eq_true_eq] at upper
            grind
        · exact without (same ▸ hc)
      have gt : toLower 62 = 62 := by decide
      unfold stringEqual
      rw [if_pos rfl, if_pos rfl, List.map_append, List.map_cons, gt]
      exact isPrefixOf_append lower _ _

theorem kindOf_append (value t : List UInt8) : kindOf (value ++ 62 :: t) = kindOf value := by
  unfold kindOf
  rw [← List.cons_append, stringEqual_append (by decide), stringEqual_append (by decide),
    stringEqual_append (by decide), stringEqual_append (by decide)]
  cases value with
  | nil => rfl
  | cons c value => rfl

end HZRobot.Xml
